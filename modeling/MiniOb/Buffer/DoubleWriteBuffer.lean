import MiniOb.Common.Crc
import MiniOb.Common.Types
import MiniOb.Lib.Torn

/-! Pages and the double-write buffer: its memory, its file, and the disk writes each call makes
(`page.h`, `double_write_buffer.cpp`). -/
namespace MiniOb.Buffer
open Bytes Function

structure Page where
  lsn : Int64
  checkSum : UInt32
  data : Bytes
  size : data.length = bpPageDataSize
  deriving DecidableEq

namespace Page

def bytes (page : Page) : Bytes := ofInt64 page.lsn ++ (ofInt32 page.checkSum.toInt32 ++ page.data)

def Intact (page : Page) : Prop := crc32 page.data = page.checkSum

instance (page : Page) : Decidable page.Intact := inferInstanceAs (Decidable (_ = _))

end Page

structure DoubleWritePageKey where
  bufferPoolId : Int32
  pageNum : Int32
  deriving DecidableEq, Repr

structure DoubleWritePage where
  key : DoubleWritePageKey
  pageIndex : Nat
  valid : Bool
  page : Page
  deriving DecidableEq

abbrev Distinct (pages : List DoubleWritePage) : Prop := (pages.map DoubleWritePage.key).Nodup

namespace DoubleWritePage

def bytes (page : DoubleWritePage) : Bytes :=
  ofInt32 page.key.bufferPoolId ++ (ofInt32 page.key.pageNum ++ (ofInt32 (Int32.ofNat page.pageIndex) ++
    ((if page.valid then 1 else 0) :: page.page.bytes)))

def invalidated (page : DoubleWritePage) : DoubleWritePage := { page with valid := false }

end DoubleWritePage

def readPage (bytes : Bytes) : Option Page := do
  let (lsn,rest) ← readInt64 bytes
  let (checkSum,rest) ← readInt32 rest
  if size : bpPageDataSize ≤ rest.length then
    some { lsn := lsn, checkSum := checkSum.toUInt32, data := rest.take bpPageDataSize, size := List.length_take_of_le size }
  else none

def readSlot (bytes : Bytes) : Option DoubleWritePage := do
  let (bufferPoolId,rest) ← readInt32 bytes
  let (pageNum,rest) ← readInt32 rest
  let (pageIndex,rest) ← readInt32 rest
  let (valid,rest) ← rest.head?.map fun byte => (byte != 0,rest.tail)
  let page ← readPage rest
  some { key := ⟨bufferPoolId,pageNum⟩, pageIndex := pageIndex.toInt.toNat, valid := valid, page := page }

/-- The file of the buffer, as its header and its slots, and the pages of all data files. A header
that is not there yet reads as zeros. -/
structure Disk where
  header : Bytes
  slots : Nat → Bytes
  data : DoubleWritePageKey → Bytes

inductive Write where
  | slot (index : Nat) (bytes : Bytes)
  | header (bytes : Bytes)
  | page (key : DoubleWritePageKey) (bytes : Bytes)

namespace Disk

def put (c : Nat) (disk : Disk) : Write → Disk
  | .slot index bytes => { disk with slots := update disk.slots index (torn c bytes (disk.slots index)) }
  | .header bytes => { disk with header := torn c bytes disk.header }
  | .page key bytes => { disk with data := update disk.data key (torn c bytes (disk.data key)) }

def write (disk : Disk) : Write → Disk
  | .slot index bytes => { disk with slots := update disk.slots index bytes }
  | .header bytes => { disk with header := bytes }
  | .page key bytes => { disk with data := update disk.data key bytes }

def writeAll (disk : Disk) (writes : List Write) : Disk := writes.foldl write disk

def pageCnt (disk : Disk) : Nat := ((readInt32 disk.header).map fun n => n.1.toInt.toNat).getD 0

end Disk

def headerBytes (pageCnt : Nat) : Bytes := ofInt32 (Int32.ofNat pageCnt)

def Order : Type := { walk : List DoubleWritePage → List DoubleWritePage // ∀ pages, (walk pages).Perm pages }

structure DiskDoubleWriteBuffer where
  maxPages : Int32
  pageCnt : Nat
  pages : List DoubleWritePage

namespace DiskDoubleWriteBuffer

def find (key : DoubleWritePageKey) (buffer : DiskDoubleWriteBuffer) : Option DoubleWritePage :=
  buffer.pages.find? fun page => page.key = key

def writePageInternal (page : DoubleWritePage) : Write := .slot page.pageIndex page.bytes

def writePage (page : DoubleWritePage) : List Write := if page.valid then [.page page.key page.page.bytes] else []

def flushPage (order : Order) (buffer : DiskDoubleWriteBuffer) : List Write × DiskDoubleWriteBuffer :=
  ((order.1 buffer.pages).flatMap fun page => writePage page ++ [writePageInternal page.invalidated],
    { buffer with pageCnt := 0, pages := [] })

/-- A page that is there is replaced in its slot. A new one takes the slot that the number of
pages names, whether or not that slot is in use. -/
def addPage (order : Order) (key : DoubleWritePageKey) (page : Page) (buffer : DiskDoubleWriteBuffer) :
    List Write × DiskDoubleWriteBuffer :=
  match buffer.find key with
  | some old =>
    let new := { old with page := page }
    ([writePageInternal new],{ buffer with pages := buffer.pages.map fun other => if other.key = key then new else other })
  | none =>
    let new : DoubleWritePage := ⟨key,buffer.pages.length,true,page⟩
    let added := { buffer with pageCnt := max buffer.pageCnt (buffer.pages.length + 1), pages := buffer.pages ++ [new] }
    let writes := writePageInternal new ::
      if buffer.pageCnt < buffer.pages.length + 1 then [.header (headerBytes (buffer.pages.length + 1))] else []
    if buffer.maxPages.toInt ≤ added.pages.length then (writes ++ (added.flushPage order).1,(added.flushPage order).2)
    else (writes,added)

def clearPages (bufferPoolId : Int32) (buffer : DiskDoubleWriteBuffer) : List Write × DiskDoubleWriteBuffer :=
  let pages := (buffer.pages.filter fun page => page.key.bufferPoolId = bufferPoolId).mergeSort
    fun a b => a.key.pageNum.toInt ≤ b.key.pageNum.toInt
  (pages.flatMap fun page => [.page page.key page.page.bytes,writePageInternal page.invalidated],
    { buffer with pages := buffer.pages.filter fun page => page.key.bufferPoolId ≠ bufferPoolId })

def readPage (key : DoubleWritePageKey) (buffer : DiskDoubleWriteBuffer) : Option Page := (buffer.find key).map DoubleWritePage.page

/-- One round of the loop in `load_pages`: of two pages with one key the first is kept. -/
def loadPage (disk : Disk) (loaded : List DoubleWritePage) (i : Nat) : Except RC (List DoubleWritePage) :=
  match readSlot (disk.slots i) with
  | none => .error .ioerrRead
  | some page => .ok (if page.page.Intact ∧ page.key ∉ loaded.map DoubleWritePage.key then loaded ++ [page] else loaded)

def loadPages (maxPages : Int32) (disk : Disk) : Except RC DiskDoubleWriteBuffer := do
  let pages ← (List.range disk.pageCnt).foldlM (loadPage disk) []
  .ok { maxPages := maxPages, pageCnt := disk.pageCnt, pages := pages }

def recover (order : Order) (maxPages : Int32) (disk : Disk) : Except RC Disk := do
  let buffer ← loadPages maxPages disk
  .ok (disk.writeAll (buffer.flushPage order).1)

end DiskDoubleWriteBuffer

/-! The keys of the pages in memory. -/

section
open List
variable {buffer : DiskDoubleWriteBuffer} {key : DoubleWritePageKey} {old : DoubleWritePage}

theorem findSome (found : buffer.find key = some old) : old ∈ buffer.pages ∧ old.key = key :=
  ⟨mem_of_find?_eq_some found,by simpa using find?_some found⟩

theorem findNone (absent : buffer.find key = none) : ∀ p ∈ buffer.pages, p.key ≠ key := by
  intro p inside same
  have no := find?_eq_none.mp absent p inside
  simp [same] at no

theorem addFoundPage (found : buffer.find key = some old) {order : Order} {page : Page} :
    buffer.addPage order key page = ([DiskDoubleWriteBuffer.writePageInternal { old with page := page }],
      { buffer with pages := buffer.pages.map fun other => if other.key = key then { old with page := page } else other }) := by
  rw [DiskDoubleWriteBuffer.addPage,found]

theorem keyReplaced (same : old.key = key) (page : Page) (other : DoubleWritePage) :
    (if other.key = key then { old with page := page } else other).key = other.key := by
  split
  · rename_i here
    exact same.trans here.symm
  · rfl

theorem replacedDistinct (same : old.key = key) (page : Page) (distinct : Distinct buffer.pages) :
    Distinct (buffer.pages.map fun other => if other.key = key then { old with page := page } else other) := by
  rw [Distinct,map_map]
  simpa only [comp_def,keyReplaced same] using distinct

theorem freshDistinct (absent : buffer.find key = none) (distinct : Distinct buffer.pages) (new : DoubleWritePage)
    (same : new.key = key) : Distinct (buffer.pages ++ [new]) := by
  rw [Distinct,map_append,map_singleton,nodup_append]
  refine ⟨distinct,by simp,fun a inside b only => ?_⟩
  rw [mem_singleton.mp only,same]
  obtain ⟨q,member,rfl⟩ := mem_map.mp inside
  exact findNone absent q member

end

end MiniOb.Buffer
