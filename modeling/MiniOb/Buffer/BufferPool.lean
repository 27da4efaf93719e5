import MiniOb.Buffer.DoubleWriteBuffer
import MiniOb.Buffer.FileHeader

/-! Frames, their pages and the calls of a `DiskBufferPool` that read, write and evict them
(`frame.h`, `disk_buffer_pool.cpp`). Several buffer pools share the frames and the double-write
buffer. One thread runs and no disk operation fails. -/
namespace MiniOb.Buffer

/-- What a page holds beside its checksum, which the pool computes when it flushes the page. -/
structure Content where
  lsn : Int64
  data : Bytes
  size : data.length = bpPageDataSize

def Page.content (page : Page) : Content := ⟨page.lsn,page.data,page.size⟩

def Content.page (checkSum : UInt32) (content : Content) : Page := ⟨content.lsn,checkSum,content.data,content.size⟩

def Content.zero : Content := ⟨0,List.replicate bpPageDataSize 0,List.length_replicate⟩

abbrev FrameId := DoubleWritePageKey

structure Frame where
  id : FrameId
  pinCount : Nat
  dirty : Bool
  page : Page

/-- `frames` is the cache, the frame used last in front, and `frees` the queue of the allocator.
A frame that is freed keeps its page and its dirty mark. -/
structure BPFrameManager where
  frames : List Frame
  frees : List Frame

namespace BPFrameManager

def find (id : FrameId) (manager : BPFrameManager) : Option Frame := manager.frames.find? fun frame => frame.id = id

def update (id : FrameId) (f : Frame → Frame) (manager : BPFrameManager) : BPFrameManager :=
  { manager with frames := manager.frames.map fun frame => if frame.id = id then f frame else frame }

def get (id : FrameId) (manager : BPFrameManager) : Option BPFrameManager :=
  (manager.find id).map fun frame =>
    { manager with frames := { frame with pinCount := frame.pinCount + 1 } :: manager.frames.filter fun other => other.id ≠ id }

def alloc (id : FrameId) (manager : BPFrameManager) : Option BPFrameManager :=
  match manager.get id with
  | some manager => some manager
  | none => match manager.frees with
    | [] => none
    | frame :: rest => some ⟨{ frame with id := id, pinCount := 1 } :: manager.frames,rest⟩

def free (frame : Frame) (manager : BPFrameManager) : BPFrameManager where
  frames := manager.frames.filter fun other => other.id ≠ frame.id
  frees := manager.frees ++ [{ frame with pinCount := 0 }]

def victim (manager : BPFrameManager) : Option Frame := manager.frames.reverse.find? fun frame => frame.pinCount = 0

end BPFrameManager

namespace BPFileHeader

def int32At (offset : Nat) (data : Bytes) : Int32 := ((Bytes.readInt32 (data.drop offset)).map Prod.fst).getD 0

def decode (data : Bytes) : BPFileHeader where
  bufferPoolId := int32At 0 data
  pageCount := (int32At 4 data).toInt.toNat
  allocatedPages := (int32At 8 data).toInt
  bitmap i := (data.getD (12 + i / 8) 0).toNat.testBit (i % 8)

def bitmapByte (header : BPFileHeader) (i : Nat) : UInt8 :=
  UInt8.ofNat ((List.range 8).foldl (fun byte bit => byte + if header.bitmap (8 * i + bit) then 2 ^ bit else 0) 0)

def encode (header : BPFileHeader) : Bytes :=
  Bytes.ofInt32 header.bufferPoolId ++ (Bytes.ofInt32 (Int32.ofNat header.pageCount) ++
    (Bytes.ofInt32 (Int32.ofInt header.allocatedPages) ++ (List.range (bpPageDataSize - 12)).map header.bitmapByte))

theorem encodeSize (header : BPFileHeader) : header.encode.length = bpPageDataSize := by
  simp only [encode,List.length_append,Bytes.lengthOfInt32,List.length_map,List.length_range]
  decide

end BPFileHeader

def Content.pool (content : Content) : DiskBufferPool := ⟨BPFileHeader.decode content.data,content.lsn.toInt.toNat,false⟩

def DiskBufferPool.content (lsn : Int64) (bp : DiskBufferPool) : Content := ⟨lsn,bp.fileHeader.encode,bp.fileHeader.encodeSize⟩

/-- `opened` are the pools whose files are open, each with its header page pinned; `held` counts, for
each page, the frames a caller was given and has not unpinned. -/
structure Pools where
  opened : List Int32
  manager : BPFrameManager
  dblwr : DiskDoubleWriteBuffer
  disk : Disk
  held : FrameId → Nat

namespace Pools

def headerId (pool : Int32) : FrameId := ⟨pool,0⟩

def writeFrame (id : FrameId) (content : Content) (pools : Pools) : Pools :=
  { pools with manager := pools.manager.update id fun frame =>
      { frame with dirty := true, page := content.page frame.page.checkSum } }

def flushPageInternal (order : Order) (frame : Frame) (pools : Pools) : Pools :=
  let page := { frame.page with checkSum := crc32 frame.page.data }
  let (writes,dblwr) := pools.dblwr.addPage order frame.id page
  { pools with
    manager := pools.manager.update frame.id fun frame => { frame with dirty := false, page := page }
    dblwr := dblwr
    disk := pools.disk.writeAll writes }

def flushDirty (order : Order) (frame : Frame) (pools : Pools) : Pools :=
  if frame.dirty then pools.flushPageInternal order frame else pools

def freeFrame (id : FrameId) (pools : Pools) : Pools :=
  match pools.manager.find id with
  | some frame => { pools with manager := pools.manager.free frame }
  | none => pools

/-- None when every frame is pinned: the loop never ends. -/
def allocateFrame (order : Order) (id : FrameId) (pools : Pools) : Option Pools :=
  match pools.manager.alloc id with
  | some manager => some { pools with manager := manager }
  | none => match pools.manager.victim with
    | none => none
    | some frame =>
      let purged := (pools.flushDirty order frame).freeFrame frame.id
      (purged.manager.alloc id).map fun manager => { purged with manager := manager }

/-- Where the file has grown over a page that was never written, the page is zeros. -/
def growOver (grown : Bool) (id : FrameId) (pools : Pools) : Pools :=
  if grown ∧ readPage (pools.disk.data id) = none then
    { pools with disk := pools.disk.write (.page id (Content.zero.page 0).bytes) }
  else pools

def loadPage (id : FrameId) (pools : Pools) : Option Page :=
  match pools.dblwr.readPage id with
  | some page => some page
  | none => readPage (pools.disk.data id)

def purgeFrame (order : Order) (id : FrameId) (pools : Pools) : Pools :=
  match pools.manager.find id with
  | none => pools
  | some frame => if frame.pinCount ≠ 1 then pools else (pools.flushDirty order frame).freeFrame id

def hold (id : FrameId) (pools : Pools) : Pools := { pools with held := Function.update pools.held id (pools.held id + 1) }

abbrev Answer := Except RC (FrameId × Content)

def getThisPage (order : Order) (id : FrameId) (pools : Pools) : Option (Answer × Pools) :=
  match pools.manager.find id,pools.manager.get id with
  | some frame,some manager => some (.ok (id,frame.page.content),{ pools with manager := manager }.hold id)
  | _,_ =>
    (pools.allocateFrame order id).map fun pools => match pools.loadPage id with
      | some page =>
        (.ok (id,page.content),
          { pools with manager := pools.manager.update id fun frame => { frame with page := page } }.hold id)
      | none => (.error .ioerrRead,pools.purgeFrame order id)

/-- `lsn` is what the log handler gives out. It is set on the header page before the frame is looked
for; nothing reads it in between. -/
def allocatePage (order : Order) (lsn : Int64) (grown : Bool) (pool : Int32) (pools : Pools) : Option (Answer × Pools) :=
  match pools.manager.find (headerId pool) with
  | none => none
  | some header =>
    let bp := header.page.content.pool
    match bp.freePage with
    | some page =>
      let id : FrameId := ⟨pool,Int32.ofNat page⟩
      ((pools.writeFrame (headerId pool) ((bp.setBit page).content lsn)).growOver grown id).getThisPage order id
    | none =>
      if maxPageNum ≤ bp.fileHeader.pageCount then some (.error .bufferpoolNobuf,pools)
      else
        let id : FrameId := ⟨pool,Int32.ofNat bp.fileHeader.pageCount⟩
        (pools.allocateFrame order id).map fun pools =>
          let extended := pools.writeFrame (headerId pool) (((bp.setBit bp.fileHeader.pageCount).extend).content lsn)
          let cleared := { extended with manager := extended.manager.update id fun frame =>
            { frame with page := Content.zero.page 0 } }
          match cleared.manager.find id with
          | none => (.error .internal,cleared)
          | some frame => (.ok (id,Content.zero),(cleared.flushPageInternal order frame).hold id)

def unpin (id : FrameId) (pools : Pools) : Pools :=
  { pools with
    manager := pools.manager.update id fun frame => { frame with pinCount := frame.pinCount - 1 }
    held := Function.update pools.held id (pools.held id - 1) }

def flushPage (order : Order) (id : FrameId) (pools : Pools) : Pools :=
  match pools.manager.find id with
  | some frame => pools.flushPageInternal order frame
  | none => pools

def flushAllPages (order : Order) (pool : Int32) (pools : Pools) : Pools :=
  ((pools.manager.frames.filter fun frame => frame.id.bufferPoolId = pool).map Frame.id).foldl
    (fun pools id => pools.flushPage order id) pools

/-- A frame that is in use stays, with one more pin that nobody takes back. -/
def purgePage (order : Order) (id : FrameId) (pools : Pools) : Pools :=
  match pools.manager.get id with
  | some manager => { pools with manager := manager }.purgeFrame order id
  | none => pools

end Pools

/-- A caller writes to, unpins and flushes only pages it holds, and leaves header pages to the pool.
`grown` says whether the file has grown over the page. -/
inductive PoolCall where
  | allocatePage (pool : Int32) (lsn : Int64) (grown : Bool)
  | getThisPage (id : FrameId) (grown : Bool)
  | modify (id : FrameId) (content : Content)
  | unpin (id : FrameId)
  | flushPage (id : FrameId)
  | flushAllPages (pool : Int32)
  | purgePage (id : FrameId)

namespace PoolCall

def apply (order : Order) (pools : Pools) : PoolCall → Option (Option Pools.Answer × Pools)
  | allocatePage pool lsn grown =>
    if pool ∈ pools.opened then (pools.allocatePage order lsn grown pool).map fun r => (some r.1,r.2) else none
  | getThisPage id grown => ((pools.growOver grown id).getThisPage order id).map fun r => (some r.1,r.2)
  | modify id content => some (none,if 0 < pools.held id ∧ id.pageNum ≠ 0 then pools.writeFrame id content else pools)
  | unpin id => some (none,if 0 < pools.held id then pools.unpin id else pools)
  | flushPage id => some (none,if 0 < pools.held id then pools.flushPage order id else pools)
  | flushAllPages pool => some (none,pools.flushAllPages order pool)
  | purgePage id => some (none,pools.purgePage order id)

def run : List (Order × PoolCall) → Pools → Option (List (Option Pools.Answer) × Pools)
  | [],pools => some ([],pools)
  | (order,call) :: rest,pools => do
    let (answer,next) ← call.apply order pools
    let (answers,last) ← run rest next
    some (answer :: answers,last)

end PoolCall

end MiniOb.Buffer
