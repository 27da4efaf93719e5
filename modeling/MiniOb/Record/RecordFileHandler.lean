import MiniOb.Buffer.PoolRuns
import MiniOb.Lib.Prog
import MiniOb.Record.PageSlots

/-! The records of a heap file (`RecordFileHandler` in `record_manager.cpp`), one call at a time. The pages are what the
buffer pool hands out, the header page among them. -/
namespace MiniOb.Record
open Buffer Prog RecordPageHandler

/-- `freePages` is `free_pages_`, a set: its order means nothing. -/
structure RecordFile where
  memory : PageNum → Option Content
  freePages : List PageNum

def Walk : Type := { walk : List PageNum → List PageNum // ∀ pages, (walk pages).Perm pages }

/-- What the buffer pool and the log answer during a call: a code where a page cannot be fetched, a frame cannot be
allocated or an entry cannot be logged. -/
structure Outcomes where
  walk : Walk
  fetch : PageNum → Option RC
  frame : Option RC
  /-- `get_this_page` in `init_empty_page`. -/
  reload : Option RC
  allocateLsn : Int64
  initLog : Except RC Int64
  insertLog : Option Int64

namespace RecordFile

def write (page : PageNum) (content : Content) (file : RecordFile) : RecordFile :=
  { file with memory := Function.update file.memory page (some content) }

def addFree (page : PageNum) (file : RecordFile) : RecordFile := { file with freePages := file.freePages.insert page }

def eraseFree (page : PageNum) (file : RecordFile) : RecordFile := { file with freePages := file.freePages.filter (· ≠ page) }

def headerPage (file : RecordFile) : Content := (file.memory bpHeaderPage).getD .zero

def pool (file : RecordFile) : DiskBufferPool := file.headerPage.pool

def fetch (fault : Option RC) (page : PageNum) : Prog RecordFile Exit Content := fun file => match fault with
  | some rc => (.error (.rc rc),file)
  | none => match file.memory page with
    | some content => (.ok content,file)
    | none => (.error (.rc .ioerrRead),file)

/-- `DiskBufferPool::allocate_page`: a page that is used again stays allocated when it cannot be fetched. -/
def allocatePage (outcomes : Outcomes) : Prog RecordFile Exit PageNum := fun file =>
  match file.pool.freePage with
  | some free =>
    let page := Int32.ofNat free
    let marked := file.write bpHeaderPage ((file.pool.setBit free).content outcomes.allocateLsn)
    match fetch (outcomes.fetch page) page marked with
    | (.ok _,after) => (.ok page,after)
    | (.error exit,after) => (.error exit,after)
  | none =>
    if maxPageNum ≤ file.pool.fileHeader.pageCount then (.error (.rc .bufferpoolNobuf),file)
    else match outcomes.frame with
      | some rc => (.error (.rc rc),file.write bpHeaderPage { file.headerPage with lsn := outcomes.allocateLsn })
      | none =>
        let page := Int32.ofNat file.pool.fileHeader.pageCount
        let extended := (file.pool.setBit file.pool.fileHeader.pageCount).extend
        (.ok page,(file.write bpHeaderPage (extended.content outcomes.allocateLsn)).write page .zero)

def initEmptyPage (outcomes : Outcomes) (recordSize : Nat) (page : PageNum) : Prog RecordFile Exit Content := do
  let content ← fetch outcomes.reload page
  match RecordPageHandler.initEmptyPage recordSize content with
  | .error exit => Prog.exit exit
  | .ok empty => match outcomes.initLog with
    | .error rc => do
      update (write page empty)
      Prog.exit (.rc rc)
    | .ok lsn => do
      update (write page (setLsn (some lsn) empty))
      pure (setLsn (some lsn) empty)

def search (outcomes : Outcomes) : List PageNum → Prog RecordFile Exit (Option (PageNum × Content))
  | [] => pure none
  | page :: rest => do
    let content ← fetch (outcomes.fetch page) page
    if isFull content then do
      update (eraseFree page)
      search outcomes rest
    else pure (some (page,content))

def choosePage (outcomes : Outcomes) (recordSize : Nat) : Prog RecordFile Exit (PageNum × Content) := do
  let pages ← read fun file => outcomes.walk.1 file.freePages
  match ← search outcomes pages with
  | some found => pure found
  | none => do
    let page ← allocatePage outcomes
    let content ← initEmptyPage outcomes recordSize page
    update (addFree page)
    pure (page,content)

def insertRecord (outcomes : Outcomes) (recordSize : Nat) (data : Bytes) : Prog RecordFile Exit RID := do
  let (page,content) ← choosePage outcomes recordSize
  match RowRecordPageHandler.insertRecord outcomes.insertLog data content with
  | .error exit => Prog.exit exit
  | .ok (slot,after) => do
    update (write page after)
    pure ⟨page,Int32.ofNat slot⟩

def deleteRecord (fault : Option RC) (lsn : Option Int64) (rid : RID) : Prog RecordFile Exit Unit := do
  let content ← fetch fault rid.pageNum
  match RowRecordPageHandler.deleteRecord lsn rid.slotNum content with
  | .error exit => Prog.exit exit
  | .ok after => update fun file => (file.write rid.pageNum after).addFree rid.pageNum

def bitmap (file : RecordFile) : Bitmap where
  bitmap i := file.headerPage.data.getD (12 + i) 0
  size := file.pool.fileHeader.pageCount

end RecordFile

def BufferPoolIterator.pages (bits : Bitmap) (start : Nat) : List Nat :=
  match found : bits.nextSettedBit start with
  | none => []
  | some page => page :: pages bits (page + 1)
termination_by bits.size - start
decreasing_by
  rw [Bitmap.nextSettedBitFind] at found
  have inside := List.mem_range'_1.mp (List.mem_of_find?_eq_some found)
  omega

namespace RecordFile

def initFreePages (fetches : PageNum → Option RC) : List Nat → Prog RecordFile Exit Unit
  | [] => pure ()
  | page :: rest => do
    let content ← fetch (fetches (Int32.ofNat page)) (Int32.ofNat page)
    whenever (¬isFull content) (update (addFree (Int32.ofNat page)))
    initFreePages fetches rest

/-- `close` and `init`, which drops what `init_free_pages` returns. -/
def reopen (fetches : PageNum → Option RC) : Prog RecordFile Exit Unit := do
  update fun file => { file with freePages := [] }
  let pages ← read fun file => BufferPoolIterator.pages file.bitmap 1
  ignore Exit.isCode (initFreePages fetches pages)

/-! What is in the file. -/

def Allocated (page : PageNum) (file : RecordFile) : Prop :=
  0 ≤ page.toInt ∧ natOf page < file.pool.fileHeader.pageCount ∧ file.pool.fileHeader.bitmap (natOf page) = true

instance (page : PageNum) (file : RecordFile) : Decidable (file.Allocated page) := inferInstanceAs (Decidable (_ ∧ _ ∧ _))

def record (file : RecordFile) (rid : RID) : Option Bytes :=
  if file.Allocated rid.pageNum ∧ rid.pageNum ≠ bpHeaderPage ∧ 0 ≤ rid.slotNum.toInt then
    (file.memory rid.pageNum).bind fun page => slots page (natOf rid.slotNum)
  else none

structure Unchanged (file after : RecordFile) : Prop where
  allocated : ∀ page, after.Allocated page ↔ file.Allocated page
  freePages : ∀ page, page ∈ after.freePages ↔ page ∈ file.freePages
  record : ∀ rid, after.record rid = file.record rid

end RecordFile
end MiniOb.Record
