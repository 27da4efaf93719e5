import Mathlib.Data.List.Nodup
import MiniOb.Buffer.DoubleWriteBuffer
import MiniOb.Lib.Prog

/-! The double-write buffer when a disk write fails: what a call returns, what it leaves of the pages, and which pages it
has freed (`double_write_buffer.cpp`). -/
namespace MiniOb.Buffer
open Prog List DiskDoubleWriteBuffer

structure WriteFault where
  rc : RC
  bytes : Nat
  failed : rc ≠ .success

inductive Ending where
  | rc (code : RC)
  | freed
  deriving DecidableEq, Repr

def Ending.isCode : Ending → Bool
  | rc _ => true
  | freed => false

/-- `freed` are the keys of `dblwr_pages_` whose page has been deleted. `faults` says how the next disk writes end, the
writes after these succeed; `failed` tells whether one has failed. -/
structure Device where
  buffer : DiskDoubleWriteBuffer
  freed : List DoubleWritePageKey
  disk : Disk
  faults : List (Option WriteFault)
  failed : Bool

abbrev DeviceM := Prog Device Ending Unit

namespace Device

def write (w : Write) : DeviceM := fun s => match s.faults.headD none with
  | some fault => (.error (.rc fault.rc),{ s with disk := s.disk.put fault.bytes w, faults := s.faults.tail, failed := true })
  | none => (.ok (),{ s with disk := s.disk.write w, faults := s.faults.tail })

def touch (key : DoubleWritePageKey) : DeviceM := fun s => if key ∈ s.freed then (.error .freed,s) else (.ok (),s)

def writePage (page : DoubleWritePage) : DeviceM := whenever (page.valid = true) (write (.page page.key page.page.bytes))

/-- The slot of a page that has been written. What `write_page_internal` returns is dropped. -/
def invalidate (page : DoubleWritePage) : DeviceM :=
  ignore Ending.isCode (write (writePageInternal page.invalidated))

/-- One round of `flush_page`: the page is deleted and its entry stays. -/
def flushOne (page : DoubleWritePage) : DeviceM := do
  touch page.key
  writePage page
  invalidate page
  update fun s => { s with freed := page.key :: s.freed }

def flushPage (order : Order) : DeviceM := do
  let pages ← read fun s => order.1 s.buffer.pages
  each flushOne pages
  update fun s => { s with buffer := { s.buffer with pageCnt := 0, pages := [] }, freed := [] }

def replace (new : DoubleWritePage) (s : Device) : Device :=
  { s with buffer := { s.buffer with pages := s.buffer.pages.map fun other => if other.key = new.key then new else other } }

def push (new : DoubleWritePage) (s : Device) : Device := { s with buffer := { s.buffer with pages := s.buffer.pages ++ [new] } }

def writeHeader (count : Nat) : DeviceM := do
  update fun s => { s with buffer := { s.buffer with pageCnt := count } }
  write (.header (headerBytes count))

/-- A page that could not be written stays in the map. -/
def addPage (order : Order) (key : DoubleWritePageKey) (page : Page) : DeviceM := do
  let found ← read fun s => s.buffer.find key
  match found with
  | some old => do
    touch key
    update (replace { old with page := page })
    write (writePageInternal { old with page := page })
  | none => do
    let buffer ← read fun s => s.buffer
    let new : DoubleWritePage := ⟨key,buffer.pages.length,true,page⟩
    update (push new)
    write (writePageInternal new)
    whenever (buffer.pageCnt < buffer.pages.length + 1) (writeHeader (buffer.pages.length + 1))
    whenever (buffer.maxPages.toInt ≤ buffer.pages.length + 1) (flushPage order)

def clearOne (page : DoubleWritePage) : DeviceM := do
  write (.page page.key page.page.bytes)
  invalidate page

/-- The pages are taken out of the map before they are written, and all of them are deleted: the loop breaks at the
first failure, and its code is dropped. -/
def clearPages (bufferPoolId : Int32) : DeviceM := do
  let pages ← read fun s => s.buffer.pages
  each (fun page => touch page.key) pages
  update fun s => { s with buffer := { s.buffer with pages := pages.filter fun page => page.key.bufferPoolId ≠ bufferPoolId } }
  ignore Ending.isCode (each clearOne ((pages.filter fun page => page.key.bufferPoolId = bufferPoolId).mergeSort
    fun a b => a.key.pageNum.toInt ≤ b.key.pageNum.toInt))

def readPage (key : DoubleWritePageKey) : DeviceM := do
  let found ← read fun s => s.buffer.find key
  match found with
  | some _ => touch key
  | none => exit (.rc .bufferpoolInvalidPageNum)

end Device

inductive DblwrCall where
  | addPage (key : DoubleWritePageKey) (page : Page)
  | flushPage
  | clearPages (bufferPoolId : Int32)
  | readPage (key : DoubleWritePageKey)

namespace DblwrCall

def apply (order : Order) : DblwrCall → DeviceM
  | addPage key page => Device.addPage order key page
  | flushPage => Device.flushPage order
  | clearPages bufferPoolId => Device.clearPages bufferPoolId
  | readPage key => Device.readPage key

end DblwrCall

/-! What a failed call should leave. -/
namespace Device

/-- Every page version of the buffer is still there, and not freed, or is in its data file. -/
def Kept (before after : Device) : Prop := ∀ page ∈ before.buffer.pages,
  (∃ other ∈ after.buffer.pages, other.key = page.key ∧ other.page = page.page ∧ other.key ∉ after.freed) ∨
    after.disk.data page.key = page.page.bytes

def after (run : List (Order × DblwrCall)) (s : Device) : Device := run.foldl (fun s step => (step.2.apply step.1 s).2) s

/-- No later call touches a freed page, however many calls whose disk writes succeed come before it. -/
def Usable (s : Device) : Prop := ∀ run order call, (DblwrCall.apply order call (after run { s with faults := [] })).1 ≠ .error .freed

structure Survives (order : Order) (call : DblwrCall) (s : Device) : Prop where
  error : ∃ code, code ≠ .success ∧ (call.apply order s).1 = .error (.rc code)
  kept : Kept s (call.apply order s).2
  usable : Usable (call.apply order s).2

def FirstFails (n : Nat) (s : Device) : Prop := (s.faults.getD n none).isSome = true ∧ ∀ i < n, s.faults.getD i none = none

def WritesFirst (order : Order) (pages : List DoubleWritePage) : Prop := ∃ page, (order.1 pages).head? = some page ∧ page.valid = true

def leadWrites (s : Device) : Nat := if s.buffer.pageCnt < s.buffer.pages.length + 1 then 2 else 1

/-- The call fails before it has deleted a page: with the first write of `flush_page`, which is one of a page, or earlier.
`add_page` must not replace a version that the data file does not have. -/
def FailsInTime (order : Order) (s : Device) : DblwrCall → Prop
  | .addPage key page => match s.buffer.find key with
    | some old => old.page = page ∨ s.disk.data key = old.page.bytes
    | none => ∃ n, s.FirstFails n ∧ (n < s.leadWrites ∨
      n = s.leadWrites ∧ WritesFirst order (s.buffer.pages ++ [⟨key,s.buffer.pages.length,true,page⟩]))
  | .flushPage => s.FirstFails 0 ∧ WritesFirst order s.buffer.pages
  | .clearPages _ => False
  | .readPage _ => False

/-! ### Single writes -/

section
variable {s : Device} {w : Write}

variable {fault : WriteFault}

theorem writeFails (next : s.faults.headD none = some fault) :
    write w s = (.error (.rc fault.rc),{ s with disk := s.disk.put fault.bytes w, faults := s.faults.tail, failed := true }) := by
  rw [write,next]

theorem writeSucceeds (next : s.faults.headD none = none) :
    write w s = (.ok (),{ s with disk := s.disk.write w, faults := s.faults.tail }) := by
  rw [write,next]

theorem touchLive {key} (live : key ∉ s.freed) : touch key s = (.ok (),s) := if_neg live

theorem touchAll (unfreed : s.freed = []) (pages : List DoubleWritePage) : each (fun page => touch page.key) pages s = (.ok (),s) := by
  induction pages with
  | nil => rfl
  | cons page rest ih => exact (bindOk (touchLive (by simp [unfreed]))).trans ih

theorem invalidateEnds (page : DoubleWritePage) (s : Device) :
    ∃ t, invalidate page s = (.ok (),t) ∧ t.buffer = s.buffer ∧ t.freed = s.freed := by
  unfold invalidate
  cases next : s.faults.headD none with
  | none => exact ⟨_,ignoreOk (writeSucceeds next),rfl,rfl⟩
  | some fault =>
    rw [ignore,writeFails next]
    exact ⟨_,rfl,rfl,rfl⟩

theorem writePagePasses {page} (passes : page.valid = true → s.faults.headD none = none) :
    ∃ t, writePage page s = (.ok (),t) ∧ t.buffer = s.buffer ∧ t.freed = s.freed := by
  unfold writePage whenever
  split
  · rename_i valid
    exact ⟨_,writeSucceeds (passes valid),rfl,rfl⟩
  · exact ⟨s,rfl,rfl,rfl⟩

theorem flushOnePasses (page : DoubleWritePage) (live : page.key ∉ s.freed)
    (passes : page.valid = true → s.faults.headD none = none) :
    ∃ t, flushOne page s = (.ok (),t) ∧ t.buffer = s.buffer ∧ page.key ∈ t.freed := by
  obtain ⟨t,written,sameBuffer,_⟩ := writePagePasses passes
  obtain ⟨u,slot,sameAgain,_⟩ := invalidateEnds page t
  unfold flushOne
  rw [bindOk (touchLive live),bindOk written,bindOk slot]
  exact ⟨_,rfl,sameAgain.trans sameBuffer,mem_cons_self⟩

theorem flushOneFails (page : DoubleWritePage) (live : page.key ∉ s.freed) (valid : page.valid = true)
    (next : s.faults.headD none = some fault) :
    ∃ t, flushOne page s = (.error (.rc fault.rc),t) ∧ t.buffer = s.buffer ∧ t.freed = s.freed := by
  have failed : writePage page s = write (.page page.key page.page.bytes) s := by rw [writePage,whenever,if_pos valid]
  rw [writeFails next] at failed
  unfold flushOne
  rw [bindOk (touchLive live),bindError failed]
  exact ⟨_,rfl,rfl,rfl⟩

end

/-! ### `flush_page` -/

section
variable {s : Device} {order : Order}

theorem keepsWrite {R} (w : Write) (any : ∀ s disk faults failed, R s →
    R { s with disk := disk, faults := faults, failed := failed }) : Keeps R (write w) := by
  intro s start
  unfold write
  split
  · exact any s _ _ _ start
  · exact any s _ _ s.failed start

theorem keepsDangling {page} (rest : List DoubleWritePage) :
    Keeps (fun s => page ∈ s.buffer.pages ∧ page.key ∈ s.freed) (each flushOne rest) := by
  refine keepsEach fun other _ => ?_
  have writes : ∀ w, Keeps (fun s => page ∈ s.buffer.pages ∧ page.key ∈ s.freed) (write w) := fun w =>
    keepsWrite w fun _ _ _ _ start => start
  refine keepsBind (fun s start => ?_) fun _ => keepsBind ?_ fun _ => keepsBind (keepsIgnore (writes _)) fun _ => ?_
  · unfold touch
    split
    · exact start
    · exact start
  · exact keepsIte (fun _ => writes _) fun _ => keepsPure
  · exact keepsUpdate fun s start => ⟨start.1,mem_cons_of_mem _ start.2⟩

theorem flushDangles (live : s.freed = []) (passes : ∀ page, (order.1 s.buffer.pages).head? = some page → page.valid = true →
    s.faults.headD none = none) :
    (flushPage order s).1 = .ok () ∨
      ∃ page ∈ (flushPage order s).2.buffer.pages, page.key ∈ (flushPage order s).2.freed := by
  have unfolded : flushPage order s = (each flushOne (order.1 s.buffer.pages) >>= fun _ =>
      update fun s => { s with buffer := { s.buffer with pageCnt := 0, pages := [] }, freed := [] }) s := rfl
  rw [unfolded]
  cases walk : order.1 s.buffer.pages with
  | nil => exact .inl rfl
  | cons page rest =>
    have inside : page ∈ s.buffer.pages := (order.2 _).mem_iff.mp (walk ▸ mem_cons_self)
    obtain ⟨t,first,same,gone⟩ := flushOnePasses (s := s) page (by simp [live]) (passes page (by rw [walk]; rfl))
    have kept := keepsDangling rest t ⟨same ▸ inside,gone⟩
    have loop : each flushOne (page :: rest) s = each flushOne rest t := bindOk first
    rcases ran : each flushOne rest t with ⟨_ | _,u⟩
    · rw [bindError (loop.trans ran)]
      rw [ran] at kept
      exact .inr ⟨page,kept⟩
    · rw [bindOk (loop.trans ran)]
      exact .inl rfl

theorem flushFailsFirst (live : s.freed = []) {fault} (next : s.faults.headD none = some fault)
    (first : WritesFirst order s.buffer.pages) :
    ∃ t, flushPage order s = (.error (.rc fault.rc),t) ∧ t.buffer = s.buffer ∧ t.freed = s.freed := by
  obtain ⟨page,head,valid⟩ := first
  obtain ⟨rest,walk⟩ : ∃ rest, order.1 s.buffer.pages = page :: rest := head?_eq_some_iff.mp head
  obtain ⟨t,failed,same⟩ := flushOneFails (s := s) page (by simp [live]) valid next
  refine ⟨t,?_,same⟩
  have unfolded : flushPage order s = (each flushOne (order.1 s.buffer.pages) >>= fun _ =>
      update fun s => { s with buffer := { s.buffer with pageCnt := 0, pages := [] }, freed := [] }) s := rfl
  have loop : each flushOne (page :: rest) s = (.error (.rc fault.rc),t) := bindError failed
  rw [unfolded,walk,bindError loop]

end

/-! ### No disk write fails -/

def live (buffer : DiskDoubleWriteBuffer) (disk : Disk) (failed : Bool) : Device := ⟨buffer,[],disk,[],failed⟩

section
variable {buffer : DiskDoubleWriteBuffer} {disk : Disk} {failed : Bool} {freed : List DoubleWritePageKey}

variable {page old : DoubleWritePage} {key : DoubleWritePageKey} {s : Device}

theorem flushOneNone (alive : page.key ∉ freed) :
    flushOne page ⟨buffer,freed,disk,[],failed⟩ = (.ok (),⟨buffer,page.key :: freed,disk.writeAll
      (DiskDoubleWriteBuffer.writePage page ++ [DiskDoubleWriteBuffer.writePageInternal page.invalidated]),[],failed⟩) := by
  unfold flushOne
  rw [bindOk (touchLive alive)]
  cases valid : page.valid with
  | true =>
    have written : writePage page ⟨buffer,freed,disk,[],failed⟩ =
        (.ok (),⟨buffer,freed,disk.write (.page page.key page.page.bytes),[],failed⟩) := by
      rw [writePage,whenever,if_pos valid]
      rfl
    rw [bindOk written,DiskDoubleWriteBuffer.writePage,if_pos valid]
    rfl
  | false =>
    have skipped : writePage page ⟨buffer,freed,disk,[],failed⟩ = (.ok (),⟨buffer,freed,disk,[],failed⟩) := by
      rw [writePage,whenever,if_neg (by simp [valid])]
      rfl
    rw [bindOk skipped,DiskDoubleWriteBuffer.writePage,if_neg (by simp [valid])]
    rfl

theorem writeAllAppend (first second : List Write) : (disk.writeAll first).writeAll second = disk.writeAll (first ++ second) :=
  foldl_append.symm

theorem flushEachNone {pages} (distinct : Distinct pages)
    (alive : ∀ page ∈ pages, page.key ∉ freed) : each flushOne pages ⟨buffer,freed,disk,[],failed⟩ =
      (.ok (),⟨buffer,(pages.map DoubleWritePage.key).reverse ++ freed,disk.writeAll (pages.flatMap fun page =>
        DiskDoubleWriteBuffer.writePage page ++ [DiskDoubleWriteBuffer.writePageInternal page.invalidated]),[],failed⟩) := by
  induction pages generalizing freed disk with
  | nil => rfl
  | cons page rest ih =>
    obtain ⟨here,later⟩ := forall_mem_cons.mp alive
    obtain ⟨fresh,distinct⟩ := nodup_cons.mp distinct
    have others : ∀ other ∈ rest, other.key ∉ page.key :: freed := by
      intro other inside
      have different : other.key ≠ page.key := fun same => fresh (same ▸ mem_map_of_mem inside)
      simp [different,later other inside]
    have loop : each flushOne (page :: rest) ⟨buffer,freed,disk,[],failed⟩ = _ := bindOk (flushOneNone here)
    rw [loop,ih distinct others,writeAllAppend,flatMap_cons,map_cons,reverse_cons]
    simp only [append_assoc,singleton_append]

theorem flushNone (order : Order) (distinct : Distinct buffer.pages) :
    flushPage order (live buffer disk failed) =
      (.ok (),live (buffer.flushPage order).2 (disk.writeAll (buffer.flushPage order).1) failed) := by
  have walked : ((order.1 buffer.pages).map DoubleWritePage.key).Nodup := ((order.2 buffer.pages).map _).nodup_iff.mpr distinct
  have unfolded : flushPage order (live buffer disk failed) = (each flushOne (order.1 buffer.pages) >>= fun _ =>
      update fun s => { s with buffer := { s.buffer with pageCnt := 0, pages := [] }, freed := [] }) (live buffer disk failed) := rfl
  rw [unfolded,live,bindOk (flushEachNone walked (by simp))]
  rfl

theorem addFound (order : Order) (page : Page)
    (found : s.buffer.find key = some old) : addPage order key page s = (touch key >>= fun _ =>
      update (replace { old with page := page }) >>= fun _ =>
      write (writePageInternal { old with page := page })) s := by
  unfold addPage
  rw [bindOk (readApply _ s),found]

theorem addFresh (order : Order) (page : Page) (absent : s.buffer.find key = none) : addPage order key page s =
      (write (writePageInternal ⟨key,s.buffer.pages.length,true,page⟩) >>= fun _ =>
        whenever (s.buffer.pageCnt < s.buffer.pages.length + 1) (writeHeader (s.buffer.pages.length + 1)) >>= fun _ =>
        whenever (s.buffer.maxPages.toInt ≤ s.buffer.pages.length + 1) (flushPage order))
      (s.push ⟨key,s.buffer.pages.length,true,page⟩) := by
  unfold addPage
  rw [bindOk (readApply _ s),absent]
  rfl

theorem addNone (order : Order) (key : DoubleWritePageKey) (page : Page) (distinct : Distinct buffer.pages) :
    addPage order key page (live buffer disk failed) =
      (.ok (),live (buffer.addPage order key page).2 (disk.writeAll (buffer.addPage order key page).1) failed) := by
  cases found : buffer.find key with
  | some old =>
    have same := (findSome found).2
    rw [addFound (s := live buffer disk failed) order page found,bindOk (touchLive (by simp [live])),DiskDoubleWriteBuffer.addPage,found]
    subst same
    rfl
  | none =>
    rw [addFresh (s := live buffer disk failed) order page found]
    let new : DoubleWritePage := ⟨key,buffer.pages.length,true,page⟩
    let pushed : DiskDoubleWriteBuffer := { buffer with pages := buffer.pages ++ [new] }
    let added : DiskDoubleWriteBuffer := { pushed with pageCnt := max buffer.pageCnt (buffer.pages.length + 1) }
    let lead := writePageInternal new ::
      if buffer.pageCnt < buffer.pages.length + 1 then [.header (headerBytes (buffer.pages.length + 1))] else []
    have slot : write (writePageInternal new) (push new (live buffer disk failed)) =
      (.ok (),live pushed (disk.write (writePageInternal new)) failed) := rfl
    have header : whenever (buffer.pageCnt < buffer.pages.length + 1) (writeHeader (buffer.pages.length + 1))
        (live pushed (disk.write (writePageInternal new)) failed) =
        (.ok (),live added (disk.writeAll lead) failed) := by
      unfold whenever
      split
      · rename_i less
        simp only [added,lead,if_pos less,Nat.max_eq_right less.le]
        rfl
      · rename_i notLess
        simp only [added,lead,if_neg notLess,Nat.max_eq_left (Nat.not_lt.mp notLess)]
        rfl
    have count : ((added.pages.length : Nat) : Int) = buffer.pages.length + 1 := by simp [added,pushed]
    have unique : Distinct added.pages := freshDistinct found distinct new rfl
    have result : buffer.addPage order key page = if buffer.maxPages.toInt ≤ added.pages.length then
        (lead ++ (added.flushPage order).1,(added.flushPage order).2) else (lead,added) := by
      rw [DiskDoubleWriteBuffer.addPage,found]
    refine (bindOk slot).trans ((bindOk header).trans ?_)
    rw [result,count]
    by_cases full : buffer.maxPages.toInt ≤ (buffer.pages.length : Int) + 1
    · rw [if_pos full,← writeAllAppend]
      exact (congrFun (if_pos full : whenever _ (flushPage order) = _) _).trans (flushNone order unique)
    · rw [if_neg full]
      exact congrFun (if_neg full : whenever _ (flushPage order) = pure ()) _

theorem clearNone (bufferPoolId : Int32) : clearPages bufferPoolId (live buffer disk failed) =
    (.ok (),live (buffer.clearPages bufferPoolId).2 (disk.writeAll (buffer.clearPages bufferPoolId).1) failed) := by
  have cleared : ∀ (pages : List DoubleWritePage) (buffer : DiskDoubleWriteBuffer) (disk : Disk),
      each clearOne pages (live buffer disk failed) = (.ok (),live buffer (disk.writeAll (pages.flatMap fun page =>
        [.page page.key page.page.bytes,writePageInternal page.invalidated])) failed) := by
    intro pages buffer
    induction pages with
    | nil => exact fun _ => rfl
    | cons page rest ih =>
      intro disk
      have one : clearOne page (live buffer disk failed) = (.ok (),live buffer (disk.writeAll
        [.page page.key page.page.bytes,writePageInternal page.invalidated]) failed) := rfl
      have loop : each clearOne (page :: rest) (live buffer disk failed) = _ := bindOk one
      rw [loop,ih,writeAllAppend,flatMap_cons]
  have ended := cleared ((buffer.pages.filter fun page => page.key.bufferPoolId = bufferPoolId).mergeSort
    fun a b => a.key.pageNum.toInt ≤ b.key.pageNum.toInt) (buffer.clearPages bufferPoolId).2 disk
  unfold clearPages
  rw [bindOk (readApply _ _),bindOk (touchAll rfl _),bindOk (updateApply _ _)]
  exact ignoreOk ended

theorem addDistinct (order : Order) (key : DoubleWritePageKey) (page : Page) (distinct : Distinct buffer.pages) :
    Distinct (buffer.addPage order key page).2.pages := by
  unfold DiskDoubleWriteBuffer.addPage
  cases found : buffer.find key with
  | some old => exact replacedDistinct (findSome found).2 page distinct
  | none =>
    dsimp only
    split
    · exact nodup_nil
    · exact freshDistinct found distinct _ rfl

theorem callNone (disk : Disk) (failed : Bool) (order : Order) (call : DblwrCall)
    (distinct : Distinct buffer.pages) :
    ∃ later disk', (call.apply order (live buffer disk failed)).2 = live later disk' failed ∧
      Distinct later.pages ∧ (call.apply order (live buffer disk failed)).1 ≠ .error .freed := by
  cases call with
  | addPage key page =>
    rw [DblwrCall.apply,addNone order key page distinct]
    exact ⟨_,_,rfl,addDistinct order key page distinct,nofun⟩
  | flushPage =>
    rw [DblwrCall.apply,flushNone order distinct]
    exact ⟨_,_,rfl,nodup_nil,nofun⟩
  | clearPages bufferPoolId =>
    rw [DblwrCall.apply,clearNone]
    exact ⟨_,_,rfl,distinct.sublist (filter_sublist.map _),nofun⟩
  | readPage key =>
    have same : (readPage key (live buffer disk failed)).2 = live buffer disk failed ∧
        (readPage key (live buffer disk failed)).1 ≠ .error .freed := by
      unfold readPage
      rw [bindOk (readApply _ _)]
      cases (live buffer disk failed).buffer.find key with
      | some page =>
        dsimp only
        rw [touchLive (by simp [live])]
        exact ⟨rfl,nofun⟩
      | none => exact ⟨rfl,nofun⟩
    exact ⟨buffer,disk,same.1,distinct,same.2⟩

theorem runNone (run : List (Order × DblwrCall)) (disk : Disk) (failed : Bool) (distinct : Distinct buffer.pages) :
    ∃ later disk', after run (live buffer disk failed) = live later disk' failed ∧ Distinct later.pages := by
  induction run generalizing buffer disk with
  | nil => exact ⟨buffer,disk,rfl,distinct⟩
  | cons step rest ih =>
    obtain ⟨next,disk',ran,unique,_⟩ := callNone disk failed step.1 step.2 distinct
    obtain ⟨later,last,same,uniqueLater⟩ := ih disk' unique
    refine ⟨later,last,?_,uniqueLater⟩
    rw [after,foldl_cons,ran]
    exact same

theorem usableOf (unfreed : s.freed = []) (distinct : Distinct s.buffer.pages) : s.Usable := by
  have start : ({ s with faults := [] } : Device) = live s.buffer s.disk s.failed := by rw [live,← unfreed]
  intro run order call
  obtain ⟨later,disk,same,unique⟩ := runNone run s.disk s.failed distinct
  obtain ⟨_,_,_,_,fine⟩ := callNone disk s.failed order call unique
  rw [start,same]
  exact fine

theorem notUsable (inside : page ∈ s.buffer.pages) (gone : page.key ∈ s.freed) : ¬s.Usable := by
  intro usable
  have touched : ∀ pages, page ∈ pages → each (fun page => touch page.key) pages { s with faults := [] } =
      (.error .freed,{ s with faults := [] }) := by
    intro pages inside
    induction pages with
    | nil => cases inside
    | cons first rest ih =>
      by_cases here : first.key ∈ s.freed
      · exact bindError (if_pos here)
      · refine (bindOk (if_neg here : touch first.key { s with faults := [] } = _)).trans (ih ?_)
        rcases mem_cons.mp inside with rfl | later
        · exact absurd gone here
        · exact later
  refine usable [] ⟨id,fun _ => .refl _⟩ (.clearPages 0) ?_
  have ended : clearPages 0 { s with faults := [] } = (.error .freed,{ s with faults := [] }) := by
    unfold clearPages
    rw [bindOk (readApply _ _),bindError (touched _ inside)]
  exact congrArg Prod.fst ended

end

/-! ### Which failures a call survives -/

section
variable {s t : Device} {order : Order} {call : DblwrCall}

variable {fault : WriteFault} {key : DoubleWritePageKey} {old : DoubleWritePage}

theorem survivesWhole (ran : call.apply order s = (.error (.rc fault.rc),t)) (unfreed : t.freed = [])
    (inside : ∀ page ∈ s.buffer.pages, page ∈ t.buffer.pages) (distinct : Distinct t.buffer.pages) :
    s.Survives order call := by
  refine ⟨⟨fault.rc,fault.failed,by rw [ran]⟩,?_,?_⟩
  · intro page member
    rw [ran]
    exact .inl ⟨page,inside page member,rfl,rfl,by simp [unfreed]⟩
  · rw [ran]
    exact usableOf unfreed distinct

theorem flushLoses (ran : call.apply order s = flushPage order t) (unfreed : t.freed = [])
    (passes : ∀ page, (order.1 t.buffer.pages).head? = some page → page.valid = true → t.faults.headD none = none) :
    ¬s.Survives order call := by
  intro survives
  rcases flushDangles unfreed passes with done | ⟨page,inside,gone⟩
  · obtain ⟨code,_,failed⟩ := survives.error
    rw [ran,done] at failed
    cases failed
  · exact notUsable (ran ▸ inside) (ran ▸ gone) survives.usable

theorem flushSurvivesIff (ran : call.apply order s = flushPage order t) (unfreed : t.freed = [])
    (inside : ∀ page ∈ s.buffer.pages, page ∈ t.buffer.pages) (distinct : Distinct t.buffer.pages) :
    s.Survives order call ↔ (t.faults.headD none).isSome = true ∧ WritesFirst order t.buffer.pages := by
  constructor
  · intro survives
    by_contra late
    refine flushLoses ran unfreed (fun page head valid => ?_) survives
    by_contra some
    exact late ⟨Option.isSome_iff_ne_none.mpr some,page,head,valid⟩
  · rintro ⟨fails,first⟩
    obtain ⟨fault,next⟩ := Option.isSome_iff_exists.mp fails
    obtain ⟨u,ended,same,free⟩ := flushFailsFirst unfreed next first
    exact survivesWhole (ran.trans ended) (free.trans unfreed) (same ▸ inside) (same ▸ distinct)

theorem headGetD (faults : List (Option WriteFault)) : faults.headD none = faults.getD 0 none := by
  cases faults with
  | nil => rfl
  | cons fault rest => rfl

theorem flushSurvives (unfreed : s.freed = []) (distinct : Distinct s.buffer.pages) :
    s.Survives order .flushPage ↔ FailsInTime order s .flushPage := by
  rw [flushSurvivesIff rfl unfreed (fun _ inside => inside) distinct,headGetD]
  exact ⟨fun both => ⟨⟨both.1,nofun⟩,both.2⟩,fun both => ⟨both.1.1,both.2⟩⟩

theorem clearSucceeds (unfreed : s.freed = []) (bufferPoolId : Int32) : (clearPages bufferPoolId s).1 = .ok () := by
  have codes : ∀ (pages : List DoubleWritePage) (t : Device), (each clearOne pages t).1 ≠ .error .freed := by
    intro pages
    induction pages with
    | nil => nofun
    | cons page rest ih =>
      intro t
      cases next : t.faults.headD none with
      | some fault =>
        have stops : each clearOne (page :: rest) t = _ := bindError (bindError (writeFails next))
        rw [stops]
        nofun
      | none =>
        obtain ⟨u,slot,_⟩ := invalidateEnds page
          { t with disk := t.disk.write (.page page.key page.page.bytes), faults := t.faults.tail }
        have goes : each clearOne (page :: rest) t = _ := bindOk ((bindOk (writeSucceeds next)).trans slot)
        rw [goes]
        exact ih u
  unfold clearPages
  rw [bindOk (readApply _ _),bindOk (touchAll unfreed _),bindOk (updateApply _ _)]
  have ended := codes ((s.buffer.pages.filter fun page => page.key.bufferPoolId = bufferPoolId).mergeSort
    fun a b => a.key.pageNum.toInt ≤ b.key.pageNum.toInt) { s with buffer := { s.buffer with
      pages := s.buffer.pages.filter fun page => page.key.bufferPoolId ≠ bufferPoolId } }
  unfold ignore
  split
  · rfl
  · rename_i e t ran
    rw [ran] at ended
    cases e with
    | rc code => rfl
    | freed => exact absurd rfl ended

theorem clearSurvives (unfreed : s.freed = []) (bufferPoolId : Int32) :
    s.Survives order (.clearPages bufferPoolId) ↔ FailsInTime order s (.clearPages bufferPoolId) := by
  refine ⟨fun survives => ?_,nofun⟩
  obtain ⟨code,_,failed⟩ := survives.error
  rw [DblwrCall.apply,clearSucceeds unfreed] at failed
  cases failed

theorem replaceFails (page : Page) (unfreed : s.freed = [])
    (found : s.buffer.find key = some old) (next : s.faults.headD none = some fault) :
    addPage order key page s = (.error (.rc fault.rc),{ s.replace { old with page := page } with
      disk := s.disk.put fault.bytes (writePageInternal { old with page := page })
      faults := s.faults.tail
      failed := true }) := by
  rw [addFound order page found,bindOk (touchLive (by simp [unfreed])),bindOk (updateApply _ _)]
  exact writeFails next

theorem replaceSurvives (page : Page) (unfreed : s.freed = [])
    (distinct : Distinct s.buffer.pages) (found : s.buffer.find key = some old)
    (next : s.faults.headD none = some fault) :
    s.Survives order (.addPage key page) ↔ old.page = page ∨ s.disk.data key = old.page.bytes := by
  obtain ⟨member,same⟩ := findSome found
  have ran : DblwrCall.apply order (.addPage key page) s = _ := replaceFails page unfreed found next
  constructor
  · intro survives
    have kept := survives.kept old member
    rw [ran] at kept
    rcases kept with ⟨other,inside,sameKey,version,_⟩ | stored
    · -- the entry of the key is the new one
      obtain ⟨before,_,image⟩ := mem_map.mp inside
      split at image
      · subst image
        exact .inl version.symm
      · rename_i different
        subst image
        exact absurd sameKey different
    · exact .inr (same ▸ stored)
  · intro safe
    refine ⟨⟨fault.rc,fault.failed,by rw [ran]⟩,?_,?_⟩
    · rw [ran]
      intro other inside
      by_cases here : other.key = old.key
      · obtain rfl : other = old := inj_on_of_nodup_map distinct inside member here
        rcases safe with version | stored
        · refine .inl ⟨_,mem_map_of_mem inside,?_,?_,by simp [replace,unfreed]⟩
          · rw [if_pos rfl]
          · rw [if_pos rfl]
            exact version.symm
        · exact .inr (same ▸ stored)
      · refine .inl ⟨_,mem_map_of_mem inside,?_,?_,by simp [replace,unfreed]⟩
        · rw [if_neg here]
        · rw [if_neg here]
    · rw [ran]
      refine usableOf unfreed ?_
      exact replacedDistinct rfl page distinct

theorem fullSurvives {page new} [Decidable full]
    (ran : DblwrCall.apply order (.addPage key page) s = whenever full (flushPage order) t) (unfreed : t.freed = [])
    (pages : t.buffer.pages = s.buffer.pages ++ [new]) (distinct : Distinct t.buffer.pages)
    (unfailed : t.failed = false) (fails : (DblwrCall.apply order (.addPage key page) s).2.failed = true)
    (faults : t.faults = s.faults.drop lead) (succeeded : ∀ i < lead, s.faults.getD i none = none) :
    s.Survives order (.addPage key page) ↔
      ∃ n, s.FirstFails n ∧ (n < lead ∨ n = lead ∧ WritesFirst order (s.buffer.pages ++ [new])) := by
  have flushes : full := by
    by_contra notFull
    rw [ran,whenever,if_neg notFull,pureApply,unfailed] at fails
    cases fails
  rw [whenever,if_pos flushes] at ran
  have next : t.faults.headD none = s.faults.getD lead none := by
    rw [headGetD,faults,getD_eq_getElem?_getD,getD_eq_getElem?_getD,getElem?_drop,Nat.add_zero]
  have inside : ∀ page ∈ s.buffer.pages, page ∈ t.buffer.pages := fun page member => pages ▸ mem_append_left _ member
  rw [flushSurvivesIff ran unfreed inside distinct,next,pages]
  constructor
  · intro both
    exact ⟨lead,⟨both.1,succeeded⟩,.inr ⟨rfl,both.2⟩⟩
  · rintro ⟨n,⟨failed,_⟩,early | ⟨rfl,first⟩⟩
    · rw [succeeded n early] at failed
      cases failed
    · exact ⟨failed,first⟩

theorem pushSurvives (page : Page) (unfreed : s.freed = [])
    (distinct : Distinct s.buffer.pages) (absent : s.buffer.find key = none) (unfailed : s.failed = false)
    (fails : (DblwrCall.apply order (.addPage key page) s).2.failed = true) :
    s.Survives order (.addPage key page) ↔ ∃ n, s.FirstFails n ∧ (n < s.leadWrites ∨
      n = s.leadWrites ∧ WritesFirst order (s.buffer.pages ++ [⟨key,s.buffer.pages.length,true,page⟩])) := by
  let new : DoubleWritePage := ⟨key,s.buffer.pages.length,true,page⟩
  have unique := freshDistinct absent distinct new rfl
  have inside : ∀ page ∈ s.buffer.pages, page ∈ s.buffer.pages ++ [new] := fun page member => mem_append_left _ member
  have start : DblwrCall.apply order (.addPage key page) s = _ := addFresh order page absent
  have first := headGetD s.faults
  cases slot : s.faults.headD none with
  | some fault =>
    have ran := start.trans (bindError (writeFails (s := s.push new) slot))
    refine iff_of_true (survivesWhole ran unfreed inside unique) ⟨0,⟨?_,nofun⟩,.inl ?_⟩
    · rw [← first,slot]
      rfl
    · unfold leadWrites
      split <;> decide
  | none =>
    have slotRan := start.trans (bindOk (writeSucceeds (s := s.push new) slot))
    rw [slot] at first
    by_cases grows : s.buffer.pageCnt < s.buffer.pages.length + 1
    · have second : s.faults.tail.headD none = s.faults.getD 1 none := by
        cases s.faults with
        | nil => rfl
        | cons _ rest => exact headGetD rest
      have header : ∀ u : Device, whenever (s.buffer.pageCnt < s.buffer.pages.length + 1) (writeHeader (s.buffer.pages.length + 1)) u =
          write (.header (headerBytes (s.buffer.pages.length + 1)))
            { u with buffer := { u.buffer with pageCnt := s.buffer.pages.length + 1 } } := by
        intro u
        rw [whenever,if_pos grows,writeHeader,bindOk (updateApply _ _)]
      rw [leadWrites,if_pos grows]
      cases next : s.faults.tail.headD none with
      | some fault =>
        have ran := slotRan.trans (bindError ((header _).trans (writeFails next)))
        refine iff_of_true (survivesWhole ran unfreed inside unique) ⟨1,⟨?_,fun i less => ?_⟩,.inl (by decide)⟩
        · rw [← second,next]
          rfl
        · rw [Nat.lt_one_iff.mp less]
          exact first.symm
      | none =>
        have ran := slotRan.trans (bindOk ((header _).trans (writeSucceeds next)))
        have dropped : s.faults.tail.tail = s.faults.drop 2 := by
          rw [← drop_one,← drop_one,drop_drop]
        refine fullSurvives ran unfreed rfl unique unfailed fails dropped fun i less => ?_
        rcases (by omega : i = 0 ∨ i = 1) with rfl | rfl
        · exact first.symm
        · exact second.symm.trans next
    · rw [leadWrites,if_neg grows]
      have ran := slotRan.trans (bindOk (congrFun (if_neg grows : whenever _ (writeHeader _) = pure ()) _))
      refine fullSurvives ran unfreed rfl unique unfailed fails (drop_one).symm fun i less => ?_
      rw [Nat.lt_one_iff.mp less]
      exact first.symm

end

theorem survivesIff {s : Device} (order : Order) (call : DblwrCall) (unfreed : s.freed = [])
    (distinct : Distinct s.buffer.pages) (unfailed : s.failed = false)
    (fails : (call.apply order s).2.failed = true) : s.Survives order call ↔ FailsInTime order s call := by
  cases call with
  | addPage key page =>
    cases found : s.buffer.find key with
    | none =>
      rw [FailsInTime,found]
      exact pushSurvives page unfreed distinct found unfailed fails
    | some old =>
      rw [FailsInTime,found]
      cases next : s.faults.headD none with
      | some fault => exact replaceSurvives page unfreed distinct found next
      | none =>
        have ran : DblwrCall.apply order (.addPage key page) s = _ := addFound order page found
        have written := writeSucceeds (s := s.replace { old with page := page })
          (w := writePageInternal { old with page := page }) next
        rw [ran,bindOk (touchLive (by simp [unfreed])),bindOk (updateApply _ _),written] at fails
        cases unfailed.symm.trans fails
  | flushPage => exact flushSurvives unfreed distinct
  | clearPages bufferPoolId => exact clearSurvives unfreed bufferPoolId
  | readPage key =>
    have quiet : (DblwrCall.apply order (.readPage key) s).2 = s := by
      rw [DblwrCall.apply,readPage,bindOk (readApply _ _)]
      cases s.buffer.find key with
      | some page =>
        dsimp only
        rw [touchLive (by simp [unfreed])]
      | none => rfl
    rw [quiet,unfailed] at fails
    cases fails

theorem blankSize : (List.replicate bpPageDataSize (0 : UInt8)).length = bpPageDataSize := length_replicate

def blank : Page := ⟨0,0,List.replicate bpPageDataSize 0,blankSize⟩

def buffered (pages : List DoubleWritePage) (faults : List (Option WriteFault)) : Device where
  buffer := ⟨16,pages.length,pages⟩
  freed := []
  disk := ⟨[],fun _ => [],fun _ => []⟩
  faults := faults
  failed := false

def firstPage : DoubleWritePage := ⟨⟨1,1⟩,0,true,blank⟩

def secondPage : DoubleWritePage := ⟨⟨1,2⟩,1,true,blank⟩

theorem listedPerm (pages : List DoubleWritePage) : (id pages).Perm pages := .refl _

def asListed : Order := ⟨id,listedPerm⟩

theorem ioerrFails : RC.ioerrWrite ≠ .success := by decide

def diskFull : WriteFault := ⟨.ioerrWrite,0,ioerrFails⟩

theorem firstWriteSurvived :
    (DblwrCall.flushPage.apply asListed (buffered [firstPage,secondPage] [some diskFull])).2.failed = true ∧
      (buffered [firstPage,secondPage] [some diskFull]).Survives asListed .flushPage :=
  ⟨rfl,(survivesIff asListed .flushPage rfl (by decide) rfl rfl).mpr ⟨⟨rfl,nofun⟩,_,rfl,rfl⟩⟩

/-- The second page cannot be written when the first one is deleted, and whoever reads the first page touches it; a slot
cannot be written and the flush succeeds; a page cannot be written, `clear_pages` succeeds and the page is lost. -/
theorem pagesLost :
    (flushPage asListed (buffered [firstPage,secondPage] [none,none,some diskFull])).1 = .error (.rc .ioerrWrite) ∧
    (readPage ⟨1,1⟩ (flushPage asListed (buffered [firstPage,secondPage] [none,none,some diskFull])).2).1 = .error .freed ∧
    ¬(buffered [firstPage,secondPage] [none,none,some diskFull]).Survives asListed .flushPage ∧
    (flushPage asListed (buffered [firstPage] [none,some diskFull])).1 = .ok () ∧
    (clearPages 1 (buffered [firstPage] [some diskFull])).1 = .ok () ∧
    ¬Kept (buffered [firstPage] [some diskFull]) (clearPages 1 (buffered [firstPage] [some diskFull])).2 := by
  refine ⟨rfl,rfl,fun survives => ?_,rfl,clearSucceeds rfl 1,fun kept => ?_⟩
  · exact survives.usable [] asListed (.readPage ⟨1,1⟩) rfl
  · have alone : [firstPage].mergeSort (fun a b => a.key.pageNum.toInt ≤ b.key.pageNum.toInt) = [firstPage] := mergeSort_singleton _
    have cleared : clearPages 1 (buffered [firstPage] [some diskFull]) =
        (.ok (),⟨⟨16,1,[]⟩,[],(buffered [] []).disk.put 0 (.page ⟨1,1⟩ blank.bytes),[],true⟩) := by
      unfold clearPages
      rw [bindOk (readApply _ _),bindOk (touchAll rfl _),bindOk (updateApply _ _)]
      have listed : (buffered [firstPage] [some diskFull]).buffer.pages.filter (fun page => page.key.bufferPoolId = 1) = [firstPage] := rfl
      rw [listed,alone]
      rfl
    rw [cleared] at kept
    rcases kept firstPage mem_cons_self with ⟨other,inside,_⟩ | stored
    · exact absurd inside not_mem_nil
    · have length := congrArg List.length stored
      simp [Disk.put,torn,buffered,firstPage,Page.bytes,Bytes.lengthOfInt64] at length
      omega

end Device
end MiniOb.Buffer
