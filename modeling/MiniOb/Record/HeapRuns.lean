import MiniOb.Record.HeapRecordScanner

/-! Whole runs of inserts and deletes that succeed, with the file closed and opened again in between. -/
namespace MiniOb.Record
open Buffer Prog RecordPageHandler RecordFile Function List

structure HeapRun where
  file : RecordFile
  live : RID → Option Bytes

inductive HeapCall
  | insert (outcomes : Outcomes) (recordSize : Nat) (data : Bytes)
  | delete (fault : Option RC) (lsn : Option Int64) (rid : RID)
  | reopen (fetches : PageNum → Option RC)

namespace HeapRun

def succeeded {α : Type} : Except Exit α × RecordFile → Option (α × RecordFile)
  | (.ok value,file) => some (value,file)
  | (.error _,_) => none

theorem succeededSome {file}
    (done : succeeded result = some (value,file)) : result = (.ok value,file) := by
  obtain ⟨exit | other,mid⟩ := result
  · cases done
  · cases done
    rfl

def step (run : HeapRun) : HeapCall → Option HeapRun
  | .insert outcomes recordSize data => (succeeded (RecordFile.insertRecord outcomes recordSize data run.file)).map fun (rid,after) =>
      ⟨after,update run.live rid (some (after.stored rid data))⟩
  | .delete fault lsn rid => (succeeded (RecordFile.deleteRecord fault lsn rid run.file)).map fun (_,after) =>
      ⟨after,update run.live rid none⟩
  | .reopen fetches => (succeeded (RecordFile.reopen fetches run.file)).map fun (_,after) => ⟨after,run.live⟩

/-- A delete names a slot of a record page, and all pages can be fetched when the file is opened. -/
def Proper (run : HeapRun) : HeapCall → Prop
  | .insert _ _ _ => True
  | .delete _ _ rid => run.file.SlotOf rid
  | .reopen fetches => ∀ page, run.file.Allocated page → fetches page = none

structure Sound (run : HeapRun) : Prop where
  /-- A page with an empty slot is among the free pages. -/
  listed : ∀ page, HasRoom run.file page → page ∈ run.file.freePages
  /-- A page is added only when no page has an empty slot. -/
  grows : ∀ outcomes recordSize data rid after, RecordFile.insertRecord outcomes recordSize data run.file = (.ok rid,after) →
    (∃ page, after.Allocated page ∧ ¬run.file.Allocated page) → ∀ page, ¬HasRoom run.file page
  /-- A scan that can fetch the pages hands out the live records, each of them once and in order. -/
  scanned : ∀ fetches start, (∀ page, run.file.Allocated page → fetches page = none) →
    ∃ records, HeapRecordScanner.Scans (fun _ => true) fetches run.file (HeapRecordScanner.openScan start) records ∧
      (records.Pairwise fun a b => a.1 < b.1) ∧ ∀ rid bytes, (rid,bytes) ∈ records ↔ run.live rid = some bytes

structure InOrder (run : HeapRun) : Prop where
  heap : Heap run.file
  live : run.live = run.file.record

variable {run after : HeapRun}

theorem InOrder.sound (order : InOrder run) : Sound run := by
  refine ⟨order.heap.complete,fun _ _ _ _ _ ran => (insertedOk order.heap ran).grows,fun fetches start fetched => ?_⟩
  rw [order.live]
  exact HeapRecordScanner.scansRecords order.heap.toHeapPages fetched start

theorem InOrder.step (order : InOrder run) (taken : run.step call = some after) (proper : run.Proper call) : InOrder after := by
  cases call with
  | insert outcomes recordSize data =>
    obtain ⟨⟨rid,file⟩,ran,rfl⟩ := Option.map_eq_some_iff.mp taken
    have inserted := insertedOk order.heap (succeededSome ran)
    exact ⟨inserted.heap,by rw [order.live,inserted.record]⟩
  | delete fault lsn rid =>
    obtain ⟨⟨done,file⟩,ran,rfl⟩ := Option.map_eq_some_iff.mp taken
    obtain ⟨heap,_,record⟩ := deletedOk order.heap proper (succeededSome ran)
    exact ⟨heap,by rw [order.live,record]⟩
  | reopen fetches =>
    obtain ⟨⟨done,file⟩,ran,rfl⟩ := Option.map_eq_some_iff.mp taken
    obtain ⟨free,opened,heap⟩ := reopenOk order.heap.toHeapPages proper
    rw [opened] at ran
    cases ran
    exact ⟨heap,order.live⟩

theorem properSound {calls : List HeapCall} (start : InOrder run) (proper : Runs.Along step Proper calls run) :
    ∀ later ∈ Runs.reached step calls run, Sound later := by
  intro later inside
  have keeps : ∀ run call after, InOrder run → step run call = some after → Proper run call → InOrder after :=
    fun _ _ _ order taken proper => order.step taken proper
  exact (Runs.reachedAlong keeps start proper inside).sound

end HeapRun

/-! A new file. -/

theorem newNoRoom (page : PageNum) : page ≠ bpHeaderPage → ¬newFile.Allocated page := by
  rintro notHeader ⟨low,below,_⟩
  have zero : natOf page = 0 := Nat.lt_one_iff.mp below
  refine notHeader ?_
  rw [← ofNatNatOf low,zero]
  rfl

theorem newHeap : Heap newFile where
  header := newHeaderOk
  pages page notHeader there := absurd there (newNoRoom page notHeader)
  complete page room := absurd room.2.1 (newNoRoom page room.1)
  free _ member := absurd member not_mem_nil

def newRun : HeapRun := ⟨newFile,fun _ => none⟩

theorem newInOrder : HeapRun.InOrder newRun := by
  refine ⟨newHeap,funext fun rid => (if_neg fun both => ?_).symm⟩
  exact newNoRoom _ both.2.1 both.1

/-! One record, in a page with two slots. -/

variable {file after : RecordFile} {outcomes : Outcomes} {recordSize index : Nat} {data : Bytes} {content new : Content}
variable {rid : RID}

theorem RecordFile.insertPlaced {page} (chosen : choosePage outcomes recordSize file = (.ok (page,content),after))
    (made : RowRecordPageHandler.insertRecord outcomes.insertLog data content = .ok (index,new)) :
    insertRecord outcomes recordSize data file = (.ok ⟨page,Int32.ofNat index⟩,after.write page new) := by
  unfold insertRecord
  rw [bindOk chosen]
  dsimp only
  rw [made]
  rfl

theorem firstUnset (slots : capacity content = index + 1) (clear : slotBit content 0 = false) :
    (RecordPageHandler.bitmap content).nextUnsettedBit 0 = some 0 := by
  have size : (RecordPageHandler.bitmap content).size = index + 1 := slots
  rw [Bitmap.nextUnsettedBitFind,size]
  exact find?_cons_of_pos (congrArg not clear)

def half : Bytes := replicate 4000 7

theorem headerBlank : header blank = ⟨0,0,4000,4000,2,32,32⟩ := by
  rw [blank,header,dataSetLsn]
  exact headerEmptied

theorem blankOk : PageOk blank := by
  have ok : PageOk (emptied 4000 32 2 .zero) := (slotsEmptied (by decide) (by decide) (by decide)).1
  exact pageOkData (dataSetLsn _) ok

theorem blankRoom : ¬isFull blank := by
  unfold isFull
  rw [headerBlank]
  decide

theorem blankLaid : Laid blank := blankOk.laidRoom blankRoom

def filled : Content := placed 0 (some 3) half blank

theorem filledRoom : ¬isFull filled := by
  have same : (header filled).recordCapacity = (header blank).recordCapacity := (layoutPlaced blankLaid).capacity
  unfold isFull
  rw [same,filled,recordNumPlaced blankLaid,headerBlank]
  decide

theorem filledMade : RowRecordPageHandler.insertRecord (some 3) half blank = .ok (0,filled) := by
  have capacity : capacity blank = 2 := by
    rw [capacity,headerBlank]
    rfl
  have size : realSize blank = 4000 := by
    rw [realSize,headerBlank]
    rfl
  have clear : slotBit blank 0 = false := by
    have same : slotBit blank 0 = slotBit (emptied 4000 32 2 .zero) 0 := slotBitCongr (by rw [blank,dataSetLsn])
    exact same.trans (slotBitEmptied (by decide) (by decide))
  have found := firstUnset capacity clear
  rw [insertRecordPlaced blankLaid (by rw [headerBlank]; decide) found (by rw [capacity]; decide),if_pos]
  · rfl
  · rw [size,half,length_replicate]

def filledFile : RecordFile := oneFree.write 1 filled

theorem filledRan : insertRecord (answering none) 4000 half newFile = (.ok ⟨1,0⟩,filledFile) := by
  have chosen : choosePage (answering none) 4000 newFile = (.ok (1,blank),oneFree) := newPageChosen rfl
  have made : RowRecordPageHandler.insertRecord (answering none).insertLog half blank = .ok (0,filled) := filledMade
  exact insertPlaced chosen made

def filledRun : HeapRun := ⟨filledFile,update (fun _ => none) ⟨1,0⟩ (some (filledFile.stored ⟨1,0⟩ half))⟩

theorem HeapRun.inserts
    (ran : insertRecord outcomes recordSize data file = (.ok rid,after)) (live : RID → Option Bytes) :
    HeapRun.step ⟨file,live⟩ (.insert outcomes recordSize data) = some ⟨after,update live rid (some (after.stored rid data))⟩ := by
  unfold HeapRun.step
  dsimp only
  rw [ran]
  rfl

theorem filledStep : newRun.step (.insert (answering none) 4000 half) = some filledRun := by
  rw [newRun,filledRun]
  exact HeapRun.inserts filledRan fun _ => none

theorem filledReached (rest : List HeapCall) : filledRun ∈ Runs.reached HeapRun.step (.insert (answering none) 4000 half :: rest) newRun :=
  Runs.reachedNext filledStep (Runs.reachedFirst rest filledRun)

theorem filledSound : HeapRun.Sound filledRun := by
  have proper : Runs.Along HeapRun.step HeapRun.Proper [.insert (answering none) 4000 half,.reopen fun _ => none] newRun :=
    fun _ _ => ⟨trivial,fun _ _ => ⟨fun _ _ => rfl,trivial⟩⟩
  exact HeapRun.properSound newInOrder proper filledRun (filledReached [.reopen fun _ => none])

/-! The file is opened while its pages cannot be read. -/

theorem RecordFile.reopenBlind (rc : RC) (file : RecordFile) :
    reopen (fun _ => some rc) file = (.ok (),{ file with freePages := [] }) := by
  unfold reopen
  rw [bindOk (updateApply _ _),bindOk (readApply _ _)]
  cases BufferPoolIterator.pages _ 1 with
  | nil => rfl
  | cons page rest => rfl

def blindRun : HeapRun := ⟨{ filledFile with freePages := [] },filledRun.live⟩

/-- `init` returns SUCCESS, and the page with an empty slot is not among the free pages. -/
theorem pageUnlisted : ∃ later ∈ Runs.reached HeapRun.step [.insert (answering none) 4000 half,.reopen fun _ => some .ioerrRead] newRun,
    HasRoom later.file 1 ∧ later.file.freePages = [] ∧ ¬HeapRun.Sound later := by
  have opened : filledRun.step (.reopen fun _ => some .ioerrRead) = some blindRun := by
    rw [HeapRun.step,filledRun,reopenBlind]
    rfl
  have heap := (insertedOk newHeap filledRan).heap
  have there := (heap.free 1 (mem_insert_self (l := oneMore.freePages))).2
  have room : HasRoom filledFile 1 := (hasRoom heap.toHeapPages (by decide) there (memoryWritten _ 1 filled)).mpr filledRoom
  exact ⟨blindRun,Runs.reachedNext filledStep (Runs.reachedNext opened (Runs.reachedFirst [] blindRun)),room,rfl,
    fun sound => absurd (sound.listed 1 room) not_mem_nil⟩

end MiniOb.Record
