import MiniOb.Lib.Bits
import MiniOb.Common.Types

/-! The header page of a `DiskBufferPool` and the calls that allocate and free pages. What
the log handler and the frame manager answer to a call is given with the call. -/
namespace MiniOb.Buffer
open Bits Function

/-- The counters are 32-bit integers in the source; `allocated_pages` may fall below zero. -/
structure BPFileHeader where
  bufferPoolId : Int32
  pageCount : Nat
  allocatedPages : Int
  bitmap : Nat → Bool

def maxPageNum : Nat := (bpPageDataSize - 4 - 4 - 4) * 8

namespace BPFileHeader

/-- The first clear bit, which is searched only when the counters promise one. -/
def freePage (header : BPFileHeader) : Option Nat :=
  if header.allocatedPages < header.pageCount then firstClear header.bitmap header.pageCount else none

def setBit (page : Nat) (header : BPFileHeader) : BPFileHeader :=
  { header with allocatedPages := header.allocatedPages + 1, bitmap := update header.bitmap page true }

def clearBit (page : Nat) (header : BPFileHeader) : BPFileHeader :=
  { header with allocatedPages := header.allocatedPages - 1, bitmap := update header.bitmap page false }

def full (header : BPFileHeader) : Bool := header.freePage.isNone && decide (maxPageNum ≤ header.pageCount)

def extend (header : BPFileHeader) : BPFileHeader := { header with pageCount := header.pageCount + 1 }

theorem freePageClear {header : BPFileHeader} {page : Nat} (found : header.freePage = some page) :
    page < header.pageCount ∧ header.bitmap page = false := by
  unfold freePage at found
  split at found
  · exact firstClearSome found
  · cases found

end BPFileHeader

structure DiskBufferPool where
  fileHeader : BPFileHeader
  lsn : LSN
  dirty : Bool

namespace DiskBufferPool

def created (id : Int32) : DiskBufferPool where
  fileHeader := { bufferPoolId := id, pageCount := 1, allocatedPages := 1, bitmap := update (fun _ => false) 0 true }
  lsn := 0
  dirty := false

def freePage (bp : DiskBufferPool) : Option Nat := bp.fileHeader.freePage

def setBit (page : Nat) (bp : DiskBufferPool) : DiskBufferPool :=
  { bp with fileHeader := bp.fileHeader.setBit page, dirty := true }

def clearBit (page : Nat) (bp : DiskBufferPool) : DiskBufferPool :=
  { bp with fileHeader := bp.fileHeader.clearBit page, dirty := true }

def extend (bp : DiskBufferPool) : DiskBufferPool := { bp with fileHeader := bp.fileHeader.extend }

def setLsn (lsn : LSN) (bp : DiskBufferPool) : DiskBufferPool := { bp with lsn := lsn }

/-- `appended` is the LSN the log handler gives out, none when it fails; `loaded` is what
`get_this_page` answers for a page that is used again. -/
def allocatePage (appended : Option LSN) (loaded : RC) (bp : DiskBufferPool) : Except RC Nat × DiskBufferPool :=
  match bp.freePage with
  | some page => (if loaded = .success then .ok page else .error loaded,(bp.setBit page).setLsn (appended.getD 0))
  | none =>
    if maxPageNum ≤ bp.fileHeader.pageCount then (.error .bufferpoolNobuf,bp)
    else (.ok bp.fileHeader.pageCount,((bp.setLsn (appended.getD 0)).setBit bp.fileHeader.pageCount).extend)

/-- The bit is not looked at before the counter is lowered. -/
def disposePage (appended : Option LSN) (page : Nat) (bp : DiskBufferPool) : Except RC Unit × DiskBufferPool :=
  if page = 0 then (.error .internal,bp)
  else (.ok (),(bp.setLsn (appended.getD 0)).clearBit page)

def recoverPage (page : Nat) (bp : DiskBufferPool) : Except RC Unit × DiskBufferPool :=
  if bp.fileHeader.bitmap page then (.ok (),bp) else (.ok (),(bp.setBit page).extend)

def redoAllocatePage (lsn : LSN) (page : Nat) (bp : DiskBufferPool) : Except RC Unit × DiskBufferPool :=
  if lsn ≤ bp.lsn then (.ok (),bp)
  else if page < bp.fileHeader.pageCount then
    -- the LSN of the header stays behind on this branch
    if bp.fileHeader.bitmap page then (.ok (),bp) else (.ok (),bp.setBit page)
  else if bp.fileHeader.pageCount < page then (.error .internal,bp)
  else if maxPageNum ≤ bp.fileHeader.pageCount then (.error .internal,bp)
  else (.ok (),((bp.setBit page).extend).setLsn lsn)

def redoDeallocatePage (lsn : LSN) (page : Nat) (bp : DiskBufferPool) : Except RC Unit × DiskBufferPool :=
  if lsn ≤ bp.lsn then (.ok (),bp)
  else if bp.fileHeader.pageCount ≤ page then (.error .internal,bp)
  else if bp.fileHeader.bitmap page then (.ok (),(bp.clearBit page).setLsn lsn)
  else (.error .internal,bp)

end DiskBufferPool

structure HeaderOk (header : BPFileHeader) : Prop where
  counted : header.allocatedPages = population header.bitmap header.pageCount
  clear : ∀ i, header.pageCount ≤ i → header.bitmap i = false
  first : header.bitmap 0 = true
  fits : header.pageCount ≤ maxPageNum

namespace HeaderOk
variable {header : BPFileHeader} {page : Nat}

theorem inside (ok : HeaderOk header) (set : header.bitmap page = true) : page < header.pageCount := by
  by_contra outside
  rw [ok.clear page (by omega)] at set
  cases set

theorem created (id : Int32) : HeaderOk (DiskBufferPool.created id).fileHeader where
  counted := rfl
  clear i above := by
    have other : i ≠ 0 := Nat.ne_of_gt above
    simp [DiskBufferPool.created,other]
  first := rfl
  fits := by simp [DiskBufferPool.created,maxPageNum,bpPageDataSize,bpPageSize]

theorem setBit (ok : HeaderOk header) (less : page < header.pageCount)
    (free : header.bitmap page = false) : HeaderOk (header.setBit page) where
  counted := by
    simp only [BPFileHeader.setBit,populationSet _ less free,ok.counted]
    omega
  clear i above := by
    simp only [BPFileHeader.setBit] at above ⊢
    rw [update_of_ne (by omega),ok.clear i above]
  first := by
    simp only [BPFileHeader.setBit,update_apply]
    split
    · rfl
    · exact ok.first
  fits := ok.fits

theorem clearBit (ok : HeaderOk header) (other : page ≠ 0) (set : header.bitmap page = true) :
    HeaderOk (header.clearBit page) where
  counted := by
    have one := populationClear (ok.inside set) set
    simp only [BPFileHeader.clearBit,ok.counted]
    omega
  clear i above := by
    simp only [BPFileHeader.clearBit,update_apply]
    split
    · rfl
    · exact ok.clear i above
  first := by
    simp only [BPFileHeader.clearBit]
    rw [update_of_ne (Ne.symm other),ok.first]
  fits := ok.fits

theorem grow (ok : HeaderOk header) (near : page ≤ header.pageCount)
    (free : header.bitmap page = false) (room : header.pageCount < maxPageNum) :
    HeaderOk (header.setBit page).extend where
  counted := by
    have last : population header.bitmap (header.pageCount + 1) =
        population header.bitmap header.pageCount := by
      simp [populationSucc,ok.clear _ (le_refl _)]
    simp only [BPFileHeader.extend,BPFileHeader.setBit]
    rw [populationSet _ (by omega) free,last,ok.counted]
    omega
  clear i above := by
    simp only [BPFileHeader.extend,BPFileHeader.setBit] at above ⊢
    rw [update_of_ne (by omega),ok.clear i (by omega)]
  first := by
    simp only [BPFileHeader.extend,BPFileHeader.setBit,update_apply]
    split
    · rfl
    · exact ok.first
  fits := room

end HeaderOk

/-- A call with its answers from the log and from the frames. Page numbers are those a bitmap can hold. -/
inductive HeaderCall where
  | allocatePage (appended : Option LSN) (loaded : RC)
  | disposePage (appended : Option LSN) (page : Fin maxPageNum)
  | redoAllocatePage (lsn : LSN) (page : Fin maxPageNum)
  | redoDeallocatePage (lsn : LSN) (page : Fin maxPageNum)
  | recoverPage (page : Fin maxPageNum)

namespace HeaderCall

def run : HeaderCall → DiskBufferPool → DiskBufferPool
  | allocatePage appended loaded,bp => (bp.allocatePage appended loaded).2
  | disposePage appended page,bp => (bp.disposePage appended page).2
  | redoAllocatePage lsn page,bp => (bp.redoAllocatePage lsn page).2
  | redoDeallocatePage lsn page,bp => (bp.redoDeallocatePage lsn page).2
  | recoverPage page,bp => (bp.recoverPage page).2

def gives : HeaderCall → DiskBufferPool → Option Nat
  | allocatePage appended loaded,bp => (bp.allocatePage appended loaded).1.toOption
  | _,_ => none

/-- Only allocated pages are disposed, page 0 is not deallocated by a log entry newer than
the header, and a page that is recovered lies at most one page behind the end of a file that
may still grow. -/
def Proper (bp : DiskBufferPool) : HeaderCall → Prop
  | allocatePage _ _ => True
  | disposePage _ page => page.val = 0 ∨ bp.fileHeader.bitmap page = true
  | redoAllocatePage _ _ => True
  | redoDeallocatePage lsn page => page.val = 0 → lsn ≤ bp.lsn
  | recoverPage page => bp.fileHeader.bitmap page = true ∨
      page.val ≤ bp.fileHeader.pageCount ∧ bp.fileHeader.pageCount < maxPageNum

end HeaderCall

def AllProper (bp : DiskBufferPool) : List HeaderCall → Prop
  | [] => True
  | call :: rest => call.Proper bp ∧ AllProper (call.run bp) rest

def HeaderKept (bp : DiskBufferPool) : List HeaderCall → Prop
  | [] => HeaderOk bp.fileHeader
  | call :: rest => HeaderOk bp.fileHeader ∧ (∀ page, call.gives bp = some page → bp.fileHeader.bitmap page = false) ∧
      HeaderKept (call.run bp) rest

section
variable {bp : DiskBufferPool}

theorem headerKeptStart (kept : HeaderKept bp calls) : HeaderOk bp.fileHeader := by
  cases calls with
  | nil => exact kept
  | cons call rest => exact kept.1

theorem allocateStep (ok : HeaderOk bp.fileHeader) (appended : Option LSN) (loaded : RC) :
    HeaderOk (bp.allocatePage appended loaded).2.fileHeader ∧
    ∀ page, (bp.allocatePage appended loaded).1.toOption = some page → bp.fileHeader.bitmap page = false := by
  unfold DiskBufferPool.allocatePage
  split
  · rename_i page found
    obtain ⟨less,free⟩ := BPFileHeader.freePageClear found
    refine ⟨ok.setBit less free,fun page' given => ?_⟩
    split at given
    · cases given
      exact free
    · cases given
  · have free := ok.clear _ (le_refl bp.fileHeader.pageCount)
    split
    · exact ⟨ok,fun page given => by cases given⟩
    · refine ⟨ok.grow (le_refl _) free (by rename_i room; exact not_le.mp room),?_⟩
      intro page given
      cases given
      exact free

theorem redoAllocateStep (ok : HeaderOk bp.fileHeader) (lsn : LSN) (page : Nat) :
    HeaderOk (bp.redoAllocatePage lsn page).2.fileHeader := by
  unfold DiskBufferPool.redoAllocatePage
  split
  · exact ok
  split
  · split
    · exact ok
    · exact ok.setBit ‹_› (Bool.eq_false_iff.mpr ‹_›)
  split
  · exact ok
  split
  · exact ok
  · exact ok.grow (by omega) (ok.clear page (by omega)) (by omega)

theorem headerStep (ok : HeaderOk bp.fileHeader) (call : HeaderCall) :
    (HeaderOk (call.run bp).fileHeader ↔ call.Proper bp) ∧
    ∀ page, call.gives bp = some page → bp.fileHeader.bitmap page = false := by
  cases call with
  | allocatePage appended loaded =>
    obtain ⟨kept,fresh⟩ := allocateStep ok appended loaded
    exact ⟨⟨fun _ => trivial,fun _ => kept⟩,fresh⟩
  | disposePage appended page =>
    refine ⟨?_,fun page given => by cases given⟩
    simp only [HeaderCall.run,HeaderCall.Proper,DiskBufferPool.disposePage]
    by_cases zero : page.val = 0
    · simp [zero,ok]
    · rw [if_neg zero]
      refine ⟨fun after => .inr ?_,fun proper => ok.clearBit zero (proper.resolve_left zero)⟩
      -- lowering the counter without clearing a bit is what goes wrong
      by_contra clear
      have free := Bool.eq_false_iff.mpr clear
      have counted := after.counted
      simp only [DiskBufferPool.clearBit,DiskBufferPool.setLsn,BPFileHeader.clearBit,ok.counted] at counted
      rw [← free,update_eq_self] at counted
      omega
  | redoAllocatePage lsn page =>
    exact ⟨⟨fun _ => trivial,fun _ => redoAllocateStep ok lsn page⟩,fun page given => by cases given⟩
  | redoDeallocatePage lsn page =>
    refine ⟨?_,fun page given => by cases given⟩
    simp only [HeaderCall.run,HeaderCall.Proper,DiskBufferPool.redoDeallocatePage]
    by_cases old : lsn ≤ bp.lsn
    · simp [old,ok]
    · rw [if_neg old]
      refine ⟨fun after zero => ?_,fun proper => ?_⟩
      · have set := ok.first
        have less := ok.inside set
        rw [if_neg (by omega),zero,if_pos set] at after
        have first := after.first
        simp [DiskBufferPool.clearBit,BPFileHeader.clearBit,DiskBufferPool.setLsn] at first
      · split
        · exact ok
        split
        · exact ok.clearBit (mt proper old) ‹_›
        · exact ok
  | recoverPage page =>
    refine ⟨?_,fun page given => by cases given⟩
    simp only [HeaderCall.run,HeaderCall.Proper,DiskBufferPool.recoverPage]
    by_cases set : bp.fileHeader.bitmap page = true
    · simp [set,ok]
    · rw [if_neg set]
      refine ⟨fun after => .inr ⟨?_,after.fits⟩,fun proper => ?_⟩
      · by_contra far
        have clear := after.clear page
          (by simp only [DiskBufferPool.extend,DiskBufferPool.setBit,BPFileHeader.extend,BPFileHeader.setBit]; omega)
        simp [DiskBufferPool.extend,DiskBufferPool.setBit,BPFileHeader.extend,BPFileHeader.setBit] at clear
      · obtain ⟨near,room⟩ := proper.resolve_left set
        exact ok.grow near (Bool.eq_false_iff.mpr set) room

theorem headerKeptIff (ok : HeaderOk bp.fileHeader) (calls : List HeaderCall) :
    HeaderKept bp calls ↔ AllProper bp calls := by
  induction calls generalizing bp with
  | nil => exact ⟨fun _ => trivial,fun _ => ok⟩
  | cons call rest ih =>
    obtain ⟨step,fresh⟩ := headerStep ok call
    constructor
    · rintro ⟨-,-,kept⟩
      have after := headerKeptStart kept
      exact ⟨step.mp after,(ih after).mp kept⟩
    · rintro ⟨proper,all⟩
      have after := step.mpr proper
      exact ⟨ok,fresh,(ih after).mpr all⟩

end

def pageOne : Fin maxPageNum := ⟨1,by decide⟩

theorem reusedPageKept : HeaderOk (DiskBufferPool.created 1).fileHeader ∧ HeaderKept (.created 1)
    [.allocatePage (some 1) .success,.disposePage (some 2) pageOne,.allocatePage (some 3) .success] :=
  ⟨HeaderOk.created 1,(headerKeptIff (HeaderOk.created 1) _).mpr ⟨trivial,.inr (by decide),trivial,trivial⟩⟩

/-- Page 1 is allocated and disposed twice: the counter then says that not even page 0 is allocated. -/
theorem disposedTwice : ¬ HeaderKept (.created 1)
    [.allocatePage (some 1) .success,.disposePage (some 2) pageOne,.disposePage (some 3) pageOne] := by
  rintro ⟨-,-,-,-,-,-,last⟩
  have counted := last.counted
  revert counted
  decide

end MiniOb.Buffer
