import MiniOb.Record.HeapFile

/-! The scan of a heap file without a transaction (`heap_record_scanner.cpp`), while nothing else touches the file. -/
namespace MiniOb.Record
open Buffer RecordPageHandler List Int32 RecordFile

structure RecordPageIterator where
  pageNum : PageNum
  page : Content
  nextSlotNum : Option Nat

namespace RecordPageIterator

def init (pageNum : PageNum) (page : Content) : RecordPageIterator := ⟨pageNum,page,(bitmap page).nextSettedBit 0⟩

def advance (slot : Nat) (iterator : RecordPageIterator) : RecordPageIterator :=
  { iterator with nextSlotNum := (bitmap iterator.page).nextSettedBit (slot + 1) }

def left (iterator : RecordPageIterator) : Nat := match iterator.nextSlotNum with
  | none => 0
  | some slot => (bitmap iterator.page).size - slot + 1

theorem leftAdvance {iterator : RecordPageIterator} {slot} (here : iterator.nextSlotNum = some slot) :
    (iterator.advance slot).left < iterator.left := by
  unfold left advance
  rw [here,Bitmap.nextSettedBitFind]
  cases found : (range' (slot + 1) ((bitmap iterator.page).size - (slot + 1))).find?
      fun i => (bitmap iterator.page).getBit i with
  | none => exact Nat.succ_pos _
  | some next =>
    have inside := mem_range'_1.mp (mem_of_find?_eq_some found)
    dsimp only
    omega

end RecordPageIterator

namespace HeapRecordScanner

/-- The condition is that of `condition_filter_`. `next` of the iterator drops the code of `get_record`: when that fails, the record
of the turn before is looked at again. -/
def fetchNextRecordInPage (condition : RID × Bytes → Bool) (iterator : RecordPageIterator) (record : RID × Bytes) :
    Except Exit Unit × RecordPageIterator × (RID × Bytes) :=
  match _ : iterator.nextSlotNum with
  | none => (.error (.rc .recordEof),iterator,({ record.1 with slotNum := -1 },record.2))
  | some slot =>
    match RowRecordPageHandler.getRecord (ofNat slot) iterator.page with
    | .error .abort => (.error .abort,iterator,record)
    | answer =>
      let next := match answer with
        | .ok bytes => (⟨iterator.pageNum,ofNat slot⟩,bytes)
        | .error _ => record
      if next.1.slotNum = -1 then (.error (.rc .recordEof),iterator.advance slot,next)
      else if condition next then (.ok (),iterator.advance slot,next)
      else fetchNextRecordInPage condition (iterator.advance slot) next
termination_by iterator.left
decreasing_by exact RecordPageIterator.leftAdvance ‹_›

end HeapRecordScanner

structure HeapRecordScanner where
  nextPage : Nat
  iterator : Option RecordPageIterator
  nextRecord : RID × Bytes

namespace HeapRecordScanner

/-- What `next_record_` holds before the first record is not initialised. -/
def openScan (record : RID × Bytes) : HeapRecordScanner := ⟨1,none,record⟩

section
variable (condition : RID × Bytes → Bool) (fetches : PageNum → Option RC) (file : RecordFile)

def fetchNextPage (scanner : HeapRecordScanner) : Except Exit Unit × HeapRecordScanner :=
  match _ : file.bitmap.nextSettedBit scanner.nextPage with
  | none => (.error (.rc .recordEof),{ scanner with nextRecord := ({ scanner.nextRecord.1 with slotNum := -1 },scanner.nextRecord.2) })
  | some page =>
    match (fetch (fetches (ofNat page)) (ofNat page) file).1 with
    | .error exit => (.error exit,{ scanner with nextPage := page + 1 })
    | .ok content =>
      match fetchNextRecordInPage condition (.init (ofNat page) content) scanner.nextRecord with
      | (.error (.rc .recordEof),iterator,record) => fetchNextPage ⟨page + 1,some iterator,record⟩
      | (answer,iterator,record) => (answer,⟨page + 1,some iterator,record⟩)
termination_by file.bitmap.size - scanner.nextPage
decreasing_by
  rename _ = some page => found
  rw [Bitmap.nextSettedBitFind] at found
  have inside := mem_range'_1.mp (mem_of_find?_eq_some found)
  omega

def fetchNextRecord (scanner : HeapRecordScanner) : Except Exit Unit × HeapRecordScanner :=
  match scanner.iterator with
  | none => fetchNextPage condition fetches file scanner
  | some iterator =>
    match fetchNextRecordInPage condition iterator scanner.nextRecord with
    | (.error (.rc .recordEof),iterator,record) => fetchNextPage condition fetches file ⟨scanner.nextPage,some iterator,record⟩
    | (answer,iterator,record) => (answer,⟨scanner.nextPage,some iterator,record⟩)

inductive Scans : HeapRecordScanner → List (RID × Bytes) → Prop
  | done {s t : HeapRecordScanner} (last : fetchNextRecord condition fetches file s = (.error (.rc .recordEof),t)) : Scans s []
  | record {s t : HeapRecordScanner} {rest : List (RID × Bytes)} (ran : fetchNextRecord condition fetches file s = (.ok (),t))
      (later : Scans t rest) : Scans s (t.nextRecord :: rest)

end

/-! What is still to come. -/

def recordAt (pageNum : PageNum) (page : Content) (slot : Nat) : RID × Bytes := (⟨pageNum,ofNat slot⟩,slotData slot page)

def inPage (iterator : RecordPageIterator) : List (RID × Bytes) := match iterator.nextSlotNum with
  | none => []
  | some slot => (slot :: (bitmap iterator.page).setted (slot + 1)).map (recordAt iterator.pageNum iterator.page)

def ofPage (file : RecordFile) (page : Nat) : List (RID × Bytes) := match file.memory (ofNat page) with
  | none => []
  | some content => ((bitmap content).setted 0).map (recordAt (ofNat page) content)

def fromPage (file : RecordFile) (start : Nat) : List (RID × Bytes) := (file.bitmap.setted start).flatMap (ofPage file)

def remaining (file : RecordFile) (scanner : HeapRecordScanner) : List (RID × Bytes) :=
  scanner.iterator.elim [] inPage ++ fromPage file scanner.nextPage

theorem inPageNext (pageNum : PageNum) (page : Content) (start : Nat) :
    inPage ⟨pageNum,page,(bitmap page).nextSettedBit start⟩ =
      ((bitmap page).setted start).map (recordAt pageNum page) := by
  rw [inPage,Bitmap.settedNext]
  cases (bitmap page).nextSettedBit start with
  | none => rfl
  | some slot => rfl

structure On (iterator : RecordPageIterator) : Prop where
  page : PageOk iterator.page
  slot : ∀ slot, iterator.nextSlotNum = some slot → slots iterator.page slot = some (slotData slot iterator.page)

theorem onNext {page} (ok : PageOk page) (pageNum : PageNum) (start : Nat) :
    On ⟨pageNum,page,(bitmap page).nextSettedBit start⟩ := by
  refine ⟨ok,fun slot found => ?_⟩
  dsimp only at found ⊢
  rw [Bitmap.nextSettedBitFind] at found
  have inside := mem_range'_1.mp (mem_of_find?_eq_some found)
  have size : (bitmap page).size = capacity page := rfl
  exact if_pos ⟨by omega,find?_some found⟩

variable {condition : RID × Bytes → Bool} {fetches : PageNum → Option RC} {file : RecordFile}

def InPage (condition : RID × Bytes → Bool) (wanted : List (RID × Bytes)) :
    Except Exit Unit × RecordPageIterator × (RID × Bytes) → Prop
  | (.ok (),iterator,record) => On iterator ∧ wanted = record :: (inPage iterator).filter condition
  | (.error exit,_,_) => exit = .rc .recordEof ∧ wanted = []

theorem fetchEnd {iterator} (here : iterator.nextSlotNum = none) (record : RID × Bytes) :
    fetchNextRecordInPage condition iterator record = (.error (.rc .recordEof),iterator,({ record.1 with slotNum := -1 },record.2)) := by
  unfold fetchNextRecordInPage
  split
  · rfl
  · rename_i found
    rw [here] at found
    cases found

theorem fetchHere {iterator} (on : On iterator) {slot} (here : iterator.nextSlotNum = some slot) (record : RID × Bytes) :
    fetchNextRecordInPage condition iterator record =
      if condition (recordAt iterator.pageNum iterator.page slot) then
        (.ok (),iterator.advance slot,recordAt iterator.pageNum iterator.page slot)
      else fetchNextRecordInPage condition (iterator.advance slot) (recordAt iterator.pageNum iterator.page slot) := by
  have inside := on.slot slot here
  have below : slot < capacity iterator.page := ((slotsSome iterator.page slot).mp (by rw [inside]; exact Option.some_ne_none _)).1
  have bound := capacityLess iterator.page
  have number : ofNat slot ≠ -1 := fun same => by
    have value := congrArg toInt same
    rw [toInt_ofNat_of_lt (by omega),show (-1 : Int32).toInt = -1 from rfl] at value
    omega
  rw [fetchNextRecordInPage]
  split
  · rename_i found
    rw [here] at found
    cases found
  · rename_i other found
    rw [here] at found
    cases found
    rw [getRecordOk on.page inside]
    exact if_neg number

theorem fetchInPage (iterator : RecordPageIterator) (record : RID × Bytes) (on : On iterator) :
    InPage condition ((inPage iterator).filter condition) (fetchNextRecordInPage condition iterator record) := by
  induction size : iterator.left using Nat.strong_induction_on generalizing iterator record with
  | h size ih =>
    subst size
    cases here : iterator.nextSlotNum with
    | none =>
      rw [fetchEnd here]
      refine ⟨rfl,?_⟩
      rw [inPage,here]
      rfl
    | some slot =>
      have onward : On (iterator.advance slot) := onNext on.page iterator.pageNum (slot + 1)
      have rest : inPage (iterator.advance slot) = _ := inPageNext iterator.pageNum iterator.page (slot + 1)
      have listed : inPage iterator = recordAt iterator.pageNum iterator.page slot :: inPage (iterator.advance slot) := by
        rw [rest,inPage,here]
        rfl
      rw [fetchHere on here,listed]
      split
      · rename_i accepted
        exact ⟨onward,filter_cons_of_pos accepted⟩
      · rename_i refused
        rw [filter_cons_of_neg refused]
        exact ih _ (RecordPageIterator.leftAdvance here) _ _ onward rfl

structure Ready (scanner : HeapRecordScanner) : Prop where
  behind : 0 < scanner.nextPage
  on : ∀ iterator, scanner.iterator = some iterator → On iterator

def InFile (condition : RID × Bytes → Bool) (file : RecordFile) (wanted : List (RID × Bytes)) :
    Except Exit Unit × HeapRecordScanner → Prop
  | (.ok (),scanner) => Ready scanner ∧ wanted = scanner.nextRecord :: (remaining file scanner).filter condition
  | (.error exit,_) => exit = .rc .recordEof ∧ wanted = []

theorem afterPage {wanted others : List (RID × Bytes)} {nextPage}
    {goOn : RecordPageIterator → RID × Bytes → Except Exit Unit × HeapRecordScanner}
    (above : 0 < nextPage) (behind : others = (fromPage file nextPage).filter condition)
    (later : ∀ iterator record, InFile condition file others (goOn iterator record)) :
    InPage condition wanted result → InFile condition file (wanted ++ others) (match result with
      | (.error (.rc .recordEof),iterator,record) => goOn iterator record
      | (answer,iterator,record) => (answer,⟨nextPage,some iterator,record⟩)) := by
  intro first
  obtain ⟨answer,iterator,record⟩ := result
  cases answer with
  | ok done =>
    obtain ⟨on,rfl⟩ := first
    refine ⟨⟨above,fun other same => Option.some.inj same ▸ on⟩,?_⟩
    rw [behind,remaining,filter_append]
    rfl
  | error exit =>
    obtain ⟨rfl,rfl⟩ := first
    exact later iterator record

section
variable (heap : HeapPages file) (fetched : ∀ page, file.Allocated page → fetches page = none)
include heap fetched

theorem fetchPages (scanner : HeapRecordScanner) (behind : 0 < scanner.nextPage) :
    InFile condition file ((fromPage file scanner.nextPage).filter condition) (fetchNextPage condition fetches file scanner) := by
  induction size : file.bitmap.size - scanner.nextPage using Nat.strong_induction_on generalizing scanner with
  | h size ih =>
    subst size
    have next : file.bitmap.setted scanner.nextPage = _ := Bitmap.settedNext scanner.nextPage
    rw [fetchNextPage]
    split
    · rename_i found
      rw [found] at next
      refine ⟨rfl,?_⟩
      rw [fromPage,next]
      rfl
    · rename_i page found
      rw [found] at next
      have member : page ∈ file.bitmap.setted scanner.nextPage := by
        rw [next]
        exact mem_cons_self
      obtain ⟨range,set⟩ := mem_filter.mp member
      have bounds := mem_range'_1.mp range
      have inside : page ∈ file.bitmap.setted 1 := mem_filter.mpr ⟨mem_range'_1.mpr (by omega),set⟩
      obtain ⟨small,notHeader,there⟩ := (settedPages heap.header page).mp inside
      obtain ⟨content,memory,ok⟩ := heap.pages _ notHeader there
      have got : fetch (fetches (ofNat page)) (ofNat page) file = (.ok content,file) := by
        rw [fetched _ there,fetch,memory]
      have listed : fromPage file scanner.nextPage = inPage (.init (ofNat page) content) ++ fromPage file (page + 1) := by
        rw [fromPage,next]
        rw [flatMap_cons,ofPage,memory]
        exact congrArg (· ++ _) (inPageNext _ _ _).symm
      rw [got,listed,filter_append]
      have less : file.bitmap.size - (page + 1) < file.bitmap.size - scanner.nextPage := by omega
      exact afterPage (Nat.succ_pos page) rfl (fun iterator record => ih _ less ⟨page + 1,some iterator,record⟩ (Nat.succ_pos page) rfl)
        (fetchInPage _ _ (onNext ok _ 0))

theorem fetchRecord {scanner : HeapRecordScanner} (ready : Ready scanner) :
    InFile condition file ((remaining file scanner).filter condition) (fetchNextRecord condition fetches file scanner) := by
  obtain ⟨nextPage,iterator,record⟩ := scanner
  cases iterator with
  | none => exact fetchPages heap fetched _ ready.behind
  | some iterator =>
    rw [remaining,filter_append]
    exact afterPage ready.behind rfl (fun iterator record => fetchPages heap fetched ⟨nextPage,some iterator,record⟩ ready.behind)
      (fetchInPage iterator record (ready.on iterator rfl))

theorem scansRemaining {scanner}
    (ready : Ready scanner) : Scans condition fetches file scanner ((remaining file scanner).filter condition) := by
  have step : ∀ scanner, Ready scanner → InFile condition file _ (fetchNextRecord condition fetches file scanner) :=
    fun scanner => fetchRecord heap fetched
  induction wanted : (remaining file scanner).filter condition generalizing scanner with
  | nil =>
    have here := step scanner ready
    rcases ran : fetchNextRecord condition fetches file scanner with ⟨answer,after⟩
    rw [ran,wanted] at here
    cases answer with
    | ok done => cases here.2
    | error exit =>
      obtain ⟨rfl,_⟩ := here
      exact .done ran
  | cons record rest ih =>
    have here := step scanner ready
    rcases ran : fetchNextRecord condition fetches file scanner with ⟨answer,after⟩
    rw [ran,wanted] at here
    cases answer with
    | ok done =>
      obtain ⟨rfl,rfl⟩ := cons.inj here.2
      exact .record ran (ih here.1 rfl)
    | error exit => cases here.2

end

/-! Those are the records of the file, in order. -/

theorem settedSorted (bits : Bitmap) (start : Nat) : (bits.setted start).Pairwise (· < ·) :=
  List.Pairwise.filter _ pairwise_lt_range'

theorem ofPageIs (heap : HeapPages file) {page} (inside : page ∈ file.bitmap.setted 1) :
    ∃ content, file.memory (ofNat page) = some content ∧
      ofPage file page = ((bitmap content).setted 0).map (recordAt (ofNat page) content) := by
  obtain ⟨_,notHeader,there⟩ := (settedPages heap.header page).mp inside
  obtain ⟨content,memory,_⟩ := heap.pages _ notHeader there
  exact ⟨content,memory,by rw [ofPage,memory]⟩

theorem fromPageSorted (heap : HeapPages file) : (fromPage file 1).Pairwise fun a b => a.1 < b.1 := by
  refine pairwise_flatMap.mpr ⟨fun page inside => ?_,(settedSorted _ _).imp_of_mem fun first second less a one b two => ?_⟩
  · obtain ⟨content,_,listed⟩ := ofPageIs heap inside
    rw [listed,pairwise_map]
    refine (settedSorted _ _).imp_of_mem fun one two less => ridLt.mpr (Or.inr ⟨rfl,?_⟩)
    have bound := capacityLess content
    have size : (bitmap content).size = capacity content := rfl
    have second := mem_range'_1.mp (mem_filter.mp two).1
    show (ofNat _).toInt < (ofNat _).toInt
    rw [toInt_ofNat_of_lt (by omega),toInt_ofNat_of_lt (by omega)]
    exact Int.ofNat_lt.mpr less
  · have page : ∀ {number record}, number ∈ file.bitmap.setted 1 → record ∈ ofPage file number → record.1.pageNum.toInt = number := by
      intro number record inside member
      obtain ⟨content,_,listed⟩ := ofPageIs heap inside
      rw [listed] at member
      obtain ⟨slot,_,rfl⟩ := mem_map.mp member
      exact toInt_ofNat_of_lt ((settedPages heap.header number).mp inside).1
    rw [ridLt,page first one,page second two]
    exact Or.inl (Int.ofNat_lt.mpr less)

theorem settedSlot (content : Content) (slot : Nat) :
    slot ∈ (bitmap content).setted 0 ↔ slots content slot = some (slotData slot content) := by
  have size : (bitmap content).size = capacity content := rfl
  rw [Bitmap.setted,mem_filter,mem_range'_1,size]
  constructor
  · exact fun both => if_pos ⟨by omega,both.2⟩
  · intro there
    obtain ⟨inside,set⟩ := (slotsSome content slot).mp (by rw [there]; exact Option.some_ne_none _)
    exact ⟨⟨Nat.zero_le _,by omega⟩,set⟩

theorem fromPageRecords (heap : HeapPages file) (rid : RID) (bytes : Bytes) :
    (rid,bytes) ∈ fromPage file 1 ↔ file.record rid = some bytes := by
  constructor
  · intro member
    obtain ⟨page,inside,here⟩ := mem_flatMap.mp member
    obtain ⟨content,memory,listed⟩ := ofPageIs heap inside
    obtain ⟨_,notHeader,there⟩ := (settedPages heap.header page).mp inside
    rw [listed] at here
    obtain ⟨slot,set,same⟩ := mem_map.mp here
    cases same
    have found := (settedSlot content slot).mp set
    have below := ((slotsSome content slot).mp (by rw [found]; exact Option.some_ne_none _)).1
    have small : slot < 2 ^ 31 := below.trans (capacityLess content)
    rw [record,if_pos ⟨there,notHeader,by rw [toInt_ofNat_of_lt small]; exact Int.natCast_nonneg slot⟩,memory]
    show slots content (natOf (ofNat slot)) = _
    rw [natOfOfNat small,found]
  · intro found
    obtain ⟨page,slot⟩ := rid
    unfold record at found
    split at found
    · rename_i both
      obtain ⟨there,notHeader,low⟩ := both
      obtain ⟨content,memory,_⟩ := heap.pages page notHeader there
      rw [memory,Option.bind_some] at found
      have set : slots content (natOf slot) = some (slotData (natOf slot) content) := by
        unfold slots at found ⊢
        split
        · rfl
        · rename_i absent
          rw [if_neg absent] at found
          cases found
      rw [set] at found
      cases found
      have number := ofNatNatOf there.1
      have bound := page.toInt_lt
      have inside : natOf page ∈ file.bitmap.setted 1 := (settedPages heap.header _).mpr
        ⟨by unfold natOf; omega,number.symm ▸ notHeader,number.symm ▸ there⟩
      refine mem_flatMap.mpr ⟨natOf page,inside,?_⟩
      rw [ofPage,number,memory]
      refine mem_map.mpr ⟨natOf slot,(settedSlot content _).mpr set,?_⟩
      rw [recordAt,ofNatNatOf low]
    · cases found

theorem scansRecords (heap : HeapPages file) (fetched : ∀ page, file.Allocated page → fetches page = none) (start : RID × Bytes) :
    ∃ records, Scans (fun _ => true) fetches file (openScan start) records ∧ (records.Pairwise fun a b => a.1 < b.1) ∧
      ∀ rid bytes, (rid,bytes) ∈ records ↔ file.record rid = some bytes := by
  have ready : Ready (openScan start) := ⟨Nat.one_pos,fun _ none => by cases none⟩
  have all : Scans (fun _ => true) fetches file (openScan start) _ := scansRemaining heap fetched ready
  rw [filter_true] at all
  exact ⟨fromPage file 1,all,fromPageSorted heap,fromPageRecords heap⟩

end HeapRecordScanner
end MiniOb.Record
