import MiniOb.Record.RecordFileHandler

/-! What an insert that fails has done to the file by then. -/
namespace MiniOb.Record
open Buffer Prog RecordFile Int32 Function List
open RecordPageHandler (isFull setLsn dataSetLsn)

theorem ofNatNatOf {n} (low : 0 ≤ n.toInt) : ofNat (natOf n) = n := by
  have bound := n.toInt_lt
  have small : natOf n < 2 ^ 31 := by
    unfold natOf
    omega
  refine toInt_inj.mp ?_
  rw [toInt_ofNat_of_lt small,natOfToInt low]

namespace RecordFile
variable {file after : RecordFile} {page : PageNum} {content : Content} {outcomes : Outcomes}

theorem memoryWritten (file : RecordFile) (page : PageNum) (content : Content) :
    (file.write page content).memory page = some content := update_self ..

theorem memoryElsewhere {other} (different : other ≠ page) : (file.write page content).memory other = file.memory other :=
  update_of_ne different ..

theorem poolWritten (file : RecordFile) (content : Content) : (file.write bpHeaderPage content).pool = content.pool := by
  rw [pool,headerPage,memoryWritten]
  rfl

theorem poolElsewhere (other : page ≠ bpHeaderPage) : (file.write page content).pool = file.pool := by
  rw [pool,headerPage,memoryElsewhere (Ne.symm other)]
  rfl

theorem allocatedCongr (same : after.pool.fileHeader = file.pool.fileHeader) (page : PageNum) :
    after.Allocated page ↔ file.Allocated page := by
  unfold Allocated
  rw [same]

theorem recordCongr (allocated : ∀ page, after.Allocated page ↔ file.Allocated page)
    (memory : ∀ page ≠ bpHeaderPage, after.memory page = file.memory page) (rid : RID) : after.record rid = file.record rid := by
  unfold record
  by_cases there : file.Allocated rid.pageNum ∧ rid.pageNum ≠ bpHeaderPage ∧ 0 ≤ rid.slotNum.toInt
  · rw [if_pos there,if_pos ⟨(allocated _).mpr there.1,there.2⟩,memory _ there.2.1]
  · rw [if_neg there,if_neg fun other => there ⟨(allocated _).mp other.1,other.2⟩]

/-! Fetching and searching. -/

def Unfetchable (outcomes : Outcomes) (page : PageNum) (file : RecordFile) : Prop := outcomes.fetch page ≠ none ∨ file.memory page = none

variable {result : Except Exit Content} {free recordSize : Nat} {data : Bytes} {rc : RC}

theorem fetchCases {fault} (ran : fetch fault page file = (result,after)) :
    after = file ∧ match result with
      | .ok content => fault = none ∧ file.memory page = some content
      | .error exit => (∃ rc, exit = .rc rc) ∧ (fault ≠ none ∨ file.memory page = none) := by
  unfold fetch at ran
  cases fault with
  | some rc =>
    cases ran
    exact ⟨rfl,⟨rc,rfl⟩,Or.inl (Option.some_ne_none rc)⟩
  | none =>
    cases found : file.memory page with
    | some content =>
      rw [found] at ran
      cases ran
      exact ⟨rfl,rfl,rfl⟩
    | none =>
      rw [found] at ran
      cases ran
      exact ⟨rfl,⟨_,rfl⟩,Or.inr rfl⟩

def erase (pages : List PageNum) (file : RecordFile) : RecordFile := { file with freePages := file.freePages.filter (· ∉ pages) }

theorem eraseCons (page : PageNum) (pages : List PageNum) : (file.eraseFree page).erase pages = file.erase (page :: pages) := by
  unfold erase eraseFree
  congr 1
  rw [filter_filter]
  congr 1
  funext other
  simp [Bool.and_comm]

theorem eraseNil : file.erase [] = file := by
  unfold erase
  simp

theorem searchCases {pages result}
    (ran : search outcomes pages file = (result,after)) :
    ∃ passed rest, pages = passed ++ rest ∧ after = file.erase passed ∧
      (∀ page ∈ passed, ¬file.Unfetchable outcomes page ∧ ∃ content, file.memory page = some content ∧ isFull content) ∧
      match result with
      | .ok none => rest = []
      | .ok (some (page,content)) => page ∈ pages ∧ file.memory page = some content ∧ ¬isFull content
      | .error exit => (∃ rc, exit = .rc rc) ∧ ∃ page later, rest = page :: later ∧ file.Unfetchable outcomes page := by
  induction pages generalizing file with
  | nil =>
    cases ran
    exact ⟨[],[],rfl,eraseNil.symm,fun _ inside => absurd inside not_mem_nil,rfl⟩
  | cons page rest ih =>
    unfold search at ran
    rcases fetched : fetch (outcomes.fetch page) page file with ⟨answer,next⟩
    obtain ⟨rfl,answers⟩ := fetchCases fetched
    cases answer with
    | error exit =>
      rw [bindError fetched] at ran
      cases ran
      exact ⟨[],page :: rest,rfl,eraseNil.symm,fun _ inside => absurd inside not_mem_nil,answers.1,page,rest,rfl,answers.2⟩
    | ok content =>
      rw [bindOk fetched] at ran
      split at ran
      · rename_i full
        obtain ⟨passed,later,parts,last,all,ends⟩ := ih ran
        refine ⟨page :: passed,later,by rw [parts]; rfl,by rw [last,eraseCons],?_,?_⟩
        · intro other inside
          rcases mem_cons.mp inside with rfl | behind
          · refine ⟨fun cannot => ?_,content,answers.2,full⟩
            rcases cannot with fault | absent
            · exact fault answers.1
            · rw [answers.2] at absent
              cases absent
          · exact all other behind
        · rcases result with exit | found
          · exact ends
          · rcases found with - | ⟨other,otherContent⟩
            · exact ends
            · exact ⟨mem_cons_of_mem _ ends.1,ends.2⟩
      · rename_i room
        cases ran
        exact ⟨[],page :: rest,rfl,eraseNil.symm,fun _ inside => absurd inside not_mem_nil,mem_cons_self,answers.2,room⟩

/-! Allocating a page. -/

theorem headerContent {bp : DiskBufferPool} (ok : HeaderOk bp.fileHeader) (lsn : Int64) :
    (bp.content lsn).pool.fileHeader = bp.fileHeader :=
  BPFileHeader.decodeEncode ok

theorem ofNatPage (small : free < 2 ^ 31) (page : PageNum) : page = ofNat free ↔ 0 ≤ page.toInt ∧ natOf page = free := by
  constructor
  · rintro rfl
    exact ⟨by rw [toInt_ofNat_of_lt small]; exact Int.natCast_nonneg free,natOfOfNat small⟩
  · rintro ⟨low,rfl⟩
    exact (ofNatNatOf low).symm

theorem allocatedMarked {count} (small : free < 2 ^ 31) (header : after.pool.fileHeader = { file.pool.fileHeader with
      pageCount := count
      allocatedPages := file.pool.fileHeader.allocatedPages + 1
      bitmap := update file.pool.fileHeader.bitmap free true })
    (grows : file.pool.fileHeader.pageCount ≤ count) (inside : free < count)
    (beyond : ∀ i, file.pool.fileHeader.pageCount ≤ i → file.pool.fileHeader.bitmap i = false) (page : PageNum) :
    after.Allocated page ↔ file.Allocated page ∨ page = ofNat free := by
  rw [ofNatPage small]
  unfold Allocated
  rw [header]
  dsimp only
  by_cases same : natOf page = free
  · rw [same,update_self]
    tauto
  · rw [update_of_ne same]
    constructor
    · rintro ⟨low,_,set⟩
      refine Or.inl ⟨low,?_,set⟩
      by_contra outside
      rw [beyond _ (by omega)] at set
      cases set
    · rintro (⟨low,less,set⟩ | ⟨_,equal⟩)
      · exact ⟨low,by omega,set⟩
      · exact absurd equal same

theorem pageNotHeader (small : free < 2 ^ 31) (other : free ≠ 0) : ofNat free ≠ bpHeaderPage := by
  intro same
  exact other ((ofNatPage small bpHeaderPage).mp same.symm).2.symm

theorem notAllocated (small : free < 2 ^ 31) (clear : file.pool.fileHeader.bitmap free = false) :
    ¬file.Allocated (ofNat free) := by
  rintro ⟨_,_,set⟩
  rw [natOfOfNat small,clear] at set
  cases set

/-- `allocate_page` fails before it marks a page. -/
def NoPage (outcomes : Outcomes) (file : RecordFile) : Prop :=
  file.pool.freePage = none ∧ (maxPageNum ≤ file.pool.fileHeader.pageCount ∨ outcomes.frame ≠ none)

theorem allocateCases (header : HeaderOk file.pool.fileHeader) {result : Except Exit PageNum}
    (ran : allocatePage outcomes file = (result,after)) :
    after.freePages = file.freePages ∧ HeaderOk after.pool.fileHeader ∧ match result with
    | .ok page => ¬file.NoPage outcomes ∧ page ≠ bpHeaderPage ∧ ¬file.Allocated page ∧
        (∀ other, after.Allocated other ↔ file.Allocated other ∨ other = page) ∧
        ∀ other ≠ bpHeaderPage, other ≠ page → after.memory other = file.memory other
    | .error exit => (∃ rc, exit = .rc rc) ∧ (∀ other ≠ bpHeaderPage, after.memory other = file.memory other) ∧
        (file.NoPage outcomes ∧ (∀ page, after.Allocated page ↔ file.Allocated page) ∨
          ¬file.NoPage outcomes ∧ ∃ page, ¬file.Allocated page ∧ after.Allocated page) := by
  have bound : maxPageNum < 2 ^ 31 := by decide
  have fits := header.fits
  unfold allocatePage at ran
  cases free : file.pool.freePage with
  | some n =>
    rw [free] at ran
    dsimp only at ran
    have clear := BPFileHeader.freePageClear free
    have small : n < 2 ^ 31 := by omega
    have notFirst : n ≠ 0 := by
      rintro rfl
      rw [header.first] at clear
      cases clear.2
    have taken : ¬file.NoPage outcomes := fun no => by
      rw [NoPage,free] at no
      cases no.1
    have okMarked := header.setBit clear.1 clear.2
    have marked : (file.write bpHeaderPage ((file.pool.setBit n).content outcomes.allocateLsn)).pool.fileHeader =
        (file.pool.setBit n).fileHeader := by
      rw [poolWritten]
      exact headerContent okMarked _
    have allocated := allocatedMarked small marked (le_refl _) clear.1 header.clear
    rcases fetched : fetch (outcomes.fetch (ofNat n)) (ofNat n)
      (file.write bpHeaderPage ((file.pool.setBit n).content outcomes.allocateLsn)) with ⟨answer,next⟩
    obtain ⟨rfl,answers⟩ := fetchCases fetched
    rw [fetched] at ran
    cases answer with
    | ok content =>
      cases ran
      exact ⟨rfl,marked ▸ okMarked,taken,pageNotHeader small notFirst,notAllocated small clear.2,allocated,
        fun other different _ => memoryElsewhere different⟩
    | error exit =>
      cases ran
      refine ⟨rfl,marked ▸ okMarked,answers.1,fun other different => memoryElsewhere different,Or.inr ⟨taken,?_⟩⟩
      exact ⟨ofNat n,notAllocated small clear.2,(allocated _).mpr (Or.inr rfl)⟩
  | none =>
    rw [free] at ran
    dsimp only at ran
    split at ran
    · rename_i full
      cases ran
      exact ⟨rfl,header,⟨_,rfl⟩,fun _ _ => rfl,Or.inl ⟨⟨free,Or.inl full⟩,fun _ => Iff.rfl⟩⟩
    · rename_i room
      cases failed : outcomes.frame with
      | some rc =>
        rw [failed] at ran
        cases ran
        have same : (file.write bpHeaderPage { file.headerPage with lsn := outcomes.allocateLsn }).pool.fileHeader =
            file.pool.fileHeader := by
          rw [poolWritten]
          rfl
        exact ⟨rfl,same ▸ header,⟨rc,rfl⟩,fun other different => memoryElsewhere different,
          Or.inl ⟨⟨free,Or.inr (by rw [failed]; exact Option.some_ne_none rc)⟩,allocatedCongr same⟩⟩
      | none =>
        rw [failed] at ran
        cases ran
        have clear := header.clear file.pool.fileHeader.pageCount (le_refl _)
        have small : file.pool.fileHeader.pageCount < 2 ^ 31 := by omega
        have some : file.pool.fileHeader.pageCount ≠ 0 := by
          have first := header.inside header.first
          omega
        have different := pageNotHeader small some
        have okExtended := header.grow (le_refl _) clear (by omega)
        have extended : ((file.write bpHeaderPage ((file.pool.setBit file.pool.fileHeader.pageCount).extend.content
            outcomes.allocateLsn)).write (ofNat file.pool.fileHeader.pageCount) .zero).pool.fileHeader =
            (file.pool.setBit file.pool.fileHeader.pageCount).extend.fileHeader := by
          rw [poolElsewhere different,poolWritten]
          exact headerContent okExtended _
        have allocated := allocatedMarked small extended (Nat.le_succ _) (Nat.lt_succ_self _) header.clear
        have taken : ¬file.NoPage outcomes := fun no => no.2.elim room fun frame => frame failed
        refine ⟨rfl,extended ▸ okExtended,taken,different,notAllocated small clear,allocated,fun other notHeader notNew => ?_⟩
        rw [memoryElsewhere notNew,memoryElsewhere notHeader]

theorem initEmptyPageCases (ran : initEmptyPage outcomes recordSize page file = (result,after)) :
    after.freePages = file.freePages ∧ (∀ other ≠ page, after.memory other = file.memory other) ∧ match result with
      | .ok content => after.memory page = some content ∧ ∃ before empty lsn,
        RecordPageHandler.initEmptyPage recordSize before = .ok empty ∧
          content = setLsn lsn empty
      | .error _ => True := by
  unfold initEmptyPage at ran
  rcases fetched : fetch outcomes.reload page file with ⟨answer,next⟩
  obtain ⟨rfl,_⟩ := fetchCases fetched
  cases answer with
  | error exit =>
    rw [bindError fetched] at ran
    cases ran
    exact ⟨rfl,fun _ _ => rfl,trivial⟩
  | ok content =>
    rw [bindOk fetched] at ran
    cases made : RecordPageHandler.initEmptyPage recordSize content with
    | error exit =>
      rw [made] at ran
      cases ran
      exact ⟨rfl,fun _ _ => rfl,trivial⟩
    | ok empty =>
      rw [made] at ran
      cases logged : outcomes.initLog with
      | error rc =>
        rw [logged] at ran
        cases ran
        exact ⟨rfl,fun other different => memoryElsewhere different,trivial⟩
      | ok lsn =>
        rw [logged] at ran
        cases ran
        exact ⟨rfl,fun other different => memoryElsewhere different,memoryWritten ..,content,empty,some lsn,made,rfl⟩

theorem poolCongr (memory : after.memory bpHeaderPage = file.memory bpHeaderPage) : after.pool = file.pool := by
  unfold pool headerPage
  rw [memory]

structure Extends (file after : RecordFile) (page : PageNum) : Prop where
  notHeader : page ≠ bpHeaderPage
  new : ¬file.Allocated page
  allocated : ∀ other, after.Allocated other ↔ file.Allocated other ∨ other = page
  others : ∀ other ≠ bpHeaderPage, other ≠ page → after.memory other = file.memory other
  header : HeaderOk after.pool.fileHeader

theorem Extends.congr {later} (extends_ : Extends file after page) (memory : ∀ other ≠ page, later.memory other = after.memory other) :
    Extends file later page := by
  have pool := poolCongr (memory _ (Ne.symm extends_.notHeader))
  refine ⟨extends_.notHeader,extends_.new,fun other => ?_,fun other notHeader notNew => ?_,pool ▸ extends_.header⟩
  · rw [allocatedCongr (congrArg DiskBufferPool.fileHeader pool),extends_.allocated]
  · rw [memory other notNew,extends_.others other notHeader notNew]

/-- What a call that fails has done: the free pages are passed up to one that cannot be fetched, or all of them are passed;
then none can be added, or one is and cannot be used. -/
def LeftBehind (outcomes : Outcomes) (file after : RecordFile) (passed rest : List PageNum) : Prop :=
  (∃ page later, rest = page :: later ∧ file.Unfetchable outcomes page ∧ after = file.erase passed) ∨
  (rest = [] ∧ file.NoPage outcomes ∧ after.freePages = (file.erase passed).freePages ∧
    (∀ page, after.Allocated page ↔ file.Allocated page) ∧ ∀ page ≠ bpHeaderPage, after.memory page = file.memory page) ∨
  (rest = [] ∧ ¬file.NoPage outcomes ∧ ∃ page, ¬file.Allocated page ∧ after.Allocated page)

theorem choosePageCases (header : HeaderOk file.pool.fileHeader) {result}
    (ran : choosePage outcomes recordSize file = (result,after)) :
    ∃ passed rest, outcomes.walk.1 file.freePages = passed ++ rest ∧
      (∀ page ∈ passed, ¬file.Unfetchable outcomes page ∧ ∃ content, file.memory page = some content ∧ isFull content) ∧
      match result with
      | .ok (page,content) =>
        (page ∈ file.freePages ∧ file.memory page = some content ∧ ¬isFull content ∧ after = file.erase passed) ∨
        (rest = [] ∧ ¬file.NoPage outcomes ∧ Extends file after page ∧ after.freePages = ((file.erase passed).addFree page).freePages ∧
          after.memory page = some content ∧ ∃ before empty lsn, RecordPageHandler.initEmptyPage recordSize before = .ok empty ∧
            content = setLsn lsn empty)
      | .error _ => LeftBehind outcomes file after passed rest := by
  unfold choosePage at ran
  rw [bindOk (readApply _ _)] at ran
  rcases searched : search outcomes (outcomes.walk.1 file.freePages) file with ⟨answer,mid⟩
  obtain ⟨passed,rest,parts,rfl,all,ends⟩ := searchCases searched
  refine ⟨passed,rest,parts,all,?_⟩
  cases answer with
  | error exit =>
    rw [bindError searched] at ran
    cases ran
    obtain ⟨_,page,later,same,cannot⟩ := ends
    exact Or.inl ⟨page,later,same,cannot,rfl⟩
  | ok found =>
    rw [bindOk searched] at ran
    cases found with
    | some found =>
      cases ran
      obtain ⟨inside,memory,room⟩ := ends
      exact Or.inl ⟨(outcomes.walk.2 file.freePages).mem_iff.mp inside,memory,room,rfl⟩
    | none =>
      dsimp only at ran ends
      -- the header page is not touched by the search
      rcases allocates : allocatePage outcomes (file.erase passed) with ⟨took,marked⟩
      have erased : HeaderOk (file.erase passed).pool.fileHeader := header
      obtain ⟨free,ok,cases_⟩ := allocateCases erased allocates
      cases took with
      | error exit =>
        rw [bindError allocates] at ran
        cases ran
        obtain ⟨_,memory,no | taken⟩ := cases_
        · exact Or.inr (Or.inl ⟨ends,no.1,free,no.2,memory⟩)
        · exact Or.inr (Or.inr ⟨ends,taken⟩)
      | ok page =>
        rw [bindOk allocates] at ran
        obtain ⟨taken,notHeader,new,allocated,others⟩ := cases_
        have extended : Extends file marked page := ⟨notHeader,new,allocated,others,ok⟩
        rcases inits : initEmptyPage outcomes recordSize page marked with ⟨made,next⟩
        obtain ⟨sameFree,sameMemory,content⟩ := initEmptyPageCases inits
        have later := extended.congr sameMemory
        cases made with
        | error exit =>
          rw [bindError inits] at ran
          cases ran
          exact Or.inr (Or.inr ⟨ends,taken,page,new,(later.allocated page).mpr (Or.inr rfl)⟩)
        | ok empty =>
          rw [bindOk inits,bindOk (updateApply _ _)] at ran
          cases ran
          refine Or.inr ⟨ends,taken,later.congr fun _ _ => rfl,?_,content⟩
          show next.freePages.insert page = (file.erase passed).freePages.insert page
          rw [sameFree,free]

theorem insertRecordCode {lsn} (room : ¬isFull content) :
    RowRecordPageHandler.insertRecord lsn data content ≠ .error (.rc rc) := by
  intro failed
  unfold RowRecordPageHandler.insertRecord at failed
  split at failed
  · rename_i same
    exact room (by rw [isFull,same])
  · split at failed
    · cases failed
    · dsimp only at failed
      split at failed
      · split at failed
        · cases failed
        · cases failed
      · cases failed

theorem insertErrorCases (header : HeaderOk file.pool.fileHeader)
    (ran : insertRecord outcomes recordSize data file = (.error (.rc rc),after)) :
    ∃ passed rest, outcomes.walk.1 file.freePages = passed ++ rest ∧ (∀ page ∈ passed, ¬file.Unfetchable outcomes page) ∧
      LeftBehind outcomes file after passed rest := by
  unfold insertRecord at ran
  rcases chosen : choosePage outcomes recordSize file with ⟨answer,mid⟩
  obtain ⟨passed,rest,parts,all,ends⟩ := choosePageCases header chosen
  refine ⟨passed,rest,parts,fun page inside => (all page inside).1,?_⟩
  cases answer with
  | error exit =>
    rw [bindError chosen] at ran
    cases ran
    exact ends
  | ok found =>
    obtain ⟨page,content⟩ := found
    rw [bindOk chosen] at ran
    dsimp only at ran ends
    cases placed : RowRecordPageHandler.insertRecord outcomes.insertLog data content with
    | ok pair =>
      rw [placed] at ran
      cases ran
    | error exit =>
      rw [placed] at ran
      cases ran
      rcases ends with ⟨_,_,room,_⟩ | ⟨last,taken,extended,_⟩
      · exact absurd placed (insertRecordCode room)
      · exact Or.inr (Or.inr ⟨last,taken,page,extended.new,(extended.allocated page).mpr (Or.inr rfl)⟩)

/-- Nothing has happened when the call fails: the first free page cannot be fetched, or there is none and `allocate_page`
fails before it marks a page. -/
def Untouched (outcomes : Outcomes) (file : RecordFile) : Prop := match outcomes.walk.1 file.freePages with
  | first :: _ => file.Unfetchable outcomes first
  | [] => file.NoPage outcomes

theorem unchangedIff (header : HeaderOk file.pool.fileHeader) {recordSize : Nat} {data : Bytes} {rc : RC}
    (ran : insertRecord outcomes recordSize data file = (.error (.rc rc),after)) : Unchanged file after ↔ file.Untouched outcomes := by
  obtain ⟨passed,rest,parts,fetched,cases_⟩ := insertErrorCases header ran
  unfold Untouched
  rw [parts]
  cases passed with
  | nil =>
    rw [nil_append]
    rcases cases_ with ⟨page,later,rfl,cannot,rfl⟩ | ⟨rfl,no,free,allocated,memory⟩ | ⟨rfl,taken,page,new,there⟩
    · rw [eraseNil]
      exact iff_of_true ⟨fun _ => Iff.rfl,fun _ => Iff.rfl,fun _ => rfl⟩ cannot
    · rw [eraseNil] at free
      exact iff_of_true ⟨allocated,fun page => by rw [free],recordCongr allocated memory⟩ no
    · exact iff_of_false (fun same => new ((same.allocated page).mp there)) taken
  | cons first passed =>
    have was : first ∈ file.freePages := (outcomes.walk.2 file.freePages).mem_iff.mp (by rw [parts]; exact mem_cons_self)
    have gone : first ∉ (file.erase (first :: passed)).freePages := by
      intro inside
      have kept := (mem_filter.mp inside).2
      simp at kept
    refine iff_of_false (fun same => ?_) (fetched first mem_cons_self)
    rcases cases_ with ⟨page,later,_,_,rfl⟩ | ⟨_,_,free,_⟩ | ⟨_,_,page,new,there⟩
    · exact gone ((same.freePages first).mpr was)
    · exact gone (free ▸ (same.freePages first).mpr was)
    · exact new ((same.allocated page).mp there)

end RecordFile

/-! A file that was just created. -/

def newFile : RecordFile where
  memory page := if page = bpHeaderPage then some ((DiskBufferPool.created 1).content 0) else none
  freePages := []

def answering (fault : Option RC) : Outcomes where
  walk := ⟨id,fun _ => .refl _⟩
  fetch _ := fault
  frame := none
  reload := none
  allocateLsn := 1
  initLog := .ok 2
  insertLog := some 3

theorem newHeader : newFile.pool.fileHeader = (DiskBufferPool.created 1).fileHeader := headerContent (HeaderOk.created 1) 0

theorem newHeaderOk : HeaderOk newFile.pool.fileHeader := newHeader ▸ HeaderOk.created 1

theorem newFreePage : newFile.pool.freePage = none := by
  unfold DiskBufferPool.freePage
  rw [newHeader]
  rfl

def oneMore : RecordFile :=
  (newFile.write bpHeaderPage ((newFile.pool.setBit 1).extend.content 1)).write 1 .zero

theorem oneMoreAllocated : allocatePage (answering none) newFile = (.ok 1,oneMore) := by
  have count : newFile.pool.fileHeader.pageCount = 1 := by
    rw [newHeader]
    rfl
  unfold allocatePage
  rw [newFreePage,count]
  rfl

theorem oneMoreHeader : HeaderOk oneMore.pool.fileHeader := (allocateCases newHeaderOk oneMoreAllocated).2.1

/-- A page of two slots, just initialised. -/
def blank : Content := setLsn (some 2) (emptied 4000 32 2 .zero)

def oneFree : RecordFile := (oneMore.write 1 blank).addFree 1

theorem freeNotFetched : ∃ after,
    insertRecord (answering (some .ioerrRead)) 4000 (replicate 4000 7) oneFree = (.error (.rc .ioerrRead),after) ∧
      oneFree.freePages = [1] ∧ RecordFile.Unchanged oneFree after := by
  have ran : insertRecord (answering (some .ioerrRead)) 4000 (replicate 4000 7) oneFree = (.error (.rc .ioerrRead),oneFree) := rfl
  have header : HeaderOk oneFree.pool.fileHeader := by
    have pool : (oneMore.write 1 blank).pool = oneMore.pool := poolElsewhere (by decide)
    exact pool ▸ oneMoreHeader
  exact ⟨oneFree,ran,rfl,(unchangedIff header ran).mpr (Or.inl (Option.some_ne_none _))⟩

def slotless : Content := setLsn (some 2) (emptied 9000 32 0 .zero)

variable {recordSize : Nat} {empty : Content}

theorem newPageMade (made : RecordPageHandler.initEmptyPage recordSize .zero = .ok empty) :
    initEmptyPage (answering none) recordSize 1 oneMore =
      (.ok (setLsn (some 2) empty),oneMore.write 1 (setLsn (some 2) empty)) := by
  have fetched : fetch (answering none).reload 1 oneMore = (.ok .zero,oneMore) := rfl
  unfold initEmptyPage
  rw [bindOk fetched,made]
  rfl

theorem slotlessRefuses (lsn : Option Int64) (data : Bytes) :
    RowRecordPageHandler.insertRecord lsn data slotless = .error (.rc .recordNomem) := by
  have header : RecordPageHandler.header slotless = ⟨0,0,9000,9000,0,32,32⟩ := by
    rw [slotless,RecordPageHandler.header,dataSetLsn]
    exact headerEmptied
  unfold RowRecordPageHandler.insertRecord
  rw [header]
  rfl

theorem newPageChosen (made : RecordPageHandler.initEmptyPage recordSize .zero = .ok empty) :
    choosePage (answering none) recordSize newFile = (.ok (1,setLsn (some 2) empty),
      (oneMore.write 1 (setLsn (some 2) empty)).addFree 1) := by
  have searched : search (answering none) ((answering none).walk.1 newFile.freePages) newFile = (.ok none,newFile) := rfl
  unfold choosePage
  rw [bindOk (readApply _ _),bindOk searched]
  dsimp only
  rw [bindOk oneMoreAllocated,bindOk (newPageMade made)]
  rfl

theorem RecordFile.insertRefused {file after outcomes data page content exit}
    (chosen : choosePage outcomes recordSize file = (.ok (page,content),after))
    (refused : RowRecordPageHandler.insertRecord outcomes.insertLog data content = .error exit) :
    insertRecord outcomes recordSize data file = (.error exit,after) := by
  unfold insertRecord
  rw [bindOk chosen]
  dsimp only
  rw [refused]
  rfl

/-- A record that is larger than a page: the new page stays allocated and free, without a slot. -/
theorem tooLargeKept : ∃ after, insertRecord (answering none) 9000 (replicate 9000 1) newFile =
      (.error (.rc .recordNomem),after) ∧ ¬newFile.Allocated 1 ∧ after.Allocated 1 ∧ newFile.freePages = [] ∧ after.freePages = [1] := by
  obtain ⟨_,_,_,_,new,allocated,_⟩ := allocateCases newHeaderOk oneMoreAllocated
  refine ⟨(oneMore.write 1 slotless).addFree 1,insertRefused (newPageChosen rfl) (slotlessRefuses _ _),new,?_,rfl,rfl⟩
  have pool : (oneMore.write 1 slotless).pool = oneMore.pool := poolElsewhere (by decide)
  exact (allocatedCongr (congrArg DiskBufferPool.fileHeader pool) 1).mpr ((allocated 1).mpr (Or.inr rfl))

end MiniOb.Record
