import MiniOb.Lib.Runs
import MiniOb.Record.InsertFailure

/-! Whole runs of inserts and deletes on a heap file, with the file closed and opened again in between. -/
namespace MiniOb.Record
open Buffer Prog RecordPageHandler List Function Int32 DiskBufferPool Option

theorem slotsData (same : page.data = other.data) : slots page = slots other := by
  have header : header page = header other := congrArg PageHeader.read same
  unfold slots slotBit slotData capacity realSize slotSize dataOffset bitmap
  rw [header,same]

theorem pageOkData (same : page.data = other.data) (ok : PageOk other) : PageOk page := by
  have header : header page = header other := congrArg PageHeader.read same
  have bits : slotBit page = slotBit other := by
    unfold slotBit bitmap
    rw [header,same]
  have capacity : capacity page = capacity other := by rw [capacity,header,capacity]
  have layout : SameLayout other page := ⟨by rw [header],by rw [header],by rw [header],by rw [header]⟩
  exact ⟨header ▸ ok.low,by rw [header,bits,capacity]; exact ok.counted,fun some => layout.laid (ok.laid (capacity ▸ some))⟩

structure HeapPages (file : RecordFile) : Prop where
  header : HeaderOk file.pool.fileHeader
  pages : ∀ page ≠ bpHeaderPage, file.Allocated page → ∃ content, file.memory page = some content ∧ PageOk content

def HasRoom (file : RecordFile) (page : PageNum) : Prop := page ≠ bpHeaderPage ∧ file.Allocated page ∧
  ∃ content, file.memory page = some content ∧ ∃ slot < capacity content, slots content slot = none

structure Heap (file : RecordFile) : Prop extends HeapPages file where
  complete : ∀ page, HasRoom file page → page ∈ file.freePages
  free : ∀ page ∈ file.freePages, page ≠ bpHeaderPage ∧ file.Allocated page

theorem HeapPages.pageOk (heap : HeapPages file) (notHeader : page ≠ bpHeaderPage)
    (there : file.Allocated page) {content} (memory : file.memory page = some content) : PageOk content := by
  obtain ⟨_,again,ok⟩ := heap.pages page notHeader there
  rw [memory] at again
  cases again
  exact ok

namespace RecordFile
variable {file mid after : RecordFile} {page : PageNum} {content new : Content} {outcomes : Outcomes}

theorem recordWrite (there : file.Allocated page) (notHeader : page ≠ bpHeaderPage) (memory : file.memory page = some content)
    (small : index < 2 ^ 31) (changed : slots new = update (slots content) index value) :
    (file.write page new).record = update file.record ⟨page,ofNat index⟩ value := by
  have pool : (file.write page new).pool = file.pool := poolElsewhere notHeader
  have allocated := allocatedCongr (congrArg fileHeader pool)
  funext rid
  obtain ⟨other,slot⟩ := rid
  by_cases same : other = page
  · subst same
    by_cases low : 0 ≤ slot.toInt
    · by_cases here : natOf slot = index
      · subst here
        rw [ofNatNatOf low,update_self,record,if_pos ⟨(allocated _).mpr there,notHeader,low⟩,memoryWritten,bind_some,
          changed,update_self]
      · have different : (⟨other,slot⟩ : RID) ≠ ⟨other,ofNat index⟩ := fun equal => by
          rw [(RID.mk.inj equal).2,natOfOfNat small] at here
          exact here rfl
        rw [update_of_ne different,record,record,if_pos ⟨(allocated _).mpr there,notHeader,low⟩,if_pos ⟨there,notHeader,low⟩,
          memoryWritten,memory,bind_some,bind_some,changed,update_of_ne here]
    · have different : (⟨other,slot⟩ : RID) ≠ ⟨other,ofNat index⟩ := fun equal => by
        rw [(RID.mk.inj equal).2,toInt_ofNat_of_lt small] at low
        exact low (Int.natCast_nonneg index)
      rw [update_of_ne different,record,record,if_neg fun both => low both.2.2,if_neg fun both => low both.2.2]
  · have different : (⟨other,slot⟩ : RID) ≠ ⟨page,ofNat index⟩ := fun equal => same (RID.mk.inj equal).1
    rw [update_of_ne different,record,record,memoryElsewhere same]
    simp only [allocated]

theorem Extends.record (extended : Extends file after page) (memory : after.memory page = some content)
    (empty : slots content = fun _ => none) : after.record = file.record := by
  funext rid
  by_cases same : rid.pageNum = page
  · rw [RecordFile.record,RecordFile.record,same,if_neg fun both : file.Allocated page ∧ _ => extended.new both.1,memory]
    split
    · rw [bind_some,empty]
    · rfl
  · rw [RecordFile.record,RecordFile.record]
    by_cases there : file.Allocated rid.pageNum ∧ rid.pageNum ≠ bpHeaderPage ∧ 0 ≤ rid.slotNum.toInt
    · rw [if_pos there,if_pos ⟨(extended.allocated _).mpr (Or.inl there.1),there.2⟩,extended.others _ there.2.1 same]
    · rw [if_neg there,if_neg fun both => there ⟨((extended.allocated _).mp both.1).resolve_right same,both.2⟩]

theorem heapWrite (heap : HeapPages file) (notHeader : page ≠ bpHeaderPage) (ok : PageOk new) {freePages}
    (listed : ∀ other ≠ page, HasRoom file other → other ∈ freePages) (here : page ∈ freePages)
    (free : ∀ other ∈ freePages, other ≠ bpHeaderPage ∧ file.Allocated other) :
    Heap { file.write page new with freePages := freePages } := by
  have pool : (file.write page new).pool = file.pool := poolElsewhere notHeader
  have allocated := allocatedCongr (congrArg fileHeader pool)
  refine ⟨⟨?_,fun other notHeader live => ?_⟩,fun other room => ?_,fun other inside => ?_⟩
  · show HeaderOk (file.write page new).pool.fileHeader
    rw [pool]
    exact heap.header
  · by_cases same : other = page
    · exact ⟨new,same ▸ memoryWritten file page new,ok⟩
    · obtain ⟨content,memory,fine⟩ := heap.pages other notHeader ((allocated other).mp live)
      exact ⟨content,(memoryElsewhere same).trans memory,fine⟩
  · by_cases same : other = page
    · exact same ▸ here
    · obtain ⟨notHeader,live,content,memory,slot⟩ := room
      exact listed other same ⟨notHeader,(allocated other).mp live,content,(memoryElsewhere same).symm.trans memory,slot⟩
  · obtain ⟨different,live⟩ := free other inside
    exact ⟨different,(allocated other).mpr live⟩

structure Inserted (file after : RecordFile) (rid : RID) (bytes : Bytes) : Prop where
  heap : Heap after
  absent : file.record rid = none
  record : after.record = update file.record rid (some bytes)
  grows : (∃ page, after.Allocated page ∧ ¬file.Allocated page) → ∀ page, ¬HasRoom file page

def stored (after : RecordFile) (rid : RID) (data : Bytes) : Bytes := data.take (((after.memory rid.pageNum).map realSize).getD 0)

theorem storedWrite (layout : SameLayout content new) :
    (file.write page new).stored ⟨page,ofNat index⟩ data = data.take (realSize content) := by
  have real : realSize new = realSize content := congrArg natOf layout.real
  show data.take ((((file.write page new).memory page).map realSize).getD 0) = _
  rw [memoryWritten,map_some,getD_some,real]

theorem fullRefuses (ok : PageOk content) (full : isFull content) (lsn : Option Int64) (data : Bytes) :
    RowRecordPageHandler.insertRecord lsn data content = .error (.rc .recordNomem) := by
  have le := ok.recordNumLe
  have same : (header content).recordNum = (header content).recordCapacity := by
    rw [isFull,ok.capacityInt] at full
    exact toInt_inj.mp (by rw [ok.capacityInt]; omega)
  exact if_pos same

theorem hasRoom (heap : HeapPages file) (notHeader : page ≠ bpHeaderPage) (there : file.Allocated page)
    (memory : file.memory page = some content) : HasRoom file page ↔ ¬isFull content := by
  rw [(heap.pageOk notHeader there memory).notFull]
  constructor
  · rintro ⟨_,_,found,here,slot⟩
    rw [memory] at here
    cases here
    exact slot
  · exact fun slot => ⟨notHeader,there,content,memory,slot⟩

theorem insertedOk (heap : Heap file) {recordSize data rid}
    (ran : insertRecord outcomes recordSize data file = (.ok rid,after)) : Inserted file after rid (after.stored rid data) := by
  unfold insertRecord at ran
  rcases chosen : choosePage outcomes recordSize file with ⟨answer,mid⟩
  obtain ⟨passed,rest,parts,fetched,ends⟩ := choosePageCases heap.header chosen
  have notPassed : ∀ other, HasRoom file other → other ∉ passed :=
    fun other room inside => by
      obtain ⟨content,memory,full⟩ := (fetched other inside).2
      exact (hasRoom heap.toHeapPages room.1 room.2.1 memory).mp room full
  cases answer with
  | error exit =>
    rw [bindError chosen] at ran
    cases ran
  | ok found =>
    obtain ⟨page,content⟩ := found
    rw [bindOk chosen] at ran
    dsimp only at ran ends
    cases placed : RowRecordPageHandler.insertRecord outcomes.insertLog data content with
    | error exit =>
      rw [placed] at ran
      cases ran
    | ok pair =>
      obtain ⟨index,new⟩ := pair
      rw [placed] at ran
      cases ran
      rcases ends with ⟨listed,memory,room,rfl⟩ | ⟨rfl,_,extended,free,memory,before,empty,lsn,made,rfl⟩
      · -- into a page that is not full
        obtain ⟨notHeader,there⟩ := heap.free page listed
        have ok := heap.pageOk notHeader there memory
        obtain ⟨inside,none,okNew,layout,changed⟩ := insertRecordOk ok room placed
        have small : index < 2 ^ 31 := inside.trans (capacityLess content)
        have here := notPassed page ⟨notHeader,there,content,memory,index,inside,none⟩
        refine ⟨heapWrite heap.toHeapPages notHeader okNew (fun other _ room => ?_) ?_ (fun other inside => ?_),?_,?_,fun grown => ?_⟩
        · exact mem_filter.mpr ⟨heap.complete other room,decide_eq_true (notPassed other room)⟩
        · exact mem_filter.mpr ⟨listed,decide_eq_true here⟩
        · exact heap.free other (mem_filter.mp inside).1
        · rw [record,if_pos ⟨there,notHeader,by rw [toInt_ofNat_of_lt small]; exact Int.natCast_nonneg index⟩,memory,
            natOfOfNat small]
          exact none
        · rw [storedWrite layout]
          exact recordWrite there notHeader memory small changed
        · obtain ⟨other,live,dead⟩ := grown
          have pool : ((file.erase passed).write page new).pool = file.pool := poolElsewhere notHeader
          exact absurd ((allocatedCongr (congrArg fileHeader pool) other).mp live) dead
      · -- into a new page
        rw [append_nil] at parts
        obtain ⟨ok,blank,_⟩ := initEmptyPageOk made
        have sameData : (setLsn lsn empty).data = empty.data := dataSetLsn lsn
        have okSet := pageOkData sameData ok
        have room : ¬isFull (setLsn lsn empty) := fun full => by
          rw [fullRefuses okSet full] at placed
          cases placed
        obtain ⟨inside,none,okNew,layout,changed⟩ := insertRecordOk okSet room placed
        have small : index < 2 ^ 31 := inside.trans (capacityLess _)
        have old : ∀ other ≠ page, HasRoom mid other → HasRoom file other := by
          rintro other different ⟨notHeader,live,content,memory,slot⟩
          rw [extended.others other notHeader different] at memory
          exact ⟨notHeader,((extended.allocated other).mp live).resolve_right different,content,memory,slot⟩
        have pages : HeapPages mid := by
          refine ⟨extended.header,fun other notHeader live => ?_⟩
          by_cases same : other = page
          · exact ⟨_,same ▸ memory,okSet⟩
          · rw [extended.others other notHeader same]
            exact heap.pages other notHeader (((extended.allocated other).mp live).resolve_right same)
        have member : ∀ other, other ∈ mid.freePages ↔ other = page ∨ other ∈ (file.erase passed).freePages := fun other => by
          rw [free]
          exact mem_insert_iff
        refine ⟨heapWrite pages extended.notHeader okNew (fun other different room => ?_) ?_ (fun other inside => ?_),?_,
          ?_,fun _ other room => ?_⟩
        · exact (member other).mpr (Or.inr (mem_filter.mpr ⟨heap.complete other (old other different room),
            decide_eq_true (notPassed other (old other different room))⟩))
        · exact (member page).mpr (Or.inl rfl)
        · rcases (member other).mp inside with rfl | kept
          · exact ⟨extended.notHeader,(extended.allocated _).mpr (Or.inr rfl)⟩
          · obtain ⟨notHeader,live⟩ := heap.free other (mem_filter.mp kept).1
            exact ⟨notHeader,(extended.allocated other).mpr (Or.inl live)⟩
        · exact if_neg fun both => extended.new both.1
        · rw [storedWrite layout,← extended.record memory ((slotsData sameData).trans blank)]
          exact recordWrite ((extended.allocated page).mpr (Or.inr rfl)) extended.notHeader memory small changed
        · exact notPassed other room (parts ▸ (outcomes.walk.2 file.freePages).mem_iff.mpr (heap.complete other room))

def SlotOf (file : RecordFile) (rid : RID) : Prop := rid.pageNum ≠ bpHeaderPage ∧ file.Allocated rid.pageNum ∧ 0 ≤ rid.slotNum.toInt ∧
  ∀ content, file.memory rid.pageNum = some content → natOf rid.slotNum < capacity content

theorem deletedOk (heap : Heap file) {rid fault lsn} (slot : file.SlotOf rid)
    (ran : deleteRecord fault lsn rid file = (.ok (),after)) :
    Heap after ∧ file.record rid ≠ none ∧ after.record = update file.record rid none := by
  obtain ⟨page,number⟩ := rid
  obtain ⟨notHeader,there,low,below⟩ := slot
  dsimp only at notHeader there low below
  unfold deleteRecord at ran
  rcases fetched : fetch fault page file with ⟨answer,mid⟩
  obtain ⟨rfl,what⟩ := fetchCases fetched
  cases answer with
  | error exit =>
    rw [bindError fetched] at ran
    cases ran
  | ok content =>
    have memory : mid.memory page = some content := what.2
    have ok := heap.pageOk notHeader there memory
    have inside := below content memory
    have index := ofNatNatOf low
    rw [bindOk fetched] at ran
    rw [← index] at ran
    cases vacated : RowRecordPageHandler.deleteRecord lsn (ofNat (natOf number)) content with
    | error exit =>
      rw [vacated] at ran
      cases ran
    | ok new =>
      rw [vacated] at ran
      cases ran
      obtain ⟨there',okNew,_,changed⟩ := deleteRecordOk ok inside vacated
      refine ⟨heapWrite heap.toHeapPages notHeader okNew (fun other _ room => ?_) mem_insert_self (fun other inside => ?_),?_,?_⟩
      · exact mem_insert_of_mem (heap.complete other room)
      · rcases mem_insert_iff.mp inside with rfl | old
        · exact ⟨notHeader,there⟩
        · exact heap.free other old
      · rw [record,if_pos ⟨there,notHeader,low⟩,memory]
        exact there'
      · conv_rhs => rw [← index]
        exact recordWrite there notHeader memory (inside.trans (capacityLess content)) changed

/-! Opening the file again. -/

theorem bitmapBit (page : Nat) : file.bitmap.getBit page = file.pool.fileHeader.bitmap page := rfl

theorem settedPages (ok : HeaderOk file.pool.fileHeader) (page : Nat) :
    page ∈ file.bitmap.setted 1 ↔ page < 2 ^ 31 ∧ ofNat page ≠ bpHeaderPage ∧ file.Allocated (ofNat page) := by
  have bound : file.pool.fileHeader.pageCount < 2 ^ 31 := ok.fits.trans_lt (by decide)
  have size : file.bitmap.size = file.pool.fileHeader.pageCount := rfl
  rw [Bitmap.setted,mem_filter,mem_range'_1,bitmapBit,size]
  constructor
  · rintro ⟨⟨above,below⟩,set⟩
    have small : page < 2 ^ 31 := by omega
    refine ⟨small,fun zero => ?_,?_⟩
    · have numbers := (ofNatPage small bpHeaderPage).mp zero.symm
      have none : natOf bpHeaderPage = 0 := rfl
      omega
    · rw [Allocated,toInt_ofNat_of_lt small,natOfOfNat small]
      exact ⟨Int.natCast_nonneg page,by omega,set⟩
  · rintro ⟨small,notHeader,_,below,set⟩
    rw [natOfOfNat small] at below set
    have positive : page ≠ 0 := by
      rintro rfl
      exact notHeader rfl
    exact ⟨⟨by omega,by omega⟩,set⟩

theorem pagesSetted (bits : Bitmap) (start : Nat) : BufferPoolIterator.pages bits start = bits.setted start := by
  fun_induction BufferPoolIterator.pages bits start with
  | case1 start found => rw [Bitmap.settedNext,found]
  | case2 start page found ih => rw [Bitmap.settedNext,found,ih]

theorem initFreePagesOk (heap : HeapPages file)
    (inside : ∀ page ∈ pages, ofNat page ≠ bpHeaderPage ∧ file.Allocated (ofNat page) ∧ fetches (ofNat page) = none)
    (free : List PageNum) :
    ∃ later, initFreePages fetches pages { file with freePages := free } = (.ok (),{ file with freePages := later }) ∧
      ∀ page, page ∈ later ↔ page ∈ free ∨ HasRoom file page ∧ page ∈ pages.map ofNat := by
  induction pages generalizing free with
  | nil => exact ⟨free,rfl,fun page => by simp⟩
  | cons number rest ih =>
    obtain ⟨⟨notHeader,there,fine⟩,others⟩ := forall_mem_cons.mp inside
    obtain ⟨content,memory,_⟩ := heap.pages _ notHeader there
    have room := hasRoom heap notHeader there memory
    have fetched : fetch (fetches (ofNat number)) (ofNat number) { file with freePages := free } =
        (.ok content,{ file with freePages := free }) := by
      unfold fetch
      rw [fine]
      rw [memory]
    unfold initFreePages
    rw [bindOk fetched]
    by_cases full : isFull content
    · obtain ⟨later,ran,members⟩ := ih others free
      refine ⟨later,?_,fun page => ?_⟩
      · rw [whenever,if_neg (not_not.mpr full)]
        exact ran
      · rw [members page]
        refine or_congr_right (and_congr_right fun has => ?_)
        rw [map_cons,mem_cons,or_iff_right]
        rintro rfl
        exact room.mp has full
    · obtain ⟨later,ran,members⟩ := ih others (free.insert (ofNat number))
      refine ⟨later,?_,fun page => ?_⟩
      · rw [whenever,if_pos full]
        exact ran
      · rw [members page,mem_insert_iff,map_cons,mem_cons]
        constructor
        · rintro ((rfl | old) | ⟨has,later⟩)
          · exact Or.inr ⟨room.mpr full,Or.inl rfl⟩
          · exact Or.inl old
          · exact Or.inr ⟨has,Or.inr later⟩
        · rintro (old | ⟨has,rfl | later⟩)
          · exact Or.inl (Or.inr old)
          · exact Or.inl (Or.inl rfl)
          · exact Or.inr ⟨has,later⟩

theorem reopenOk (heap : HeapPages file) (fetched : ∀ page, file.Allocated page → fetches page = none) :
    ∃ free, reopen fetches file = (.ok (),{ file with freePages := free }) ∧ Heap { file with freePages := free } := by
  have listed := settedPages heap.header
  have inside : ∀ page ∈ file.bitmap.setted 1,
      ofNat page ≠ bpHeaderPage ∧ file.Allocated (ofNat page) ∧ fetches (ofNat page) = none := by
    intro page member
    obtain ⟨_,notHeader,there⟩ := (listed page).mp member
    exact ⟨notHeader,there,fetched _ there⟩
  obtain ⟨free,ran,members⟩ := initFreePagesOk heap inside []
  have every : ∀ page, HasRoom file page → page ∈ free := fun page room => by
    have low := ofNatNatOf room.2.1.1
    refine (members page).mpr (Or.inr ⟨room,mem_map.mpr ⟨natOf page,(listed _).mpr ⟨?_,low.symm ▸ room.1,low.symm ▸ room.2.1⟩,low⟩⟩)
    have bound := page.toInt_lt
    unfold natOf
    omega
  refine ⟨free,?_,⟨⟨heap.header,heap.pages⟩,every,fun page member => ?_⟩⟩
  · unfold reopen
    rw [bindOk (updateApply _ _),bindOk (readApply _ _)]
    refine ignoreOk ?_
    rw [pagesSetted]
    exact ran
  · have room := (((members page).mp member).resolve_left not_mem_nil).1
    exact ⟨room.1,room.2.1⟩

end RecordFile
end MiniOb.Record
