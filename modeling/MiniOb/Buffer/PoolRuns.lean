import MiniOb.Buffer.PageStore

/-! Whole runs of several buffer pools over one set of frames and one double-write buffer. -/
namespace MiniOb.Buffer
open List Bytes Int32 Pools BPFrameManager

namespace BPFileHeader

theorem pageCountEncoded (header : BPFileHeader) (less : header.pageCount < 2 ^ 31) :
    (decode header.encode).pageCount = header.pageCount := by
  have field : int32At 4 header.encode = ofNat header.pageCount := by
    have skipped : header.encode.drop 4 = ofInt32 (ofNat header.pageCount) ++
        (ofInt32 (ofInt header.allocatedPages) ++ (range (bpPageDataSize - 12)).map header.bitmapByte) := by
      rw [encode]
      exact drop_left' (lengthOfInt32 _)
    rw [int32At,skipped,readInt32Append]
    rfl
  show (int32At 4 header.encode).toInt.toNat = header.pageCount
  rw [field,toInt_ofNat_of_lt less]
  exact Int.toNat_natCast _

theorem bitmapByteBit (header : BPFileHeader) (i : Nat) {k} (less : k < 8) :
    (header.bitmapByte i).toNat.testBit k = header.bitmap (8 * i + k) := by
  have packed : header.bitmapByte i = UInt8.ofNat (Bits.packed (fun bit => header.bitmap (8 * i + bit)) 8) := rfl
  rw [packed,UInt8.toNat_ofNat_of_lt' (Bits.packedLess _ 8)]
  exact Bits.testBitPacked _ less

variable {i : Nat}

theorem bitmapEncoded (header : BPFileHeader) (less : i < maxPageNum) : (decode header.encode).bitmap i = header.bitmap i := by
  have byte : header.encode.getD (12 + i / 8) 0 = header.bitmapByte (i / 8) := by
    have inside : i / 8 < bpPageDataSize - 12 := by
      unfold maxPageNum at less
      omega
    have skipped : header.encode[12 + i / 8]? = ((range (bpPageDataSize - 12)).map header.bitmapByte)[i / 8]? := by
      unfold encode
      rw [getElem?_append_right (by rw [lengthOfInt32]; omega),getElem?_append_right (by simp only [lengthOfInt32]; omega),
        getElem?_append_right (by simp only [lengthOfInt32]; omega)]
      simp only [lengthOfInt32]
      congr 1
      omega
    rw [getD_eq_getElem?_getD,skipped,getElem?_map,getElem?_range inside]
    rfl
  show (header.encode.getD (12 + i / 8) 0).toNat.testBit (i % 8) = _
  rw [byte,bitmapByteBit _ _ (Nat.mod_lt _ (by decide)),Nat.div_add_mod]

theorem bitmapBeyond {data} (size : data.length = bpPageDataSize) (beyond : maxPageNum ≤ i) : (decode data).bitmap i = false := by
  show (data.getD (12 + i / 8) 0).toNat.testBit (i % 8) = false
  rw [getD_eq_getElem?_getD,getElem?_eq_none]
  · exact Nat.zero_testBit _
  · unfold maxPageNum at beyond
    omega

theorem allocatedPagesEncoded (header : BPFileHeader) (low : -2 ^ 31 ≤ header.allocatedPages) (high : header.allocatedPages < 2 ^ 31) :
    (decode header.encode).allocatedPages = header.allocatedPages := by
  have field : int32At 8 header.encode = ofInt header.allocatedPages := by
    have skipped : header.encode.drop 8 = ofInt32 (ofInt header.allocatedPages) ++
        (range (bpPageDataSize - 12)).map header.bitmapByte := by
      rw [encode,← append_assoc]
      exact drop_left' rfl
    rw [int32At,skipped,readInt32Append]
    rfl
  show (int32At 8 header.encode).toInt = header.allocatedPages
  rw [field,toInt_ofInt_of_le low (by omega)]

theorem bufferPoolIdEncoded (header : BPFileHeader) : (decode header.encode).bufferPoolId = header.bufferPoolId := by
  show int32At 0 header.encode = header.bufferPoolId
  rw [int32At,drop_zero,encode,readInt32Append]
  rfl

theorem decodeEncode {header} (ok : HeaderOk header) : decode header.encode = header := by
  have bound : maxPageNum < 2 ^ 31 := by decide
  have count := Bits.populationLe header.bitmap header.pageCount
  have fits := ok.fits
  have counted := ok.counted
  have bitmap : (decode header.encode).bitmap = header.bitmap := by
    funext i
    rcases Nat.lt_or_ge i maxPageNum with inside | beyond
    · exact bitmapEncoded header inside
    · rw [bitmapBeyond header.encodeSize beyond,ok.clear i (by omega)]
  have all : decode header.encode = ⟨(decode header.encode).bufferPoolId,(decode header.encode).pageCount,
      (decode header.encode).allocatedPages,(decode header.encode).bitmap⟩ := rfl
  rw [all,bufferPoolIdEncoded,pageCountEncoded header (by omega),allocatedPagesEncoded header (by omega) (by omega),bitmap]

theorem pageCountLess (data : Bytes) : (decode data).pageCount < 2 ^ 31 := by
  have bound := toInt_lt (int32At 4 data)
  show (int32At 4 data).toInt.toNat < 2 ^ 31
  omega

end BPFileHeader

def Counted (opened : List Int32) (store : PageStore) : Prop :=
  ∀ pool ∈ opened,∃ content,store.memory (headerId pool) = some content ∧ 0 < content.pool.fileHeader.pageCount

namespace Counted
variable {opened : List Int32} {store : PageStore}

section
variable (counted : Counted opened store)
include counted

theorem hold (id : FrameId) : Counted opened (store.hold id) := counted

theorem getThisPage (id : FrameId) : Counted opened (store.getThisPage id).2 := by
  unfold PageStore.getThisPage
  split
  · exact counted
  · exact counted

theorem growOver (grown : Bool) (id : FrameId) : Counted opened (store.growOver grown id) := by
  unfold PageStore.growOver
  split
  · rename_i hole
    intro pool isOpen
    obtain ⟨content,there,positive⟩ := counted pool isOpen
    have different : headerId pool ≠ id := by
      intro same
      rw [same,hole.2] at there
      cases there
    exact ⟨content,(Function.update_of_ne different _ _).trans there,positive⟩
  · exact counted

theorem write {id} (content : Content) (plain : id.pageNum ≠ 0) :
    Counted opened (store.write id content) := by
  intro pool isOpen
  obtain ⟨header,there,positive⟩ := counted pool isOpen
  have different : headerId pool ≠ id := fun same => plain (same ▸ rfl)
  exact ⟨header,(Function.update_of_ne different _ _).trans there,positive⟩

theorem writeHeader {pool content}
    (positive : 0 < content.pool.fileHeader.pageCount) : Counted opened (store.write (headerId pool) content) := by
  intro other isOpen
  by_cases same : other = pool
  · rw [same]
    exact ⟨content,store.writeHere _ _,positive⟩
  · obtain ⟨header,there,positive⟩ := counted other isOpen
    have different : headerId other ≠ headerId pool := fun equal => same (congrArg DoubleWritePageKey.bufferPoolId equal)
    exact ⟨header,(Function.update_of_ne different _ _).trans there,positive⟩

end

end Counted

namespace Refines
variable {opened : List Int32} {pools : Pools} {store : PageStore} {id : FrameId} {frame : Frame}

theorem extendedNumber {count} (positive : 0 < count) (room : count < maxPageNum) : ofNat count ≠ 0 := by
  intro zero
  have less : count < 2 ^ 31 := room.trans (by decide)
  have value := toInt_ofNat_of_lt less
  rw [zero] at value
  have : (0 : Int32).toInt = 0 := by decide
  omega

variable {order : Order} {next : Pools}

section
variable (refines : Refines opened pools store) (counted : Counted opened store)
include refines counted

theorem allocatePage {pool} (isOpen : pool ∈ opened)
    (ok : pools.allocatePage order lsn grown pool = some (answer,next)) :
    ∃ store', store.allocatePage lsn grown pool = some (answer,store') ∧ Refines opened next store' ∧ Counted opened store' := by
  obtain ⟨header,found,-⟩ := refines.findHeld (show 0 < needed opened store (headerId pool) by rw [needed,if_pos ⟨rfl,isOpen⟩]; omega)
  have known := refines.memoryFound found
  obtain ⟨content,there,positive⟩ := counted pool isOpen
  rw [known] at there
  cases there
  unfold Pools.allocatePage at ok
  unfold PageStore.allocatePage
  rw [found] at ok
  rw [known,Option.map_some]
  dsimp only at ok ⊢
  have less := BPFileHeader.pageCountLess header.page.content.data
  cases free : header.page.content.pool.freePage with
  | some page =>
    rw [free] at ok
    have written := refines.writeFrame found ((header.page.content.pool.setBit page).content lsn)
    obtain ⟨same,kept⟩ := (written.grow grown ⟨pool,ofNat page⟩).get ok
    refine ⟨_,by rw [same],kept,Counted.getThisPage (Counted.growOver (Counted.writeHeader counted ?_) _ _) _⟩
    exact positive.trans_eq (BPFileHeader.pageCountEncoded (header.page.content.pool.setBit page).fileHeader less).symm
  | none =>
    rw [free] at ok
    dsimp only at ok ⊢
    split at ok
    · rename_i full
      cases ok
      rw [if_pos full]
      exact ⟨_,rfl,refines,counted⟩
    · rename_i room
      rw [if_neg room]
      obtain ⟨framed,allocated,rest⟩ := Option.map_eq_some_iff.mp ok
      have plain := extendedNumber positive (Nat.lt_of_not_le room)
      have different : headerId pool ≠ ⟨pool,ofNat header.page.content.pool.fileHeader.pageCount⟩ :=
        fun same => plain (congrArg DoubleWritePageKey.pageNum same).symm
      obtain ⟨frame,cleared,kept⟩ := refines.extend isOpen different _ allocated
      rw [cleared] at rest
      cases rest
      refine ⟨_,rfl,kept,Counted.hold (Counted.write (Counted.writeHeader counted ?_) _ plain) _⟩
      have small : header.page.content.pool.fileHeader.pageCount + 1 < 2 ^ 31 :=
        Nat.lt_of_le_of_lt (Nat.succ_le_of_lt (Nat.lt_of_not_le room)) (by decide)
      exact (Nat.succ_pos _).trans_eq (BPFileHeader.pageCountEncoded
        ((header.page.content.pool.setBit header.page.content.pool.fileHeader.pageCount).extend).fileHeader small).symm

theorem apply {call answer} (ok : call.apply order pools = some (answer,next)) :
    ∃ store', store.apply call = some (answer,store') ∧ Refines opened next store' ∧ Counted opened store' := by
  cases call with
  | allocatePage pool lsn grown =>
    rw [PoolCall.apply] at ok
    split at ok
    · rename_i isOpen
      rw [refines.sameOpened] at isOpen
      obtain ⟨r,allocated,last⟩ := Option.map_eq_some_iff.mp ok
      cases last
      obtain ⟨store',same,kept⟩ := refines.allocatePage counted isOpen allocated
      exact ⟨store',by rw [PageStore.apply,same]; rfl,kept⟩
    · cases ok
  | getThisPage id grown =>
    obtain ⟨r,gotten,last⟩ := Option.map_eq_some_iff.mp ok
    cases last
    obtain ⟨same,kept⟩ := (refines.grow grown id).get gotten
    exact ⟨_,by rw [same]; rfl,kept,(counted.growOver grown id).getThisPage id⟩
  | modify id content =>
    cases ok
    rw [PageStore.apply,refines.held]
    refine ⟨_,rfl,?_⟩
    split
    · rename_i allowed
      obtain ⟨frame,found,-⟩ := refines.findHeld (show 0 < needed opened store id by rw [needed]; omega)
      exact ⟨refines.writeFrame found content,counted.write content allowed.2⟩
    · exact ⟨refines,counted⟩
  | unpin id =>
    cases ok
    rw [PageStore.apply,refines.held]
    refine ⟨_,rfl,?_⟩
    split
    · rename_i some
      exact ⟨refines.unpin some,counted⟩
    · exact ⟨refines,counted⟩
  | flushPage id =>
    cases ok
    refine ⟨_,rfl,?_,counted⟩
    split
    · exact refines.flush order id
    · exact refines
  | flushAllPages pool =>
    cases ok
    exact ⟨_,rfl,refines.flushAll order pool,counted⟩
  | purgePage id =>
    cases ok
    exact ⟨_,rfl,refines.purge order id,counted⟩

theorem run {calls answers last} (ok : PoolCall.run calls pools = some (answers,last)) :
    ∃ store', store.run calls = some (answers,store') ∧ Refines opened last store' := by
  induction calls generalizing pools store answers with
  | nil =>
    cases ok
    exact ⟨store,rfl,refines⟩
  | cons head rest ih =>
    simp only [PoolCall.run,bind,Option.bind_eq_some_iff] at ok
    obtain ⟨⟨answer,next⟩,applied,⟨later,final⟩,ran,ends⟩ := ok
    cases ends
    obtain ⟨store',same,kept,stillCounted⟩ := refines.apply counted applied
    obtain ⟨end',sameRun,keptRun⟩ := ih kept stillCounted ran
    refine ⟨end',?_,keptRun⟩
    simp only [PageStore.run,bind,Option.bind_eq_some_iff]
    exact ⟨_,same,_,sameRun,rfl⟩

end

end Refines

namespace Pools

def opening (headers : List (Int32 × Page)) (frees : List Frame) (maxPages : Int32) (disk : Disk) : Pools where
  opened := headers.map Prod.fst
  manager := ⟨headers.map fun header => ⟨headerId header.1,1,false,header.2⟩,frees⟩
  dblwr := ⟨maxPages,0,[]⟩
  disk := disk
  held _ := 0

def Room (id : FrameId) (pools : Pools) : Prop :=
  pools.manager.find id ≠ none ∨ pools.manager.frees ≠ [] ∨ pools.manager.victim ≠ none

variable {pools : Pools} {frame : Frame} {id : FrameId}

theorem allocAfterFree {gone} (found : pools.manager.find gone = some frame) (id : FrameId) :
    ∃ manager,(pools.freeFrame gone).manager.alloc id = some manager := by
  rw [freeFrame,found,alloc]
  cases get id (pools.manager.free frame) with
  | some manager => exact ⟨manager,rfl⟩
  | none =>
    cases queue : (pools.manager.free frame).frees with
    | nil => simp [free] at queue
    | cons free rest => exact ⟨_,rfl⟩

theorem flushDirtyFinds (found : pools.manager.find id = some frame)
    (order : Order) (other : Frame) : ∃ left,(pools.flushDirty order other).manager.find id = some left := by
  unfold flushDirty
  split
  · have keeps : ∀ f : Frame, Frame.id { f with dirty := false, page := { other.page with checkSum := crc32 other.page.data } } = f.id :=
      fun _ => rfl
    rw [flushPageInternal]
    rw [findUpdate keeps]
    split
    · rename_i same
      rw [← same,found]
      exact ⟨_,rfl⟩
    · exact ⟨frame,found⟩
  · exact ⟨frame,found⟩

theorem allocateFrameReturns (order : Order) (room : pools.Room id) :
    ∃ next,pools.allocateFrame order id = some next := by
  unfold allocateFrame
  cases allocated : pools.manager.alloc id with
  | some manager => exact ⟨_,rfl⟩
  | none =>
    rw [alloc] at allocated
    cases found : pools.manager.find id with
    | some frame =>
      rw [getFound found] at allocated
      cases allocated
    | none =>
      rw [getNone found] at allocated
      have noFrees : pools.manager.frees = [] := by
        cases queue : pools.manager.frees with
        | nil => rfl
        | cons frame rest => simp [queue] at allocated
      cases oldest : pools.manager.victim with
      | none => simp [Room,found,noFrees,oldest] at room
      | some frame =>
        dsimp only
        obtain ⟨inside,-⟩ := victimMem oldest
        obtain ⟨first,there⟩ : ∃ first,pools.manager.find frame.id = some first :=
          Option.isSome_iff_exists.mp (find?_isSome.mpr ⟨frame,inside,by simp⟩)
        obtain ⟨left,still⟩ := flushDirtyFinds there order frame
        obtain ⟨manager,again⟩ := allocAfterFree still id
        exact ⟨_,by rw [again]; rfl⟩

theorem getThisPageReturns (order : Order) (room : pools.Room id) :
    ∃ result,pools.getThisPage order id = some result := by
  unfold getThisPage
  obtain ⟨next,allocated⟩ := allocateFrameReturns order room
  split
  · exact ⟨_,rfl⟩
  · rw [allocated]
    exact ⟨_,rfl⟩

end Pools

def PageStore.onDisk (disk : Disk) : PageStore := ⟨fun id => (readPage (disk.data id)).map Page.content,fun _ => 0⟩

variable {headers : List (Int32 × Page)} {frees : List Frame} {maxPages : Int32} {disk : Disk}

theorem openingFind {id frame} (found : (opening headers frees maxPages disk).manager.find id = some frame) :
    ∃ header ∈ headers, id = headerId header.1 ∧ frame = ⟨headerId header.1,1,false,header.2⟩ := by
  obtain ⟨header,inside,rfl⟩ := mem_map.mp (mem_of_find?_eq_some found)
  exact ⟨header,inside,(findId found).symm,rfl⟩

theorem openingRefines (distinct : (headers.map Prod.fst).Nodup) (clean : ∀ frame ∈ frees, frame.dirty = false)
    (there : ∀ header ∈ headers, readPage (disk.data (headerId header.1)) = some header.2) :
    Refines (headers.map Prod.fst) (opening headers frees maxPages disk) (PageStore.onDisk disk) := by
  have below : ∀ id, lower (opening headers frees maxPages disk).dblwr disk id = (PageStore.onDisk disk).memory id :=
    fun id => lowerNone rfl
  have loaded : ∀ id frame, (opening headers frees maxPages disk).manager.find id = some frame →
      (PageStore.onDisk disk).memory id = some frame.page.content := by
    intro id frame found
    obtain ⟨header,inside,rfl,rfl⟩ := openingFind found
    rw [PageStore.onDisk]
    dsimp only
    rw [there header inside]
    rfl
  constructor
  case sameOpened => rfl
  case distinct =>
    rw [opening]
    rw [map_map]
    have pairs : (headers.map Prod.fst).map headerId = headers.map (Frame.id ∘ fun header =>
        ⟨headerId header.1,1,false,header.2⟩) := map_map
    rw [← pairs]
    exact distinct.map fun a b same => congrArg DoubleWritePageKey.bufferPoolId same
  case frees => exact clean
  case dblwr => exact ⟨nodup_nil,fun _ inside => by cases inside⟩
  case clean => exact fun id frame found _ => (below id).trans (loaded id frame found)
  case same =>
    intro id
    cases found : (opening headers frees maxPages disk).manager.find id with
    | some frame => exact (Refines.currentFound found).trans (loaded id frame found).symm
    | none => exact (Refines.currentNone found).trans (below id)
  case held => rfl
  case pinned =>
    intro id
    rw [needed]
    split
    · rename_i isHeader
      obtain ⟨header,inside,pool⟩ := mem_map.mp isHeader.2
      have here : id = headerId header.1 := by
        rw [pool,headerId,← isHeader.1]
      cases found : (opening headers frees maxPages disk).manager.find id with
      | some frame =>
        obtain ⟨other,-,-,rfl⟩ := openingFind found
        exact (Refines.pinsFound found).ge
      | none =>
        have absent := find?_eq_none.mp found _ (mem_map_of_mem inside)
        simp [here] at absent
    · exact Nat.zero_le _

theorem lastWrittenRead {headers : List (Int32 × Page)} {frees : List Frame} {maxPages : Int32} {disk : Disk}
    (distinct : (headers.map Prod.fst).Nodup) (clean : ∀ frame ∈ frees, frame.dirty = false)
    (there : ∀ header ∈ headers, readPage (disk.data (headerId header.1)) = some header.2)
    (counted : ∀ header ∈ headers, 0 < header.2.content.pool.fileHeader.pageCount)
    (calls : List (Order × PoolCall)) {answers : List (Option Pools.Answer)} {last : Pools}
    (ok : PoolCall.run calls (opening headers frees maxPages disk) = some (answers,last)) :
    ∃ store, PageStore.run calls (PageStore.onDisk disk) = some (answers,store) ∧ (∀ id, last.current id = store.memory id) ∧
      ∀ order id, last.Room id → ∃ next, last.getThisPage order id = some ((store.getThisPage id).1,next) := by
  have start : Counted (headers.map Prod.fst) (PageStore.onDisk disk) := by
    intro pool isOpen
    obtain ⟨header,inside,rfl⟩ := mem_map.mp isOpen
    exact ⟨header.2.content,congrArg (Option.map Page.content) (there header inside),counted header inside⟩
  obtain ⟨store,same,kept⟩ := (openingRefines distinct clean there).run start ok
  refine ⟨store,same,kept.same,fun order id room => ?_⟩
  obtain ⟨⟨answer,next⟩,returned⟩ := getThisPageReturns order room
  obtain ⟨rfl,-⟩ := kept.get returned
  exact ⟨next,returned⟩

def turns (order : Order) (content : Content) : List (Order × PoolCall) :=
  [(order,.getThisPage ⟨1,1⟩ false),(order,.modify ⟨1,1⟩ content),(order,.unpin ⟨1,1⟩),(order,.getThisPage ⟨1,2⟩ false),
    (order,.unpin ⟨1,2⟩),(order,.getThisPage ⟨1,1⟩ false)]

theorem turnsRun (order : Order) (header one two : Page) (frame : Frame) (content : Content) (disk : Disk)
    (first : readPage (disk.data ⟨1,1⟩) = some one) (second : readPage (disk.data ⟨1,2⟩) = some two) :
    ∃ last,PoolCall.run (turns order content) (opening [(1,header)] [frame] 16 disk) =
      some ([some (.ok (⟨1,1⟩,one.content)),none,none,some (.ok (⟨1,2⟩,two.content)),none,some (.ok (⟨1,1⟩,content))],last) := by
  simp [turns,PoolCall.run,PoolCall.apply,opening,getThisPage,growOver,BPFrameManager.find,BPFrameManager.get,
    allocateFrame,BPFrameManager.alloc,loadPage,DiskDoubleWriteBuffer.readPage,DiskDoubleWriteBuffer.find,first,second,
    headerId,hold,writeFrame,unpin,update,victim,flushDirty,
    flushPageInternal,freeFrame,free,DiskDoubleWriteBuffer.addPage,Disk.writeAll,
    Disk.write,DiskDoubleWriteBuffer.writePageInternal,Page.content,Content.page]

def newHeader : Page := ((DiskBufferPool.created 1).content 0).page 0

def threePages : Disk where
  header := []
  slots _ := []
  data id := (if id.pageNum = 0 then newHeader else if id.pageNum = 1 then filled 1 else filled 2).bytes

theorem newHeaderCounted : 0 < newHeader.content.pool.fileHeader.pageCount :=
  Nat.zero_lt_one.trans_eq (BPFileHeader.pageCountEncoded (DiskBufferPool.created 1).fileHeader (by decide)).symm

theorem rewrittenPageRead : ∃ last store,
    PoolCall.run (turns inOrder (filled 9).content) (opening [(1,newHeader)] [⟨⟨0,0⟩,0,false,filled 0⟩] 16 threePages) =
      some ([some (.ok (⟨1,1⟩,(filled 1).content)),none,none,some (.ok (⟨1,2⟩,(filled 2).content)),none,
        some (.ok (⟨1,1⟩,(filled 9).content))],last) ∧
    PageStore.run (turns inOrder (filled 9).content) (PageStore.onDisk threePages) =
      some ([some (.ok (⟨1,1⟩,(filled 1).content)),none,none,some (.ok (⟨1,2⟩,(filled 2).content)),none,
        some (.ok (⟨1,1⟩,(filled 9).content))],store) ∧
    last.current ⟨1,1⟩ = store.memory ⟨1,1⟩ := by
  obtain ⟨last,ran⟩ := turnsRun inOrder newHeader (filled 1) (filled 2) ⟨⟨0,0⟩,0,false,filled 0⟩ (filled 9).content threePages
    (readPageBytes _) (readPageBytes _)
  have there : readPage (threePages.data (headerId 1)) = some newHeader := readPageBytes newHeader
  obtain ⟨store,same,pages,-⟩ := lastWrittenRead (by simp) (by simp) (by simpa using there) (by simpa using newHeaderCounted)
    (turns inOrder (filled 9).content) ran
  exact ⟨last,store,ran,same,pages _⟩

end MiniOb.Buffer
