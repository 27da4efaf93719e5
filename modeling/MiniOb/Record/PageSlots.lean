import MiniOb.Lib.Bits
import MiniOb.Record.RecordPageHandler

/-! What a record page is for: slots, each with a record or without one. The calls of `RowRecordPageHandler` on a page that
is laid out properly change one slot. -/
namespace MiniOb.Record
open Buffer RecordPageHandler Function Int32 RowRecordPageHandler Region List

def capacity (page : Content) : Nat := natOf (header page).recordCapacity

def slotSize (page : Content) : Nat := natOf (header page).recordSize

def realSize (page : Content) : Nat := natOf (header page).recordRealSize

def dataOffset (page : Content) : Nat := natOf (header page).dataOffset

def slotData (slot : Nat) (page : Content) : Bytes := slice (dataOffset page + slotSize page * slot) (realSize page) page.data

def slotBit (page : Content) (slot : Nat) : Bool := (bitmap page).getBit slot

def slots (page : Content) (slot : Nat) : Option Bytes :=
  if slot < capacity page ∧ slotBit page slot = true then some (slotData slot page) else none

/-- The bitmap lies behind the header, the slots behind the bitmap, and the last slot ends inside the page. -/
structure Laid (page : Content) : Prop where
  size : 0 ≤ (header page).recordSize.toInt
  real : 0 ≤ (header page).recordRealSize.toInt
  offset : 0 ≤ (header page).dataOffset.toInt
  within : realSize page ≤ slotSize page
  bits : pageHeaderSize + pageBitmapSize (capacity page) ≤ dataOffset page
  fits : dataOffset page + slotSize page * capacity page ≤ bpPageDataSize

/-- A page without slots may be anything: it is one that was allocated and never initialised, or whose records are too large. -/
structure PageOk (page : Content) : Prop where
  low : 0 ≤ (header page).recordCapacity.toInt
  counted : (header page).recordNum.toInt = Bits.population (slotBit page) (capacity page)
  laid : 0 < capacity page → Laid page

structure SameLayout (page after : Content) : Prop where
  capacity : (header after).recordCapacity = (header page).recordCapacity
  size : (header after).recordSize = (header page).recordSize
  real : (header after).recordRealSize = (header page).recordRealSize
  offset : (header after).dataOffset = (header page).dataOffset

section
variable {page after : Content} {slot : Nat}

theorem natOfToInt {n} (low : 0 ≤ n.toInt) : n.toInt = natOf n := by
  unfold natOf
  omega

namespace SameLayout
variable (same : SameLayout page after)
include same

theorem slotCount : Record.capacity after = Record.capacity page := congrArg natOf same.capacity

theorem places : dataOffset after = dataOffset page ∧ slotSize after = slotSize page ∧ realSize after = realSize page :=
  ⟨congrArg natOf same.offset,congrArg natOf same.size,congrArg natOf same.real⟩

theorem laid (laid : Laid page) : Laid after := by
  obtain ⟨offset,size,real⟩ := same.places
  exact ⟨same.size ▸ laid.size,same.real ▸ laid.real,same.offset ▸ laid.offset,by rw [real,size]; exact laid.within,
    by rw [same.slotCount,offset]; exact laid.bits,by rw [same.slotCount,offset,size]; exact laid.fits⟩

end SameLayout

namespace Laid

section
variable (laid : Laid page) (inside : slot < capacity page)
include laid inside

theorem bitInside : pageHeaderSize + slot / 8 < dataOffset page ∧ pageHeaderSize + slot / 8 < bpPageDataSize := by
  have bits := laid.bits
  have fits := laid.fits
  unfold pageBitmapSize at bits
  omega

theorem bitPlace : bitPlace (ofNat slot) = some (pageHeaderSize + slot / 8,slot % 8) := by
  have place := (laid.bitInside inside).2
  have small : slot < 2 ^ 31 := by
    unfold pageHeaderSize bpPageDataSize bpPageSize at place
    omega
  unfold RecordPageHandler.bitPlace
  rw [toInt_ofNat_of_lt small]
  have byte : (slot : Int).tdiv 8 = ((slot / 8 : Nat) : Int) := rfl
  have bit : (slot : Int).tmod 8 = ((slot % 8 : Nat) : Int) := rfl
  rw [byte,bit,if_pos ⟨by omega,by exact_mod_cast place,by omega⟩]
  rfl

theorem slotInside : dataOffset page + slotSize page * slot + slotSize page ≤ bpPageDataSize := by
  have fits := laid.fits
  have upTo : slotSize page * (slot + 1) ≤ slotSize page * capacity page := Nat.mul_le_mul_left _ inside
  rw [Nat.mul_succ] at upTo
  omega

theorem recordPlace : recordPlace slot page = some (dataOffset page + slotSize page * slot,realSize page) := by
  have fits := laid.slotInside inside
  have within := laid.within
  unfold RecordPageHandler.recordPlace
  rw [natOfToInt laid.size,natOfToInt laid.real,natOfToInt laid.offset]
  have place : ((natOf (header page).dataOffset : Nat) : Int) + (natOf (header page).recordSize : Nat) * (slot : Nat) =
      ((dataOffset page + slotSize page * slot : Nat) : Int) := by
    rfl
  have length : ((natOf (header page).recordRealSize : Nat) : Int) = (realSize page : Nat) := rfl
  rw [place,length,if_pos ⟨by omega,by omega,by omega⟩]
  rfl

end

theorem slotsApart (laid : Laid page) {other} (different : other ≠ slot) :
    dataOffset page + slotSize page * other + realSize page ≤ dataOffset page + slotSize page * slot ∨
      dataOffset page + slotSize page * slot + realSize page ≤ dataOffset page + slotSize page * other := by
  have within := laid.within
  rcases Nat.lt_or_gt_of_ne different with less | greater
  · have upTo : slotSize page * (other + 1) ≤ slotSize page * slot := Nat.mul_le_mul_left _ less
    rw [Nat.mul_succ] at upTo
    omega
  · have upTo : slotSize page * (slot + 1) ≤ slotSize page * other := Nat.mul_le_mul_left _ greater
    rw [Nat.mul_succ] at upTo
    omega

end Laid

section
variable {changed : Nat} {bit : Bool} (same : SameLayout page after)
  (bits : ∀ j < capacity page, slotBit after j = update (slotBit page) changed bit j)
include same bits

theorem slotsAfter {value} (data : ∀ j < capacity page, j ≠ changed → slotData j after = slotData j page)
    (here : slots after changed = value) : slots after = update (slots page) changed value := by
  funext j
  by_cases changes : j = changed
  · rw [changes,here,update_self]
  · rw [update_of_ne changes,slots,slots,same.slotCount]
    by_cases inside : j < capacity page
    · rw [bits j inside,update_of_ne changes,data j inside changes]
    · rw [if_neg fun both => inside both.1,if_neg fun both => inside both.1]

theorem PageOk.kept (ok : PageOk page) (laid : Laid page)
    (count : (header after).recordNum.toInt = Bits.population (update (slotBit page) changed bit) (capacity page)) :
    PageOk after :=
  ⟨same.capacity ▸ ok.low,by rw [same.slotCount,Bits.populationCongr bits]; exact count,fun _ => same.laid laid⟩

end

namespace PageOk

theorem capacityInt (ok : PageOk page) : (header page).recordCapacity.toInt = capacity page := natOfToInt ok.low

theorem notFull (ok : PageOk page) : ¬isFull page ↔ ∃ slot < capacity page, slots page slot = none := by
  rw [isFull,ok.capacityInt,ok.counted]
  constructor
  · intro room
    obtain ⟨slot,inside,clear⟩ := Bits.someClear (by omega : Bits.population (slotBit page) (capacity page) < capacity page)
    exact ⟨slot,inside,if_neg fun both => by rw [clear] at both; exact absurd both.2 Bool.false_ne_true⟩
  · rintro ⟨slot,inside,absent⟩
    have clear : slotBit page slot = false := by
      cases bit : slotBit page slot with
      | false => rfl
      | true =>
        rw [slots,if_pos ⟨inside,bit⟩] at absent
        cases absent
    have less := Bits.populationLess inside clear
    omega

theorem recordNumLe (ok : PageOk page) : (header page).recordNum.toInt ≤ capacity page := by
  rw [ok.counted]
  exact_mod_cast Bits.populationLe _ _

end PageOk

/-! Each change of a page by what it does to the header, the bits and the slots. -/

theorem placeEq {i j} : (pageHeaderSize + i / 8,i % 8) = (pageHeaderSize + j / 8,j % 8) ↔ i = j := by
  constructor
  · intro same
    obtain ⟨byte,bit⟩ := Prod.mk.inj same
    omega
  · rintro rfl
    rfl

theorem slotBitCongr (same : after.data[pageHeaderSize + slot / 8]? = page.data[pageHeaderSize + slot / 8]?) :
    slotBit after slot = slotBit page slot := by
  show bitAt (pageHeaderSize + slot / 8,slot % 8) after = bitAt (pageHeaderSize + slot / 8,slot % 8) page
  exact bitAtCongr same

theorem slotDataCongr (layout : SameLayout page after) (same : ∀ i, dataOffset page ≤ i → after.data[i]? = page.data[i]?) :
    slotData slot after = slotData slot page := by
  obtain ⟨offset,size,real⟩ := layout.places
  unfold slotData
  rw [size,real,offset]
  exact sliceCongr fun i _ => same _ (by omega)

theorem headerRecount (change : Int32) (lsn : Option Int64) :
    header (recount change lsn page) = { header page with recordNum := (header page).recordNum + change } := by
  unfold recount
  rw [header,dataSetLsn]
  exact headerSetHeader _

theorem layoutRecount (change : Int32) (lsn : Option Int64) : SameLayout page (recount change lsn page) := by
  constructor
  all_goals rw [headerRecount]

theorem dataRecount (change : Int32) (lsn : Option Int64) {i} (above : pageHeaderSize ≤ i) :
    (recount change lsn page).data[i]? = page.data[i]? := by
  unfold recount
  rw [dataSetLsn]
  exact byteSetHeader _ above

theorem layoutPut {offset part} (above : pageHeaderSize ≤ offset) : SameLayout page (put offset part page) := by
  constructor
  all_goals rw [headerPut above]

theorem SameLayout.trans {last} (first : SameLayout page after) (second : SameLayout after last) : SameLayout page last :=
  ⟨second.capacity.trans first.capacity,second.size.trans first.size,second.real.trans first.real,second.offset.trans first.offset⟩

theorem addRecordNum {n change : Int32} {sum} (same : n.toInt + change.toInt = sum) (low : 0 ≤ sum) (high : sum < 2 ^ 31) :
    (n + change).toInt = sum := by
  rw [toInt_add,same]
  exact Int.bmod_eq_of_le (by omega) (by omega)

theorem capacityLess (page : Content) : capacity page < 2 ^ 31 := by
  have less := (header page).recordCapacity.toInt_lt
  unfold capacity natOf
  omega

/-! A record is put into a slot. -/

theorem PageOk.fewer (ok : PageOk page) (room : ¬isFull page) : (header page).recordNum.toInt < capacity page := by
  rw [isFull,ok.capacityInt] at room
  omega

theorem PageOk.laidRoom (ok : PageOk page) (room : ¬isFull page) : Laid page := by
  have fewer := ok.fewer room
  rw [ok.counted] at fewer
  exact ok.laid (by omega)

theorem PageOk.firstClear (ok : PageOk page) (room : ¬isFull page) :
    ∃ index, (bitmap page).nextUnsettedBit 0 = some index ∧ index < capacity page ∧ slotBit page index = false := by
  have fewer := ok.fewer room
  rw [ok.counted] at fewer
  obtain ⟨slot,slotInside,slotClear⟩ := Bits.someClear (by exact_mod_cast fewer : Bits.population (slotBit page) (capacity page) < _)
  rw [Bitmap.nextUnsettedBitFind]
  cases found : (range' 0 ((bitmap page).size - 0)).find? fun i => !(bitmap page).getBit i with
  | none =>
    have all := find?_eq_none.mp found slot (mem_range'_1.mpr ⟨Nat.zero_le _,by rw [Nat.zero_add]; exact slotInside⟩)
    exact absurd (congrArg not slotClear) all
  | some index =>
    have inside := mem_range'_1.mp (mem_of_find?_eq_some found)
    rw [Nat.zero_add] at inside
    have clear := find?_some found
    rw [Bool.not_eq_true'] at clear
    exact ⟨index,rfl,inside.2,clear⟩

def placed (index : Nat) (lsn : Option Int64) (data : Bytes) (page : Content) : Content :=
  put (dataOffset page + slotSize page * index) (data.take (realSize page))
    (recount 1 lsn (setBit (pageHeaderSize + index / 8,index % 8) page))

section
variable {index : Nat} {lsn : Option Int64} {data : Bytes}

theorem layoutMarked (index : Nat) (lsn : Option Int64) :
    SameLayout page (recount 1 lsn (setBit (pageHeaderSize + index / 8,index % 8) page)) :=
  (layoutPut (Nat.le_add_right _ _)).trans (layoutRecount 1 lsn)

theorem insertRecordPlaced (laid : Laid page) (other : (header page).recordNum ≠ (header page).recordCapacity)
    (found : (bitmap page).nextUnsettedBit 0 = some index) (inside : index < capacity page) :
    insertRecord lsn data page =
      if realSize page ≤ data.length then .ok (index,placed index lsn data page) else .error .abort := by
  have layout : SameLayout page (recount 1 lsn (setBit (pageHeaderSize + index / 8,index % 8) page)) := layoutMarked index lsn
  obtain ⟨offset,size,real⟩ := layout.places
  have place := (layout.laid laid).recordPlace (inside.trans_eq layout.slotCount.symm)
  rw [offset,size,real] at place
  unfold insertRecord
  rw [if_neg other,found]
  dsimp only
  rw [place]
  rfl

theorem slotAbove (laid : Laid page) (index : Nat) : pageHeaderSize ≤ dataOffset page + slotSize page * index := by
  have bits := laid.bits
  omega

theorem layoutPlaced (laid : Laid page) : SameLayout page (placed index lsn data page) :=
  (layoutMarked index lsn).trans (layoutPut (slotAbove laid index))

theorem recordNumPlaced (laid : Laid page) : (header (placed index lsn data page)).recordNum = (header page).recordNum + 1 := by
  unfold placed
  rw [headerPut (slotAbove laid index),headerRecount,setBit,headerPut (Nat.le_add_right _ _)]

theorem slotBitPlaced (laid : Laid page) (inside : index < capacity page) (below : slot < capacity page) :
    slotBit (placed index lsn data page) slot = update (slotBit page) index true slot := by
  obtain ⟨before,_⟩ := laid.bitInside below
  have marked : slotBit (placed index lsn data page) slot = slotBit (setBit (pageHeaderSize + index / 8,index % 8) page) slot :=
    slotBitCongr ((getPutOutside (Or.inl (by omega))).trans (dataRecount 1 lsn (Nat.le_add_right _ _)))
  rw [marked,update_apply]
  show bitAt (pageHeaderSize + slot / 8,slot % 8) (setBit _ page) = _
  rw [bitAtSetBit (laid.bitInside inside).2 (Nat.mod_lt _ (by decide)),decide_eq_decide.mpr placeEq]
  by_cases same : slot = index
  · rw [if_pos same,decide_eq_true same.symm,Bool.or_true]
  · rw [if_neg same,decide_eq_false (Ne.symm same),Bool.or_false]
    rfl

theorem slotDataPlaced (laid : Laid page) (inside : index < capacity page) (enough : realSize page ≤ data.length) (slot : Nat) :
    slotData slot (placed index lsn data page) = if slot = index then data.take (realSize page) else slotData slot page := by
  obtain ⟨offset,size,real⟩ := (layoutPlaced laid : SameLayout page (placed index lsn data page)).places
  have length : (data.take (realSize page)).length = realSize page := by rw [length_take,Nat.min_eq_left enough]
  unfold slotData
  rw [offset,size,real]
  split
  · rename_i same
    subst same
    have fits := laid.slotInside inside
    have within := laid.within
    have put : slice _ (data.take (realSize page)).length (placed slot lsn data page).data = _ :=
      slicePut (by rw [length,Content.size]; omega)
    rwa [length] at put
  · rename_i different
    have elsewhere := laid.slotsApart different
    have bits := laid.bitInside inside
    refine (slicePutOutside (by rw [length]; exact elsewhere)).trans (sliceCongr fun i _ => ?_)
    rw [dataRecount 1 lsn (by have := laid.bits; omega)]
    exact getPutOutside (Or.inr (by simp; omega))

theorem insertRecordOk (ok : PageOk page) (room : ¬isFull page) (ran : insertRecord lsn data page = .ok (index,after)) :
    index < capacity page ∧ slots page index = none ∧ PageOk after ∧ SameLayout page after ∧
      slots after = update (slots page) index (some (data.take (realSize page))) := by
  have laid := ok.laidRoom room
  have fewer := ok.fewer room
  obtain ⟨first,found,inside,clear⟩ := ok.firstClear room
  have different : (header page).recordNum ≠ (header page).recordCapacity := fun same => by
    rw [same,ok.capacityInt] at fewer
    omega
  rw [insertRecordPlaced laid different found inside] at ran
  split at ran
  · rename_i enough
    cases ran
    have layout : SameLayout page (placed index lsn data page) := layoutPlaced laid
    have bits : ∀ slot < capacity page, slotBit (placed index lsn data page) slot = update (slotBit page) index true slot :=
      fun _ below => slotBitPlaced laid inside below
    refine ⟨inside,?_,PageOk.kept layout bits ok laid ?_,layout,slotsAfter layout bits ?_ ?_⟩
    · exact if_neg fun both => by rw [clear] at both; exact absurd both.2 Bool.false_ne_true
    · have counted := ok.counted
      have bound := capacityLess page
      rw [Bits.populationSet _ inside clear,recordNumPlaced laid]
      exact addRecordNum (by rw [counted]; rfl) (by omega) (by omega)
    · intro slot _ other
      rw [slotDataPlaced laid inside enough,if_neg other]
    · rw [slots,layout.slotCount,bits index inside,update_self,if_pos ⟨inside,rfl⟩,slotDataPlaced laid inside enough,if_pos rfl]
  · cases ran

end

/-! A record is taken out of its slot. -/

def vacated (index : Nat) (lsn : Option Int64) (page : Content) : Content :=
  recount (-1) lsn (clearBit (pageHeaderSize + index / 8,index % 8) page)

section
variable {index : Nat} {lsn : Option Int64}

theorem layoutVacated (index : Nat) (lsn : Option Int64) : SameLayout page (vacated index lsn page) :=
  (layoutPut (Nat.le_add_right _ _)).trans (layoutRecount (-1) lsn)

theorem slotBitVacated (laid : Laid page) (inside : index < capacity page) (slot : Nat) :
    slotBit (vacated index lsn page) slot = update (slotBit page) index false slot := by
  have cleared : slotBit (vacated index lsn page) slot = slotBit (clearBit (pageHeaderSize + index / 8,index % 8) page) slot :=
    slotBitCongr (dataRecount (-1) lsn (Nat.le_add_right _ _))
  rw [cleared,update_apply]
  show bitAt (pageHeaderSize + slot / 8,slot % 8) (clearBit _ page) = _
  rw [bitAtClearBit (laid.bitInside inside).2 (Nat.mod_lt _ (by decide)) (Nat.mod_lt _ (by decide)),decide_eq_decide.mpr placeEq]
  by_cases same : slot = index
  · rw [if_pos same,decide_eq_true same.symm,Bool.not_true,Bool.and_false]
  · rw [if_neg same,decide_eq_false (Ne.symm same),Bool.not_false,Bool.and_true]
    rfl

theorem slotDataVacated (laid : Laid page) (inside : index < capacity page) (slot : Nat) :
    slotData slot (vacated index lsn page) = slotData slot page := by
  refine slotDataCongr (layoutVacated index lsn) fun i above => ?_
  have below := (laid.bitInside inside).1
  rw [vacated,dataRecount (-1) lsn (by omega)]
  exact getPutOutside (Or.inr (by simp; omega))

theorem slotsSome (page : Content) (slot : Nat) : slots page slot ≠ none ↔ slot < capacity page ∧ slotBit page slot = true := by
  unfold slots
  split
  · rename_i both
    exact iff_of_true nofun both
  · rename_i fails
    exact iff_of_false (fun some => some rfl) fails

theorem deleteRecordOk (ok : PageOk page) (inside : index < capacity page)
    (ran : deleteRecord lsn (ofNat index) page = .ok after) :
    slots page index ≠ none ∧ PageOk after ∧ SameLayout page after ∧ slots after = update (slots page) index none := by
  have laid := ok.laid (by omega)
  have layout : SameLayout page (vacated index lsn page) := layoutVacated index lsn
  have bits : ∀ slot, slotBit (vacated index lsn page) slot = update (slotBit page) index false slot := slotBitVacated laid inside
  unfold deleteRecord at ran
  rw [laid.bitPlace inside] at ran
  dsimp only at ran
  split at ran
  · rename_i set
    obtain rfl : vacated index lsn page = after := Except.ok.inj ran
    refine ⟨(slotsSome page index).mpr ⟨inside,set⟩,PageOk.kept layout (fun slot _ => bits slot) ok laid ?_,layout,
      slotsAfter layout (fun slot _ => bits slot) (fun slot _ _ => slotDataVacated laid inside slot) ?_⟩
    · have bit : slotBit page index = true := set
      have one := Bits.populationClear inside bit
      have counted := ok.counted
      have bound := capacityLess page
      have le := Bits.populationLe (slotBit page) (capacity page)
      have recordNum : (header (vacated index lsn page)).recordNum = (header page).recordNum + -1 := by
        rw [vacated,headerRecount,clearBit,headerPut (Nat.le_add_right _ _)]
      rw [recordNum]
      exact addRecordNum (by rw [counted,show (-1 : Int32).toInt = -1 from rfl]; omega) (by omega) (by omega)
    · refine if_neg fun both => ?_
      rw [bits index,update_self] at both
      exact absurd both.2 Bool.false_ne_true
  · cases ran

theorem getRecordOk (ok : PageOk page) {bytes} (there : slots page slot = some bytes) :
    getRecord (ofNat slot) page = .ok bytes := by
  obtain ⟨inside,set⟩ := (slotsSome page slot).mp (by rw [there]; exact Option.some_ne_none bytes)
  have laid := ok.laid (by omega)
  have bound := capacityLess page
  have number : (ofNat slot).toInt = slot := toInt_ofNat_of_lt (by omega)
  have same : slotData slot page = bytes := by
    rw [slots,if_pos ⟨inside,set⟩] at there
    exact Option.some.inj there
  have here : bitAt (pageHeaderSize + slot / 8,slot % 8) page = true := set
  unfold getRecord
  rw [number,ok.capacityInt,if_neg (by omega),laid.bitPlace inside]
  dsimp only
  rw [if_pos here,laid.recordPlace inside]
  exact congrArg Except.ok same

end

/-! An empty page. -/

theorem fixRecordCapacitySome {dataOffset recordSize capacity fixed}
    (ran : fixRecordCapacity dataOffset recordSize capacity = some fixed) :
    fixed ≤ capacity ∧ dataOffset + fixed * recordSize ≤ bpPageDataSize := by
  induction capacity with
  | zero =>
    unfold fixRecordCapacity at ran
    split at ran
    · cases ran
    · cases ran
      exact ⟨le_refl 0,by omega⟩
  | succ capacity ih =>
    unfold fixRecordCapacity at ran
    split at ran
    · obtain ⟨le,fits⟩ := ih ran
      exact ⟨by omega,fits⟩
    · cases ran
      exact ⟨le_refl _,by omega⟩

/-- The capacity of an empty page for records of this size. None when the loop that lowers it does not end. -/
def emptyCapacity (recordSize : Nat) : Option Nat :=
  let capacity := pageRecordCapacity bpPageDataSize (align8 recordSize) 0
  fixRecordCapacity (align8 (pageHeaderSize + pageBitmapSize capacity)) (align8 recordSize) capacity

theorem alignedLe (size : Nat) : size ≤ align8 size := by
  unfold align8
  omega

def emptied (recordSize dataOffset fixed : Nat) (page : Content) : Content :=
  put pageHeaderSize (replicate (pageBitmapSize fixed) 0) (setHeader
    ⟨0,0,.ofNat recordSize,.ofNat (align8 recordSize),.ofNat fixed,.ofNat dataOffset,.ofNat dataOffset⟩ page)

section
variable {recordSize dataOffset fixed : Nat}

theorem headerEmptied : header (emptied recordSize dataOffset fixed page) =
    ⟨0,0,.ofNat recordSize,.ofNat (align8 recordSize),.ofNat fixed,.ofNat dataOffset,.ofNat dataOffset⟩ := by
  unfold emptied
  rw [headerPut (le_refl _),headerSetHeader]

theorem capacityEmptied (small : fixed < 2 ^ 31) : capacity (emptied recordSize dataOffset fixed page) = fixed := by
  rw [capacity,headerEmptied]
  exact natOfOfNat small

theorem laidEmptied (bits : pageHeaderSize + pageBitmapSize fixed ≤ dataOffset)
    (fits : dataOffset + fixed * align8 recordSize ≤ bpPageDataSize) (some : 0 < fixed) :
    Laid (emptied recordSize dataOffset fixed page) ∧ realSize (emptied recordSize dataOffset fixed page) = recordSize := by
  have whole : bpPageDataSize < 2 ^ 28 := by decide
  have one : align8 recordSize ≤ fixed * align8 recordSize := Nat.le_mul_of_pos_left _ some
  have aligned := alignedLe recordSize
  have count : fixed ≤ 8 * pageBitmapSize fixed := by
    unfold pageBitmapSize
    omega
  have number : ∀ n, n < 2 ^ 31 → 0 ≤ (ofNat n).toInt := fun n less => by
    rw [toInt_ofNat_of_lt less]
    exact Int.natCast_nonneg n
  have size : slotSize (emptied recordSize dataOffset fixed page) = align8 recordSize := by
    rw [slotSize,headerEmptied]
    exact natOfOfNat (by omega)
  have real : realSize (emptied recordSize dataOffset fixed page) = recordSize := by
    rw [realSize,headerEmptied]
    exact natOfOfNat (by omega)
  have offset : Record.dataOffset (emptied recordSize dataOffset fixed page) = dataOffset := by
    rw [Record.dataOffset,headerEmptied]
    exact natOfOfNat (by omega)
  have capacity : capacity (emptied recordSize dataOffset fixed page) = fixed := capacityEmptied (by omega)
  refine ⟨⟨?_,?_,?_,?_,?_,?_⟩,real⟩
  · rw [headerEmptied]
    exact number _ (by omega)
  · rw [headerEmptied]
    exact number _ (by omega)
  · rw [headerEmptied]
    exact number _ (by omega)
  · rw [real,size]
    exact aligned
  · rw [capacity,offset]
    exact bits
  · rw [capacity,offset,size,Nat.mul_comm]
    exact fits

theorem slotBitEmptied (room : pageHeaderSize + pageBitmapSize fixed ≤ bpPageDataSize) {slot} (inside : slot < fixed) :
    slotBit (emptied recordSize dataOffset fixed page) slot = false := by
  have zero : (emptied recordSize dataOffset fixed page).data[pageHeaderSize + slot / 8]? =
      (replicate (pageBitmapSize fixed) (0 : UInt8))[slot / 8]? :=
    getPutInside (by rw [Content.size,length_replicate]; exact room) (by
      rw [length_replicate]
      unfold pageBitmapSize
      omega)
  show bitAt (pageHeaderSize + slot / 8,slot % 8) (emptied recordSize dataOffset fixed page) = false
  rw [bitAt,getD_eq_getElem?_getD,zero,getElem?_replicate]
  split
  · exact Nat.zero_testBit _
  · exact Nat.zero_testBit _

theorem slotsEmptied (small : fixed < 2 ^ 31) (bits : pageHeaderSize + pageBitmapSize fixed ≤ dataOffset)
    (fits : dataOffset + fixed * align8 recordSize ≤ bpPageDataSize) :
    PageOk (emptied recordSize dataOffset fixed page) ∧ slots (emptied recordSize dataOffset fixed page) = fun _ => none := by
  have capacity : capacity (emptied recordSize dataOffset fixed page) = fixed := capacityEmptied small
  have clear : ∀ slot < fixed, slotBit (emptied recordSize dataOffset fixed page) slot = false := fun _ => slotBitEmptied (by omega)
  refine ⟨⟨?_,?_,fun some => (laidEmptied bits fits (some.trans_eq capacity)).1⟩,funext fun slot => if_neg fun both => ?_⟩
  · rw [headerEmptied,toInt_ofNat_of_lt small]
    exact Int.natCast_nonneg fixed
  · rw [headerEmptied,capacity,(Bits.populationCongr clear : _ = Bits.population (fun _ => false) fixed)]
    have none : Bits.population (fun _ => false) fixed = 0 := Nat.count_false fixed
    rw [none]
    rfl
  · rw [capacity] at both
    rw [clear slot both.1] at both
    exact absurd both.2 Bool.false_ne_true

end

theorem initEmptyPageOk {recordSize} (ran : initEmptyPage recordSize page = .ok after) :
    PageOk after ∧ slots after = (fun _ => none) ∧ emptyCapacity recordSize = some (capacity after) ∧
      (0 < capacity after → realSize after = recordSize) := by
  unfold initEmptyPage at ran
  dsimp only at ran
  have unfolded : emptyCapacity recordSize = fixRecordCapacity
      (align8 (pageHeaderSize + pageBitmapSize (pageRecordCapacity bpPageDataSize (align8 recordSize) 0))) (align8 recordSize)
      (pageRecordCapacity bpPageDataSize (align8 recordSize) 0) := rfl
  rw [← unfolded] at ran
  cases fixedTo : emptyCapacity recordSize with
  | none =>
    rw [fixedTo] at ran
    cases ran
  | some fixed =>
    obtain ⟨le,fits⟩ := fixRecordCapacitySome (unfolded.symm.trans fixedTo)
    rw [fixedTo] at ran
    dsimp only at ran
    rw [if_pos fits] at ran
    obtain rfl : emptied recordSize _ fixed page = after := Except.ok.inj ran
    have most : pageRecordCapacity bpPageDataSize (align8 recordSize) 0 ≤ (bpPageDataSize - pageHeaderSize - 0 - 1) * 8 :=
      Nat.div_le_self _ _
    have bound : (bpPageDataSize - pageHeaderSize - 0 - 1) * 8 < 2 ^ 31 := by decide
    have bits : pageHeaderSize + pageBitmapSize fixed ≤
        align8 (pageHeaderSize + pageBitmapSize (pageRecordCapacity bpPageDataSize (align8 recordSize) 0)) := by
      refine le_trans ?_ (alignedLe _)
      unfold pageBitmapSize
      omega
    have capacity : ∀ offset, capacity (emptied recordSize offset fixed page) = fixed := fun _ => capacityEmptied (by omega)
    obtain ⟨ok,empty⟩ := slotsEmptied (by omega) bits fits
    exact ⟨ok,empty,congrArg some (capacity _).symm,fun some => (laidEmptied bits fits (some.trans_eq (capacity _))).2⟩

end

end MiniOb.Record
