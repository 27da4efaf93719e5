import MiniOb.Buffer.BufferPool
import MiniOb.Common.Bitmap
import MiniOb.Lib.Region

/-! A page of records in row format: a header, a bitmap of the slots and the records (`record_manager.cpp`). -/
namespace MiniOb.Record
open Buffer Bytes BPFileHeader Region

structure PageHeader where
  recordNum : Int32
  columnNum : Int32
  recordRealSize : Int32
  recordSize : Int32
  recordCapacity : Int32
  colIdxOffset : Int32
  dataOffset : Int32
  deriving DecidableEq, Repr

def pageHeaderSize : Nat := 28

namespace PageHeader

def read (data : Bytes) : PageHeader where
  recordNum := int32At 0 data
  columnNum := int32At 4 data
  recordRealSize := int32At 8 data
  recordSize := int32At 12 data
  recordCapacity := int32At 16 data
  colIdxOffset := int32At 20 data
  dataOffset := int32At 24 data

def bytes (header : PageHeader) : Bytes :=
  ofInt32 header.recordNum ++ ofInt32 header.columnNum ++ ofInt32 header.recordRealSize ++
    ofInt32 header.recordSize ++ ofInt32 header.recordCapacity ++ ofInt32 header.colIdxOffset ++
    ofInt32 header.dataOffset

end PageHeader

def align8 (size : Nat) : Nat := (size + 7) / 8 * 8

/-- The division by `record_size + 0.125` is exact enough: it gives the quotient of the eightfold numbers. -/
def pageRecordCapacity (pageSize recordSize fixedSize : Nat) : Nat := (pageSize - pageHeaderSize - fixedSize - 1) * 8 / (recordSize * 8 + 1)

def pageBitmapSize (recordCapacity : Nat) : Nat := (recordCapacity + 7) / 8

/-- `fix_record_capacity`. None when not even the end of the loop at capacity zero is reached: it goes on below. -/
def fixRecordCapacity (dataOffset recordSize : Nat) : Nat → Option Nat
  | 0 => if bpPageDataSize < dataOffset then none else some 0
  | capacity + 1 =>
    if bpPageDataSize < dataOffset + (capacity + 1) * recordSize then fixRecordCapacity dataOffset recordSize capacity
    else some (capacity + 1)

namespace RecordPageHandler

def put (offset : Nat) (part : Bytes) (page : Content) : Content :=
  ⟨page.lsn,Region.put offset part page.data,(Region.putLength offset part page.data).trans page.size⟩

def header (page : Content) : PageHeader := PageHeader.read page.data

def setHeader (header : PageHeader) (page : Content) : Content := put 0 header.bytes page

/-- What the log handler gives out, none when it fails: callers drop that. -/
def setLsn (lsn : Option Int64) (page : Content) : Content := match lsn with
  | some lsn => if 0 < lsn then { page with lsn := lsn } else page
  | none => page

def bitmap (page : Content) : Bitmap where
  bitmap i := page.data.getD (pageHeaderSize + i) 0
  size := natOf (header page).recordCapacity

def isFull (page : Content) : Prop := (header page).recordCapacity.toInt ≤ (header page).recordNum.toInt

instance (page : Content) : Decidable (isFull page) := inferInstanceAs (Decidable (_ ≤ _))

/-- Where `bitmap_[slot / 8]` lies in the page, and the bit in it. None outside of the page's data, and for a shift by
a negative number. -/
def bitPlace (slot : Int32) : Option (Nat × Nat) :=
  let byte := pageHeaderSize + slot.toInt.tdiv 8
  let bit := slot.toInt.tmod 8
  if 0 ≤ byte ∧ byte < bpPageDataSize ∧ 0 ≤ bit then some (byte.toNat,bit.toNat) else none

def bitAt (place : Nat × Nat) (page : Content) : Bool := (page.data.getD place.1 0).toNat.testBit place.2

def setBit (place : Nat × Nat) (page : Content) : Content :=
  put place.1 [page.data.getD place.1 0 ||| UInt8.ofNat (2 ^ place.2)] page

def clearBit (place : Nat × Nat) (page : Content) : Content :=
  put place.1 [page.data.getD place.1 0 &&& ~~~UInt8.ofNat (2 ^ place.2)] page

def recordPlace (slot : Int) (page : Content) : Option (Nat × Nat) :=
  let offset := (header page).dataOffset.toInt + (header page).recordSize.toInt * slot
  let length := (header page).recordRealSize.toInt
  if 0 ≤ offset ∧ 0 ≤ length ∧ offset + length ≤ bpPageDataSize then some (offset.toNat,length.toNat) else none

def recount (change : Int32) (lsn : Option Int64) (page : Content) : Content :=
  setLsn lsn (setHeader { header page with recordNum := (header page).recordNum + change } page)

/-- An empty page of row format, which has no columns. `recordSize` is what the caller asks for. -/
def initEmptyPage (recordSize : Nat) (page : Content) : Except Exit Content :=
  let size := align8 recordSize
  let capacity := pageRecordCapacity bpPageDataSize size 0
  let dataOffset := align8 (pageHeaderSize + pageBitmapSize capacity)
  match fixRecordCapacity dataOffset size capacity with
  | none => .error .abort
  | some fixed =>
    if dataOffset + fixed * size ≤ bpPageDataSize then
      .ok (put pageHeaderSize (List.replicate (pageBitmapSize fixed) 0) (setHeader
        ⟨0,0,.ofNat recordSize,.ofNat size,.ofNat fixed,.ofNat dataOffset,.ofNat dataOffset⟩ page))
    else .error .abort

end RecordPageHandler

namespace RowRecordPageHandler
open RecordPageHandler

/-- Without a clear bit the source sets bit -1. -/
def insertRecord (lsn : Option Int64) (data : Bytes) (page : Content) : Except Exit (Nat × Content) :=
  if (header page).recordNum = (header page).recordCapacity then .error (.rc .recordNomem)
  else match (bitmap page).nextUnsettedBit 0 with
    | none => .error .abort
    | some index =>
      let counted := recount 1 lsn (setBit (pageHeaderSize + index / 8,index % 8) page)
      match recordPlace index counted with
      | some (offset,length) => if length ≤ data.length then .ok (index,put offset (data.take length) counted) else .error .abort
      | none => .error .abort

/-- The slot is not compared with the capacity. -/
def deleteRecord (lsn : Option Int64) (slot : SlotNum) (page : Content) : Except Exit Content :=
  match bitPlace slot with
  | none => .error .abort
  | some place =>
    if bitAt place page then .ok (recount (-1) lsn (clearBit place page)) else .error (.rc .recordNotExist)

def getRecord (slot : SlotNum) (page : Content) : Except Exit Bytes :=
  if (header page).recordCapacity.toInt ≤ slot.toInt then .error (.rc .recordInvalidRid)
  else match bitPlace slot with
    | none => .error .abort
    | some place =>
      if bitAt place page then match recordPlace slot.toInt page with
        | some (offset,length) => .ok (slice offset length page.data)
        | none => .error .abort
      else .error (.rc .recordNotExist)

end RowRecordPageHandler

/-! ### Bytes of a page -/

theorem int32AtSlice (here : slice offset 4 data = ofInt32 n) :
    int32At offset data = n := by
  have whole : data.drop offset = ofInt32 n ++ (data.drop offset).drop 4 := by
    conv_lhs => rw [← List.take_append_drop 4 (data.drop offset)]
    exact congrArg (· ++ _) here
  rw [int32At,whole,readInt32Append]
  rfl

theorem int32AtCongr (same : slice offset 4 data = slice offset 4 other) :
    int32At offset data = int32At offset other := by
  have first : ∀ bytes : Bytes, (readInt32 bytes).map Prod.fst = (readInt32 (bytes.take 4)).map Prod.fst := by
    intro bytes
    rcases bytes with - | ⟨a,- | ⟨b,- | ⟨c,- | ⟨d,rest⟩⟩⟩⟩
    all_goals rfl
  unfold int32At
  rw [first,first (other.drop offset)]
  exact congrArg (fun bytes => ((readInt32 bytes).map Prod.fst).getD 0) same

theorem headerCongr (same : ∀ i < pageHeaderSize, data[i]? = other[i]?) : PageHeader.read data = PageHeader.read other := by
  have field : ∀ offset, offset + 4 ≤ 28 → int32At offset data = int32At offset other :=
    fun offset inside => int32AtCongr (sliceCongr fun i less => same _ (by unfold pageHeaderSize; omega))
  unfold PageHeader.read
  rw [field 0 (by omega),field 4 (by omega),field 8 (by omega),field 12 (by omega),field 16 (by omega),field 20 (by omega),
    field 24 (by omega)]

theorem readBytes (long : pageHeaderSize ≤ data.length) (header : PageHeader) :
    PageHeader.read (put 0 header.bytes data) = header := by
  have field : ∀ offset n, offset + 4 ≤ 28 → slice offset 4 header.bytes = ofInt32 n →
      int32At offset (put 0 header.bytes data) = n := by
    intro offset n inside here
    have inner : slice (0 + offset) 4 (put 0 header.bytes data) = slice offset 4 header.bytes :=
      slicePutInside ((Nat.zero_add _).le.trans long) inside
    rw [Nat.zero_add,here] at inner
    exact int32AtSlice inner
  unfold PageHeader.read
  rw [field 0 header.recordNum (by omega) rfl,field 4 header.columnNum (by omega) rfl,field 8 header.recordRealSize (by omega) rfl,
    field 12 header.recordSize (by omega) rfl,field 16 header.recordCapacity (by omega) rfl,field 20 header.colIdxOffset (by omega) rfl,
    field 24 header.dataOffset (by omega) rfl]

section
variable {byte : UInt8} {j k : Nat}

theorem maskBit (less : k < 8) (j : Nat) : (UInt8.ofNat (2 ^ k)).toBitVec.getLsbD j = decide (k = j) := by
  have small : 2 ^ k < 2 ^ 8 := Nat.pow_lt_pow_right (by decide) less
  rw [← BitVec.testBit_toNat,UInt8.toNat_toBitVec,UInt8.toNat_ofNat_of_lt' small,Nat.testBit_two_pow]

theorem testBitSet (less : k < 8) (j : Nat) :
    (byte ||| UInt8.ofNat (2 ^ k)).toNat.testBit j = (byte.toNat.testBit j || decide (k = j)) := by
  rw [← UInt8.toNat_toBitVec,UInt8.toBitVec_or,BitVec.testBit_toNat,BitVec.getLsbD_or,maskBit less,← BitVec.testBit_toNat]
  rfl

theorem testBitClear (less : k < 8) (inside : j < 8) :
    (byte &&& ~~~UInt8.ofNat (2 ^ k)).toNat.testBit j = (byte.toNat.testBit j && !decide (k = j)) := by
  rw [← UInt8.toNat_toBitVec,UInt8.toBitVec_and,UInt8.toBitVec_not,BitVec.testBit_toNat,BitVec.getLsbD_and,BitVec.getLsbD_not,
    maskBit less,← BitVec.testBit_toNat]
  simp [inside]

end

namespace RecordPageHandler
variable {page : Content} {offset : Nat} {part : Bytes}

theorem headerPut (above : pageHeaderSize ≤ offset) : header (put offset part page) = header page :=
  headerCongr fun _ less => Region.getPutOutside (Or.inl (less.trans_le above))

theorem headerSetHeader (next : PageHeader) : header (setHeader next page) = next :=
  readBytes (by rw [page.size]; decide) next

theorem dataSetLsn (lsn : Option Int64) : (setLsn lsn page).data = page.data := by
  unfold setLsn
  split
  · split
    · rfl
    · rfl
  · rfl

theorem byteSetHeader (next : PageHeader) (above : pageHeaderSize ≤ i) : (setHeader next page).data[i]? = page.data[i]? :=
  Region.getPutOutside (Or.inr ((Nat.zero_add _).le.trans above))

theorem bitAtCongr (same : page.data[place.1]? = other.data[place.1]?) :
    bitAt place page = bitAt place other := by
  unfold bitAt
  rw [List.getD_eq_getElem?_getD,List.getD_eq_getElem?_getD,same]

theorem byteHere (inside : offset < bpPageDataSize) : (put offset [byte] page).data.getD offset 0 = byte := by
  have here : (Region.put offset [byte] page.data)[offset + 0]? = [byte][0]? :=
    Region.getPutInside (by rw [page.size]; exact inside) Nat.one_pos
  rw [Nat.add_zero] at here
  show (Region.put offset [byte] page.data).getD offset 0 = byte
  rw [List.getD_eq_getElem?_getD,here]
  rfl

theorem bitElsewhere (other : place.1 ≠ offset) : bitAt place (put offset [byte] page) = bitAt place page :=
  bitAtCongr (Region.getPutOutside (by simp; omega))

variable {place at_ : Nat × Nat}

theorem bitAtSetBit (inside : place.1 < bpPageDataSize) (less : place.2 < 8) :
    bitAt at_ (setBit place page) = (bitAt at_ page || decide (place = at_)) := by
  by_cases same : at_.1 = place.1
  · unfold setBit
    rw [bitAt,same,byteHere inside,testBitSet less,bitAt,same]
    congr 1
    exact decide_eq_decide.mpr ⟨fun bit => Prod.ext same.symm bit,fun both => congrArg Prod.snd both⟩
  · rw [setBit,bitElsewhere same,decide_eq_false fun both => same (congrArg Prod.fst both).symm,Bool.or_false]

theorem bitAtClearBit (inside : place.1 < bpPageDataSize) (less : place.2 < 8) (small : at_.2 < 8) :
    bitAt at_ (clearBit place page) = (bitAt at_ page && !decide (place = at_)) := by
  by_cases same : at_.1 = place.1
  · unfold clearBit
    rw [bitAt,same,byteHere inside,testBitClear less small,bitAt,same]
    congr 2
    exact decide_eq_decide.mpr ⟨fun bit => Prod.ext same.symm bit,fun both => congrArg Prod.snd both⟩
  · rw [clearBit,bitElsewhere same,decide_eq_false fun both => same (congrArg Prod.fst both).symm,Bool.not_false,Bool.and_true]

end RecordPageHandler

end MiniOb.Record
