import Mathlib.Data.List.Lex
import Mathlib.Data.List.TakeWhile
import MiniOb.BplusTree.Search

/-! Keys of an index over an `INTS` or a `CHARS` attribute: what `AttrComparator` and
`KeyComparator` make of their bytes, and the order that results. -/
namespace MiniOb.BplusTree
open List

/-! ### Text -/

/-- The value of a `CHARS` attribute of the given length: the bytes before the first zero byte. -/
structure CharValue (length : Nat) where
  bytes : Bytes
  fits : bytes.length ≤ length
  text : ∀ b ∈ bytes, b ≠ 0
  deriving DecidableEq

structure CharKey where
  bytes : Bytes
  text : ∀ b ∈ bytes, b ≠ 0
  deriving DecidableEq

def CharValue.ofBytes (length : Nat) (buffer : Bytes) : CharValue length where
  bytes := (buffer.take length).takeWhile (· ≠ 0)
  fits := (takeWhile_sublist _).length_le.trans (length_take_le _ _)
  text := fun b inside => by simpa using mem_takeWhile_imp inside

theorem takeWhileText {bytes : Bytes} (text : ∀ b ∈ bytes, b ≠ 0) : bytes.takeWhile (· ≠ 0) = bytes :=
  takeWhile_eq_self_iff.mpr fun b inside => by simpa using text b inside

theorem ofBytesText {length : Nat} (text : ∀ b ∈ bytes, b ≠ 0) :
    (CharValue.ofBytes length bytes).bytes = bytes.take length :=
  takeWhileText fun b inside => text b (mem_of_mem_take inside)

theorem ofBytesPadded {length bytes} (text : ∀ b ∈ bytes, b ≠ 0) (fits : bytes.length ≤ length) :
    (CharValue.ofBytes length (bytes ++ replicate (length - bytes.length) 0)).bytes = bytes := by
  simp only [CharValue.ofBytes]
  rw [take_of_length_le (by simp [fits])]
  rw [takeWhile_append_of_pos fun b inside => by simpa using text b inside]
  cases length - bytes.length with
  | zero => simp
  | succ n => simp [replicate_succ]

def strncmp : Nat → Bytes → Bytes → Int
  | 0,_,_ => 0
  | _+1,[],[] => 0
  | _+1,[],b :: _ => -b.toNat
  | _+1,a :: _,[] => a.toNat
  | n+1,a :: as,b :: bs => if a = b then strncmp n as bs else a.toNat - b.toNat

def compareString (a b : Bytes) : Int :=
  let maxlen := min a.length b.length
  let result := strncmp maxlen a b
  if result ≠ 0 then if result < 0 then -1 else 1
  else if maxlen < a.length then 1
  else if maxlen < b.length then -1
  else 0

def textOf (bytes : Bytes) : List Nat := bytes.map UInt8.toNat

theorem textOfInj (same : textOf a = textOf b) : a = b :=
  map_injective_iff.mpr (fun _ _ h => UInt8.toNat_inj.mp h) same

@[simp] theorem compareStringNil (b : Bytes) : compareString [] b = if b = [] then 0 else -1 := by
  cases b <;> simp [compareString,strncmp]

@[simp] theorem compareStringConsNil (a : UInt8) (as : Bytes) : compareString (a :: as) [] = 1 := by
  simp [compareString,strncmp]

theorem compareStringCons (a b : UInt8) (as bs : Bytes) : compareString (a :: as) (b :: bs) =
    if a = b then compareString as bs else if a.toNat < b.toNat then -1 else 1 := by
  by_cases same : a = b
  · simp [compareString,strncmp,same,Nat.succ_min_succ]
  · have different : a.toNat ≠ b.toNat := fun h => same (UInt8.toNat_inj.mp h)
    simp only [compareString,length_cons,Nat.succ_min_succ,strncmp,if_neg same]
    rw [if_pos (by omega)]
    by_cases less : a.toNat < b.toNat
    · rw [if_pos (by omega),if_pos less]
    · rw [if_neg (by omega),if_neg less]

theorem compareStringSign (a b : Bytes) :
    (compareString a b < 0 ↔ textOf a < textOf b) ∧ (compareString a b = 0 ↔ a = b) ∧
    (0 < compareString a b ↔ textOf b < textOf a) := by
  induction a generalizing b with
  | nil => cases b <;> simp [textOf]
  | cons x xs ih =>
    cases b with
    | nil => simp [textOf]
    | cons y ys =>
      rw [compareStringCons]
      simp only [textOf,map_cons,cons_lt_cons_iff,cons.injEq]
      by_cases same : x = y
      · subst same
        simpa [textOf] using ih ys
      · have different : x.toNat ≠ y.toNat := fun h => same (UInt8.toNat_inj.mp h)
        have different' : y.toNat ≠ x.toNat := fun h => different h.symm
        rw [if_neg same]
        by_cases less : x.toNat < y.toNat
        · simp [less,same,different',less.not_gt]
        · have greater : y.toNat < x.toNat := by omega
          simp [less,same,different,greater]

/-! ### Attributes -/

def keyComparator {A : Type} (attrComparator : A → A → Int) (a b : IndexKey A) : Int :=
  let result := attrComparator a.attr b.attr
  if result ≠ 0 then result else RID.compare a.rid b.rid

/-- The attribute types whose keys are ordered. -/
inductive KeyType where
  | ints
  | chars (length : Nat)
  deriving DecidableEq, Repr

namespace KeyType

abbrev Attr : KeyType → Type
  | ints => Int32
  | chars length => CharValue length

abbrev UserKey : KeyType → Type
  | ints => Int32
  | chars _ => CharKey

def length : KeyType → Nat
  | ints => 4
  | chars length => length

def compare : (t : KeyType) → t.Attr → t.Attr → Int
  | ints,a,b => if b < a then 1 else if a < b then -1 else 0
  | chars _,a,b => compareString a.bytes b.bytes

def read : (t : KeyType) → t.UserKey → t.Attr
  | ints,key => key
  | chars length,key => CharValue.ofBytes length key.bytes

def encode : (t : KeyType) → t.Attr → Bytes
  | ints,a => Bytes.ofInt32 a
  | chars length,a => a.bytes ++ replicate (length - a.bytes.length) 0

def decode : (t : KeyType) → Bytes → t.Attr
  | ints,bytes => ((Bytes.readInt32 bytes).map Prod.fst).getD 0
  | chars length,bytes => CharValue.ofBytes length bytes

abbrev Order : KeyType → Type
  | ints => Int
  | chars _ => List Nat

instance : (t : KeyType) → LinearOrder t.Order
  | ints => Int.instLinearOrder
  | chars _ => instLinearOrder

def value : (t : KeyType) → t.Attr → t.Order
  | ints,a => a.toInt
  | chars _,a => textOf a.bytes

theorem valueInj : (t : KeyType) → Function.Injective t.value
  | ints => fun _ _ same => Int32.toInt_inj.mp same
  | chars _ => fun a b same => by
    cases a
    cases b
    simpa using textOfInj same

instance order (t : KeyType) : LinearOrder t.Attr := LinearOrder.lift' t.value t.valueInj

instance {length : Nat} : LinearOrder (CharValue length) := order (chars length)

theorem compareSign : (t : KeyType) → (a b : t.Attr) →
    (t.compare a b < 0 ↔ a < b) ∧ (t.compare a b = 0 ↔ a = b) ∧ (0 < t.compare a b ↔ b < a)
  | ints,a,b => by
    have less : ∀ {a b : Int32}, a < b ↔ a.toInt < b.toInt := Int32.lt_iff_toInt_lt
    have same : a = b ↔ a.toInt = b.toInt := Int32.toInt_inj.symm
    show ((if b < a then (1 : Int) else if a < b then -1 else 0) < 0 ↔ a.toInt < b.toInt) ∧
      ((if b < a then (1 : Int) else if a < b then -1 else 0) = 0 ↔ a = b) ∧
      (0 < (if b < a then (1 : Int) else if a < b then -1 else 0) ↔ b.toInt < a.toInt)
    rw [same]
    by_cases h : b < a
    · have := less.mp h
      rw [if_pos h]
      omega
    · by_cases h' : a < b
      · have := less.mp h'
        rw [if_neg h,if_pos h']
        omega
      · have := mt less.mpr h
        have := mt less.mpr h'
        rw [if_neg h,if_neg h']
        omega
  | chars _,a,b => by
    obtain ⟨less,equal,greater⟩ := compareStringSign a.bytes b.bytes
    refine ⟨less,?_,greater⟩
    rw [show compare (chars _) a b = compareString a.bytes b.bytes from rfl,equal]
    cases a
    cases b
    simp

def keyOps (t : KeyType) : KeyOps (IndexKey t.Attr) where
  compare := keyComparator t.compare
  keyLength := t.length + 8
  encode key := t.encode key.attr ++ ridBytes key.rid
  decode bytes := ⟨t.decode (bytes.take t.length),readRid (bytes.drop t.length)⟩

end KeyType

/-! ### Record ids -/

theorem int32Sub {a b : Int32} (left : 0 ≤ a.toInt) (right : 0 ≤ b.toInt) : (a - b).toInt = a.toInt - b.toInt := by
  rw [Int32.toInt_sub]
  have := a.toInt_lt
  have := b.toInt_lt
  exact Int.bmod_eq_of_le (by omega) (by omega)

theorem ridCompareSign {a b : RID} (left : RID.Ordinary a) (right : RID.Ordinary b) :
    (RID.compare a b < 0 ↔ a < b) ∧ (RID.compare a b = 0 ↔ a = b) ∧ (0 < RID.compare a b ↔ b < a) := by
  have page := int32Sub left.1 right.1
  have slot := int32Sub left.2 right.2
  have zero : a.pageNum - b.pageNum = 0 ↔ a.pageNum.toInt = b.pageNum.toInt := by
    rw [← Int32.toInt_inj,page,Int32.toInt_zero]
    omega
  have equal : a = b ↔ a.pageNum.toInt = b.pageNum.toInt ∧ a.slotNum.toInt = b.slotNum.toInt := by
    cases a
    cases b
    simp [Int32.toInt_inj]
  rw [ridLt,ridLt,equal]
  unfold RID.compare
  by_cases same : a.pageNum - b.pageNum = 0
  · have := zero.mp same
    rw [if_neg (not_not.mpr same),slot]
    omega
  · have := mt zero.mpr same
    rw [if_pos same,page]
    omega

theorem indexKeyLt [LinearOrder A] {a b : IndexKey A} :
    a < b ↔ a.attr < b.attr ∨ a.attr = b.attr ∧ a.rid < b.rid := by
  show toLex (a.attr,a.rid) < toLex (b.attr,b.rid) ↔ _
  rw [Prod.Lex.toLex_lt_toLex]

section
variable {A V : Type} [LinearOrder V] {compare : A → A → Int} {value : A → V}

structure Reads (compare : A → A → Int) (value : A → V) : Prop where
  less : ∀ a b, compare a b < 0 ↔ value a < value b
  equal : ∀ a b, compare a b = 0 ↔ a = b
  greater : ∀ a b, 0 < compare a b ↔ value b < value a

theorem Reads.valueInj (reads : Reads compare value) (same : value a = value b) : a = b := by
  have notLess := mt (reads.less a b).mp same.not_lt
  have notGreater := mt (reads.greater a b).mp same.not_gt
  exact (reads.equal a b).mp (by omega)

def place (value : A → V) (key : IndexKey A) : V ×ₗ RID := toLex (value key.attr,key.rid)

theorem Reads.keys (reads : Reads compare value) (left : RID.Ordinary a.rid) (right : RID.Ordinary b.rid) :
    (keyComparator compare a b < 0 ↔ place value a < place value b) ∧ (keyComparator compare a b = 0 ↔ a = b) ∧
      (0 < keyComparator compare a b ↔ place value b < place value a) := by
  obtain ⟨ridLess,ridEqual,ridGreater⟩ := ridCompareSign left right
  have same : a = b ↔ a.attr = b.attr ∧ a.rid = b.rid := by
    cases a
    cases b
    simp
  have values : a.attr = b.attr ↔ value a.attr = value b.attr := ⟨congrArg value,reads.valueInj⟩
  unfold keyComparator place
  rw [Prod.Lex.toLex_lt_toLex,Prod.Lex.toLex_lt_toLex,same]
  by_cases zero : compare a.attr b.attr = 0
  · have equal := (reads.equal _ _).mp zero
    rw [if_neg (not_not.mpr zero),ridLess,ridEqual,ridGreater,equal]
    simp
  · have different := mt (reads.equal _ _).mpr zero
    have apart := mt values.mpr different
    rw [if_pos zero,reads.less,reads.greater]
    simp [zero,different,apart,Ne.symm apart]

end

theorem KeyType.reads (t : KeyType) : Reads t.compare id where
  less a b := (t.compareSign a b).1
  equal a b := (t.compareSign a b).2.1
  greater a b := (t.compareSign a b).2.2

theorem keyCompareSign (t : KeyType) {a b} (left : RID.Ordinary a.rid)
    (right : RID.Ordinary b.rid) : (t.keyOps.compare a b < 0 ↔ a < b) ∧ (t.keyOps.compare a b = 0 ↔ a = b) ∧
      (0 < t.keyOps.compare a b ↔ b < a) := t.reads.keys left right

theorem keyOrderedAt (t : KeyType) {key} (here : RID.Ordinary key.rid) :
    t.keyOps.OrderedAt key fun a => RID.Ordinary a.rid :=
  ⟨fun _ stored => (keyCompareSign t stored here).1,fun _ stored => (keyCompareSign t stored here).2.1,
    fun _ stored => (keyCompareSign t stored here).2.2,fun _ stored => (keyCompareSign t here stored).1⟩

end MiniOb.BplusTree
