import MiniOb.BplusTree.Keys
import MiniOb.Sql.Expression
import MiniOb.Table.FieldMeta

/-! `KeyComparator` for every type and length of an attribute: for which it is an order. Floats are read as
rational numbers. -/
namespace MiniOb.BplusTree.KeyComparator

/-- `1e-6f`: the closest float below it. -/
def vectorEpsilon : Rat := 8796093 / 2 ^ 43

def compareElements : List Rat → List Rat → Int
  | x :: xs,y :: ys => if vectorEpsilon < |x - y| then if x < y then -1 else 1 else compareElements xs ys
  | _,_ => 0

def compareVector (left right : List Rat) : Int := if left.length ≠ right.length then -1 else compareElements left right

/-- What `Value::set_data` makes of the bytes of an attribute. A text of length 0 is read up to a zero byte,
whatever its length. -/
abbrev Attr : Table.AttrType → Nat → Type
  | .undefined,_ => Unit
  | .chars,0 => CharKey
  | .chars,length + 1 => CharValue (length + 1)
  | .ints,_ => Int32
  | .floats,_ => Rat
  | .vectors,length => { vector : List Rat // vector.length = length / 4 }
  | .booleans,_ => Bool

def attrComparator : (t : Table.AttrType) → (length : Nat) → Attr t length → Attr t length → Int
  | .undefined,_,_,_ => Int32.maxValue.toInt
  | .chars,0,a,b => compareString a.bytes b.bytes
  | .chars,_ + 1,a,b => compareString a.bytes b.bytes
  | .ints,_,a,b => Expression.compareInt a b
  | .floats,_,a,b => Expression.compareFloat (.finite a) (.finite b)
  | .vectors,_,a,b => compareVector a.1 b.1
  | .booleans,_,_,_ => Int32.maxValue.toInt

structure StrictOrder {K : Type} (compare : K → K → Int) (among : K → Prop) : Prop where
  antisymmetric : ∀ a b, among a → among b → (compare a b < 0 ↔ 0 < compare b a)
  transitive : ∀ a b c, among a → among b → among c → compare a b < 0 → compare b c < 0 → compare a c < 0
  total : ∀ a b, among a → among b → a ≠ b → compare a b < 0 ∨ compare b a < 0
  equal : ∀ a b, among a → among b → (compare a b = 0 ↔ a = b)

def Ordinary {A : Type} (key : IndexKey A) : Prop := RID.Ordinary key.rid

variable {A V : Type} [LinearOrder V] {compare : A → A → Int} {value : A → V} in
theorem strictOfReads (reads : Reads compare value) : StrictOrder (keyComparator compare) Ordinary where
  antisymmetric a b left right := by
    rw [(reads.keys left right).1,(reads.keys right left).2.2]
  transitive a b c first second third ab bc := by
    rw [(reads.keys first second).1] at ab
    rw [(reads.keys second third).1] at bc
    rw [(reads.keys first third).1]
    exact ab.trans bc
  total a b left right different := by
    rw [(reads.keys left right).1,(reads.keys right left).1]
    have nonzero := mt (reads.keys left right).2.1.mp different
    have less := (reads.keys left right).1
    have greater := (reads.keys left right).2.2
    rcases lt_or_gt_of_ne nonzero with h | h
    · exact .inl (less.mp h)
    · exact .inr (greater.mp h)
  equal a b left right := (reads.keys left right).2.1

theorem readsLongText : Reads (attrComparator .chars 0) fun a => textOf a.bytes where
  less a b := (compareStringSign a.bytes b.bytes).1
  equal a b := by
    rw [show attrComparator .chars 0 a b = compareString a.bytes b.bytes from rfl,(compareStringSign a.bytes b.bytes).2.1]
    cases a
    cases b
    simp
  greater a b := (compareStringSign a.bytes b.bytes).2.2

theorem readsNothing (short : length < 4) : Reads (attrComparator .vectors length) fun _ => () := by
  have empty : ∀ a : Attr .vectors length, a.1 = [] := by
    intro a
    exact List.length_eq_zero_iff.mp (a.2.trans (Nat.div_eq_of_lt short))
  have zero : ∀ a b, attrComparator .vectors length a b = 0 := by
    intro a b
    show compareVector a.1 b.1 = 0
    rw [empty a,empty b]
    rfl
  constructor
  case less => intro a b; simp [zero]
  case equal =>
    intro a b
    exact iff_of_true (zero a b) (Subtype.ext ((empty a).trans (empty b).symm))
  case greater => intro a b; simp [zero]

theorem notStrictOfNear {compare} (near : compare a b = 0) (different : a ≠ b) :
    ¬ StrictOrder (keyComparator compare) Ordinary := by
  intro strict
  have ordinary : RID.Ordinary RID.min := by decide
  have zero : keyComparator compare ⟨a,RID.min⟩ ⟨b,RID.min⟩ = 0 := by
    unfold keyComparator
    dsimp only
    rw [near]
    decide
  have same := (strict.equal ⟨a,RID.min⟩ ⟨b,RID.min⟩ ordinary ordinary).mp zero
  exact different (congrArg IndexKey.attr same)

theorem notStrictOfUnordered {compare} (above : 0 < compare a a) :
    ¬ StrictOrder (keyComparator compare) Ordinary := by
  intro strict
  have ordinary : RID.Ordinary RID.min := by decide
  have positive : 0 < keyComparator compare ⟨a,RID.min⟩ ⟨a,RID.min⟩ := by
    unfold keyComparator
    dsimp only
    rwa [if_pos (by omega)]
  have negative := (strict.antisymmetric ⟨a,RID.min⟩ ⟨a,RID.min⟩ ordinary ordinary).mpr positive
  omega

theorem nearDiffers : (0 : Rat) ≠ 1 / 2 ^ 20 := by
  decide +kernel

theorem floatsNear : Expression.compareFloat (.finite 0) (.finite (1 / 2 ^ 20)) = 0 := by
  decide +kernel

theorem elementsNear (rest : List Rat) (same : compareElements rest rest = 0) :
    compareElements (0 :: rest) (1 / 2 ^ 20 :: rest) = 0 := by
  have near : ¬ vectorEpsilon < |(0 : Rat) - 1 / 2 ^ 20| := by decide +kernel
  rw [compareElements,if_neg near,same]

theorem elementsSelf (vector : List Rat) : compareElements vector vector = 0 := by
  induction vector with
  | nil => rfl
  | cons x rest ih =>
    have near : ¬ vectorEpsilon < |x - x| := by
      rw [sub_self,abs_zero]
      decide +kernel
    rw [compareElements,if_neg near,ih]

theorem vectorsNear (long : 4 ≤ length) :
    ∃ a b : Attr .vectors length, attrComparator .vectors length a b = 0 ∧ a ≠ b := by
  obtain ⟨dim,size⟩ : ∃ dim, length / 4 = dim + 1 := ⟨length / 4 - 1,by omega⟩
  refine ⟨⟨0 :: List.replicate dim 0,by simp [size]⟩,⟨1 / 2 ^ 20 :: List.replicate dim 0,by simp [size]⟩,?_,?_⟩
  · show compareVector _ _ = 0
    rw [compareVector,if_neg (by simp)]
    exact elementsNear _ (elementsSelf _)
  · intro same
    have lists := congrArg Subtype.val same
    exact nearDiffers (List.cons.inj lists).1

/-- `KeyComparator` orders the keys of integers and of texts, and of vectors without elements; no others. -/
theorem strictIff (t : Table.AttrType) (length : Nat) :
    StrictOrder (keyComparator (attrComparator t length)) Ordinary ↔ t = .ints ∨ t = .chars ∨ t = .vectors ∧ length < 4 := by
  cases t with
  | undefined => exact iff_of_false (notStrictOfUnordered (a := ()) (show 0 < Int32.maxValue.toInt by decide)) (by simp)
  | chars =>
    refine iff_of_true ?_ (.inr (.inl rfl))
    cases length with
    | zero => exact strictOfReads readsLongText
    | succ length => exact strictOfReads (KeyType.reads (.chars (length + 1)))
  | ints =>
    let _ := KeyType.order .ints
    exact iff_of_true (strictOfReads (KeyType.reads .ints)) (.inl rfl)
  | floats => exact iff_of_false (notStrictOfNear floatsNear nearDiffers) (by simp)
  | vectors =>
    rcases Nat.lt_or_ge length 4 with short | long
    · exact iff_of_true (strictOfReads (readsNothing short)) (.inr (.inr ⟨rfl,short⟩))
    · obtain ⟨a,b,near,different⟩ := vectorsNear long
      exact iff_of_false (notStrictOfNear near different) (by simp; omega)
  | booleans => exact iff_of_false (notStrictOfUnordered (a := true) (show 0 < Int32.maxValue.toInt by decide)) (by simp)

/-- Three floats, each within the tolerance of the next, come out in a circle when their record ids go down;
two of them compare as equal under one record id. And of two record ids, one with the least page number there
is, each is before the other. -/
theorem notOrdered : (keyComparator (attrComparator .floats 4) ⟨0,⟨1,3⟩⟩ ⟨1 / 2 ^ 19,⟨1,1⟩⟩ < 0 ∧
      keyComparator (attrComparator .floats 4) ⟨1 / 2 ^ 19,⟨1,1⟩⟩ ⟨1 / 2 ^ 20,⟨1,2⟩⟩ < 0 ∧
      keyComparator (attrComparator .floats 4) ⟨1 / 2 ^ 20,⟨1,2⟩⟩ ⟨0,⟨1,3⟩⟩ < 0) ∧
    keyComparator (attrComparator .floats 4) ⟨0,⟨1,1⟩⟩ ⟨1 / 2 ^ 20,⟨1,1⟩⟩ = 0 ∧
    keyComparator (attrComparator .ints 4) ⟨0,⟨Int32.minValue,0⟩⟩ ⟨0,⟨0,0⟩⟩ < 0 ∧
    keyComparator (attrComparator .ints 4) ⟨0,⟨0,0⟩⟩ ⟨0,⟨Int32.minValue,0⟩⟩ < 0 := by
  decide +kernel

end MiniOb.BplusTree.KeyComparator
