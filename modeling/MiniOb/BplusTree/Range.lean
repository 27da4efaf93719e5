import MiniOb.BplusTree.Keys
import MiniOb.BplusTree.Scanner
import MiniOb.Lib.Lexicographic

/-! Ranges of attribute values: the bounds given to `BplusTreeScanner::open`, what
`fix_user_key` makes of them, and which entries a scan returns. -/
namespace MiniOb.BplusTree
open Prog PagedTree PagedTree.Bound List CharValue RID

/-! ### Bounds -/

structure RangeBound (U : Type) where
  key : U
  inclusive : Bool
  deriving DecidableEq

/-- The buffer of `fix_user_key` when the key is longer than the attribute: `want_greater` asks
for the next string of that length. -/
def bumpLast (buffer : Bytes) : Bytes :=
  buffer.dropLast ++ (buffer.getLast?.map (· + 1)).toList

def fixUserKey : (t : KeyType) → (wantGreater : Bool) → t.UserKey → t.Attr × Bool
  | .ints,_,key => (key,false)
  | .chars length,wantGreater,key =>
      if key.bytes.length ≤ length then
        (ofBytes length (key.bytes ++ List.replicate (length - key.bytes.length) 0),false)
      else if key.bytes[length]? = some 0 then (ofBytes length (key.bytes.take length),false)
      else if wantGreater then (ofBytes length (bumpLast (key.bytes.take length)),true)
      else (ofBytes length (key.bytes.take length),true)

section
variable (t : KeyType)

def leftKey (bound : RangeBound t.UserKey) : IndexKey t.Attr :=
  ⟨(fixUserKey t true bound.key).1,if bound.inclusive || (fixUserKey t true bound.key).2 then min else max⟩

def rightKey (bound : RangeBound t.UserKey) : IndexKey t.Attr :=
  ⟨(fixUserKey t false bound.key).1,if bound.inclusive || (fixUserKey t false bound.key).2 then max else min⟩

def rangeInvalid : Option (RangeBound t.UserKey) → Option (RangeBound t.UserKey) → Bool
  | some left,some right =>
      let result := t.compare (t.read left.key) (t.read right.key)
      0 < result || result = 0 && (left.inclusive = false || right.inclusive = false)
  | _,_ => false

def openScanner (left right : Option (RangeBound t.UserKey)) : ScanM (IndexKey t.Attr) Unit :=
  openRange t.keyOps (rangeInvalid t left right) (left.map (leftKey t)) (right.map (rightKey t))

end

/-! ### What a bound means -/

namespace KeyType

def bound : (t : KeyType) → t.UserKey → t.Order
  | ints,key => key.toInt
  | chars _,key => textOf key.bytes

def cut : (t : KeyType) → t.UserKey → t.Order
  | ints,key => key.toInt
  | chars length,key => (textOf key.bytes).take length

def Long : (t : KeyType) → t.UserKey → Prop
  | ints,_ => False
  | chars length,key => length < key.bytes.length

def Plain : (t : KeyType) → t.UserKey → Prop
  | ints,_ => True
  | chars _,key => ∀ b ∈ key.bytes, b.toNat < 255

instance : (t : KeyType) → DecidablePred t.Long
  | ints => fun _ => isFalse id
  | chars _ => fun _ => inferInstanceAs (Decidable (_ < _))

instance : (t : KeyType) → DecidablePred t.Plain
  | ints => fun _ => isTrue trivial
  | chars _ => fun key => List.decidableBAll (fun b : UInt8 => b.toNat < 255) key.bytes

end KeyType

section
variable (t : KeyType)

def aboveLeft (left : Option (RangeBound t.UserKey)) (a : t.Attr) : Bool := match left with
  | none => true
  | some b => if b.inclusive then t.bound b.key ≤ t.value a else t.bound b.key < t.value a

def belowRight (right : Option (RangeBound t.UserKey)) (a : t.Attr) : Bool := match right with
  | none => true
  | some b => if b.inclusive then t.value a ≤ t.bound b.key else t.value a < t.bound b.key

end

/-! ### Keys cut to the attribute length -/

theorem textOfBump {bytes} (plain : ∀ b ∈ bytes, b.toNat < 255) :
    textOf (bumpLast bytes) = Lexicographic.bump (textOf bytes) := by
  induction bytes with
  | nil => rfl
  | cons x rest ih =>
    cases rest with
    | nil =>
      have small := plain x (by simp)
      simp only [bumpLast,textOf,Lexicographic.bump,dropLast_singleton,getLast?_singleton,Option.map_some,
        Option.toList_some,nil_append,map_cons,map_nil,List.cons.injEq,and_true]
      rw [UInt8.toNat_add]
      exact Nat.mod_eq_of_lt (by simpa using (by omega : x.toNat + 1 < 256))
    | cons y more =>
      have tail := ih fun b inside => plain b (mem_cons_of_mem _ inside)
      simp only [bumpLast,textOf,dropLast_cons_cons,getLast?_cons_cons,map_cons,cons_append,
        Lexicographic.bump] at tail ⊢
      rw [tail]

theorem bumpText {bytes} (text : ∀ b ∈ bytes, b ≠ 0) (plain : ∀ b ∈ bytes, b.toNat < 255) :
    ∀ b ∈ bumpLast bytes, b ≠ 0 := by
  intro b inside
  rcases mem_append.mp inside with before | last
  · exact text b (dropLast_subset _ before)
  · simp only [Option.mem_toList,Option.map_eq_some_iff] at last
    obtain ⟨c,found,rfl⟩ := last
    have small := plain c (mem_of_getLast? found)
    intro zero
    have value := congrArg UInt8.toNat zero
    have : (c.toNat + 1) % 256 = 0 := value
    omega

theorem bumpLength (bytes : Bytes) : (bumpLast bytes).length = bytes.length := by
  cases bytes with
  | nil => rfl
  | cons x rest => simp [bumpLast,getLast?_eq_getLast_of_ne_nil]

namespace KeyType
variable {t : KeyType} {u : t.UserKey} {a : t.Attr}

theorem readValue : (t : KeyType) → (u : t.UserKey) → t.value (t.read u) = t.cut u
  | ints,_ => rfl
  | chars length,u => by
    show textOf (ofBytes length u.bytes).bytes = (textOf u.bytes).take length
    rw [ofBytesText u.text,textOf,textOf,map_take]

theorem cutLe : (t : KeyType) → (u : t.UserKey) → t.cut u ≤ t.bound u
  | ints,_ => le_refl _
  | chars _,_ => Lexicographic.takeLe _ _

theorem cutFits : {t : KeyType} → {u : t.UserKey} → ¬ t.Long u → t.cut u = t.bound u
  | ints,_,_ => rfl
  | chars _,_,fits => take_of_length_le (by simpa [textOf] using not_lt.mp fits)

theorem valueFits {length} (a : CharValue length) : (textOf a.bytes).length ≤ length := by
  simpa [textOf] using a.fits

theorem valueWhole {length} (a : CharValue length) : (textOf a.bytes).take length = textOf a.bytes :=
  take_of_length_le (valueFits a)

theorem cutLeValue : {t : KeyType} → {u : t.UserKey} → {a : t.Attr} → t.bound u ≤ t.value a → t.cut u ≤ t.value a
  | ints,_,_,h => h
  | chars length,_,a,h => (Lexicographic.takeMono h length).trans_eq (valueWhole a)

theorem valueLeCut : {t : KeyType} → {u : t.UserKey} → {a : t.Attr} → t.value a ≤ t.bound u → t.value a ≤ t.cut u
  | ints,_,_,h => h
  | chars length,_,a,h => (valueWhole a).ge.trans (Lexicographic.takeMono h length)

theorem longRight : {t : KeyType} → {u : t.UserKey} → t.Long u → (a : t.Attr) →
    (t.value a ≤ t.cut u ↔ t.value a < t.bound u)
  | chars length,u,long,a => Lexicographic.leTake (valueFits a) (by
      have : length < u.bytes.length := long
      simpa [textOf] using this)

theorem longNe : {t : KeyType} → {u : t.UserKey} → t.Long u → (a : t.Attr) → t.value a ≠ t.bound u
  | chars length,u,long,a => by
    intro same
    have sizes := congrArg List.length same
    have fits := valueFits a
    have : length < u.bytes.length := long
    simp only [value,bound,textOf,length_map] at sizes fits
    omega

theorem fixFits : {t : KeyType} → {u : t.UserKey} → ¬ t.Long u → (wantGreater : Bool) →
    t.value (fixUserKey t wantGreater u).1 = t.bound u ∧ (fixUserKey t wantGreater u).2 = false
  | ints,_,_,_ => ⟨rfl,rfl⟩
  | chars length,u,fits,_ => by
    have short : u.bytes.length ≤ length := not_lt.mp fits
    simp only [fixUserKey,if_pos short]
    exact ⟨congrArg textOf (ofBytesPadded u.text short),trivial⟩

theorem longByte (length : Nat) (u : CharKey) : u.bytes[length]? ≠ some 0 := by
  intro zero
  exact u.text 0 (mem_of_getElem? zero) rfl

theorem fixLongRight : {t : KeyType} → {u : t.UserKey} → t.Long u →
    t.value (fixUserKey t false u).1 = t.cut u ∧ (fixUserKey t false u).2 = true
  | chars length,u,long => by
    have cutText : ∀ b ∈ u.bytes.take length, b ≠ 0 := fun b inside => u.text b (mem_of_mem_take inside)
    simp only [fixUserKey,if_neg (not_le.mpr long),if_neg (longByte length u),Bool.false_eq_true,if_false]
    refine ⟨?_,trivial⟩
    show textOf (ofBytes length (u.bytes.take length)).bytes = (textOf u.bytes).take length
    rw [ofBytesText cutText,take_take,min_self,textOf,textOf,map_take]

theorem fixLongLeft : {t : KeyType} → {u : t.UserKey} → 0 < t.length → t.Plain u → t.Long u → (a : t.Attr) →
    (t.value (fixUserKey t true u).1 ≤ t.value a ↔ t.bound u < t.value a) ∧ (fixUserKey t true u).2 = true
  | chars length,u,positive,plain,long,a => by
    have longer : length < u.bytes.length := long
    have cutText : ∀ b ∈ u.bytes.take length, b ≠ 0 := fun b inside => u.text b (mem_of_mem_take inside)
    have cutPlain : ∀ b ∈ u.bytes.take length, b.toNat < 255 := fun b inside => plain b (mem_of_mem_take inside)
    simp only [fixUserKey,if_neg (not_le.mpr long),if_neg (longByte length u),if_true]
    refine ⟨?_,trivial⟩
    have fixed : textOf (ofBytes length (bumpLast (u.bytes.take length))).bytes =
        Lexicographic.bump ((textOf u.bytes).take length) := by
      rw [ofBytesText (bumpText cutText cutPlain),take_of_length_le (by simp [bumpLength]),textOfBump cutPlain,textOf,
        textOf,map_take]
    show textOf (ofBytes length (bumpLast (u.bytes.take length))).bytes ≤ textOf a.bytes ↔ _
    rw [fixed]
    exact Lexicographic.bumpLe positive (valueFits a) (by simpa [textOf] using longer)

end KeyType

/-! ### Keys of a range -/

def RID.Located (rid : RID) : Prop := 1 ≤ rid.pageNum.toInt ∧ 0 ≤ rid.slotNum.toInt
  deriving Decidable

theorem RID.Located.ordinary {rid} (located : RID.Located rid) : RID.Ordinary rid :=
  ⟨by have := located.1; omega,located.2⟩

theorem RID.Located.minLt {rid} (located : RID.Located rid) : min < rid := by
  rw [ridLt]
  left
  have zero : min.pageNum.toInt = 0 := rfl
  have := located.1
  omega

theorem leRidMax (rid : RID) : rid ≤ max := by
  rw [← not_lt,ridLt]
  have page := rid.pageNum.toInt_lt
  have slot := rid.slotNum.toInt_lt
  have top : max.pageNum.toInt = 2147483647 ∧ max.slotNum.toInt = 2147483647 := ⟨rfl,rfl⟩
  omega

section
variable {t : KeyType} {k : IndexKey t.Attr} {b : RangeBound t.UserKey}

theorem minKeyLe {a} (located : RID.Located k.rid) : (⟨a,min⟩ : IndexKey t.Attr) ≤ k ↔ t.value a ≤ t.value k.attr := by
  show _ ↔ a ≤ k.attr
  rw [← not_lt,indexKeyLt,← not_lt (b := a)]
  have := located.minLt.not_gt
  tauto

theorem leMaxKey {a} : k ≤ (⟨a,max⟩ : IndexKey t.Attr) ↔ t.value k.attr ≤ t.value a := by
  show _ ↔ k.attr ≤ a
  rw [← not_lt,indexKeyLt,← not_lt (a := a)]
  have := (leRidMax k.rid).not_gt
  tauto

theorem leMinKey {a} (located : RID.Located k.rid) : k ≤ (⟨a,min⟩ : IndexKey t.Attr) ↔ t.value k.attr < t.value a := by
  show _ ↔ k.attr < a
  rw [← not_lt,indexKeyLt]
  have least := located.minLt
  constructor
  · intro h
    rcases lt_trichotomy k.attr a with less | same | greater
    · exact less
    · exact absurd (.inr ⟨same.symm,least⟩) h
    · exact absurd (.inl greater) h
  · rintro less (greater | ⟨same,-⟩)
    · exact lt_asymm less greater
    · exact less.ne' same

theorem maxKeyLe {a} : (⟨a,max⟩ : IndexKey t.Attr) ≤ k ↔
    t.value a < t.value k.attr ∨ t.value k.attr = t.value a ∧ k.rid = max := by
  show _ ↔ a < k.attr ∨ _
  rw [le_iff_lt_or_eq,indexKeyLt]
  have most : ¬ max < k.rid := (leRidMax k.rid).not_gt
  have same : (⟨a,max⟩ : IndexKey t.Attr) = k ↔ t.value k.attr = t.value a ∧ k.rid = max := by
    rw [t.valueInj.eq_iff]
    cases k
    simp only [IndexKey.mk.injEq]
    exact ⟨fun ⟨h,h'⟩ => ⟨h.symm,h'.symm⟩,fun ⟨h,h'⟩ => ⟨h.symm,h'.symm⟩⟩
  rw [same]
  simp [most]

/-- From the left key on lie the values above the bound and, where the bound is exclusive, an
entry of its own value whose record id is the greatest one. -/
theorem leftKeyLe (positive : 0 < t.length) (plain : t.Plain b.key) (located : RID.Located k.rid) :
    leftKey t b ≤ k ↔ aboveLeft t (some b) k.attr = true ∨
      b.inclusive = false ∧ t.value k.attr = t.bound b.key ∧ k.rid = max := by
  by_cases long : t.Long b.key
  · obtain ⟨fixed,should⟩ := KeyType.fixLongLeft positive plain long k.attr
    have other := KeyType.longNe long k.attr
    have strict : t.bound b.key ≤ t.value k.attr ↔ t.bound b.key < t.value k.attr :=
      ⟨fun h => lt_of_le_of_ne h (Ne.symm other),le_of_lt⟩
    rw [leftKey,should,Bool.or_true,if_pos rfl,minKeyLe located,fixed]
    simp [aboveLeft,strict,other]
  · obtain ⟨fixed,should⟩ := KeyType.fixFits long true
    rw [leftKey,should,Bool.or_false]
    cases inclusive : b.inclusive with
    | true => simp [minKeyLe located,fixed,aboveLeft,inclusive]
    | false => simp [maxKeyLe,fixed,aboveLeft,inclusive]

theorem leRightKey (located : RID.Located k.rid) : k ≤ rightKey t b ↔ belowRight t (some b) k.attr = true := by
  by_cases long : t.Long b.key
  · obtain ⟨fixed,should⟩ := KeyType.fixLongRight long
    have other := KeyType.longNe long k.attr
    have strict : t.value k.attr ≤ t.bound b.key ↔ t.value k.attr < t.bound b.key :=
      ⟨fun h => lt_of_le_of_ne h other,le_of_lt⟩
    rw [rightKey,should,Bool.or_true,if_pos rfl,leMaxKey,fixed,KeyType.longRight long]
    simp [belowRight,strict]
  · obtain ⟨fixed,should⟩ := KeyType.fixFits long false
    rw [rightKey,should,Bool.or_false]
    cases inclusive : b.inclusive with
    | true => simp [leMaxKey,fixed,belowRight,inclusive]
    | false => simp [leMinKey located,fixed,belowRight,inclusive]

end

/-! ### Scans of a range -/

section
variable (t : KeyType) (s : Handler (IndexKey t.Attr)) (left right : Option (RangeBound t.UserKey))

def inRange (a : t.Attr) : Bool := aboveLeft t left a && belowRight t right a

/-- A scan over a range returns the ids of its entries in the order of the leaves; `open` may
refuse the range only when no value at all lies in it. -/
def ScanCorrect : Prop := match openScanner t left right (newScanner s) with
  | (.ok _,scan) => ∀ fuel, s.disk.entries.length < fuel → (collect t.keyOps fuel scan).1 =
      .ok ((s.disk.entries.filter fun item => inRange t left right item.1.attr).map Prod.snd)
  | (.error (.rc .invalidArgument),_) => ∀ a, inRange t left right a = false
  | _ => False

def Clipped : Prop := ∃ l r, left = some l ∧ right = some r ∧ l.inclusive = true ∧ r.inclusive = false ∧
  t.Long r.key ∧ t.cut r.key = t.bound l.key

/-- The left bound is exclusive, and its value is stored with the greatest record id. -/
def MaxAtLeft : Prop := ∃ l, left = some l ∧ l.inclusive = false ∧ ∃ item ∈ s.disk.entries,
  t.value item.1.attr = t.bound l.key ∧ item.1.rid = max ∧
  ∀ r, right = some r → t.value item.1.attr < t.cut r.key

end

section
variable {t : KeyType} {s : Handler (IndexKey t.Attr)} {left right : Option (RangeBound t.UserKey)}

theorem rangeInvalidIff : rangeInvalid t left right = true ↔ ∃ l r, left = some l ∧ right = some r ∧
    (t.cut r.key < t.cut l.key ∨ t.cut l.key = t.cut r.key ∧ (l.inclusive = false ∨ r.inclusive = false)) := by
  cases left with
  | none => simp [rangeInvalid]
  | some l =>
    cases right with
    | none => simp [rangeInvalid]
    | some r =>
      obtain ⟨-,equal,greater⟩ := t.compareSign (t.read l.key) (t.read r.key)
      have less : t.read r.key < t.read l.key ↔ t.cut r.key < t.cut l.key := by
        rw [← t.readValue,← t.readValue]
        exact Iff.rfl
      have same : t.read l.key = t.read r.key ↔ t.cut l.key = t.cut r.key := by
        rw [← t.readValue,← t.readValue,t.valueInj.eq_iff]
      simp [rangeInvalid,greater,equal,less,same]

theorem refusedRange (invalid : rangeInvalid t left right = true) :
    (∃ a, inRange t left right a = true) ↔ Clipped t left right := by
  obtain ⟨l,r,rfl,rfl,order⟩ := rangeInvalidIff.mp invalid
  constructor
  · rintro ⟨a,inside⟩
    obtain ⟨above,below⟩ := Bool.and_eq_true_iff.mp inside
    have atLeast : t.bound l.key ≤ t.value a := by
      simp only [aboveLeft] at above
      split at above
      · exact of_decide_eq_true above
      · exact (of_decide_eq_true above).le
    have atMost : t.value a ≤ t.bound r.key := by
      simp only [belowRight] at below
      split at below
      · exact of_decide_eq_true below
      · exact (of_decide_eq_true below).le
    have leftCut := KeyType.cutLeValue atLeast
    have rightCut := KeyType.valueLeCut atMost
    obtain ⟨same,strict⟩ := order.resolve_left (not_lt.mpr (leftCut.trans rightCut))
    have value : t.value a = t.cut l.key := le_antisymm (same ▸ rightCut) leftCut
    have whole : t.bound l.key = t.cut l.key := le_antisymm (value ▸ atLeast) (t.cutLe _)
    have inclusive : l.inclusive = true := by
      by_contra exclusive
      simp only [aboveLeft,if_neg exclusive,decide_eq_true_eq] at above
      exact above.ne (whole.trans value.symm)
    have exclusive : r.inclusive = false := strict.resolve_left (by simp [inclusive])
    simp only [belowRight,exclusive,Bool.false_eq_true,if_false,decide_eq_true_eq] at below
    have long : t.Long r.key := by
      by_contra fits
      rw [← KeyType.cutFits fits,← same,← value] at below
      exact lt_irrefl _ below
    exact ⟨l,r,rfl,rfl,inclusive,exclusive,long,(same.symm.trans whole.symm)⟩
  · rintro ⟨_,_,⟨⟩,⟨⟩,inclusive,exclusive,long,same⟩
    refine ⟨t.read r.key,?_⟩
    have value := t.readValue r.key
    have below := (KeyType.longRight long (t.read r.key)).mp value.le
    rw [value,same] at below
    simp [inRange,aboveLeft,belowRight,inclusive,exclusive,below,value,same]

theorem clippedRefused (clipped : Clipped t left right) : rangeInvalid t left right = true := by
  obtain ⟨l,r,rfl,rfl,inclusive,exclusive,long,same⟩ := clipped
  have equal : t.cut l.key = t.cut r.key := by
    refine le_antisymm ((t.cutLe _).trans same.ge) ?_
    rw [← t.readValue r.key]
    exact KeyType.valueLeCut (by rw [t.readValue,same])
  exact rangeInvalidIff.mpr ⟨l,r,rfl,rfl,.inr ⟨equal,.inr exclusive⟩⟩

theorem rightKeyOrdered (right : Option (RangeBound t.UserKey)) :
    ∀ key, right.map (rightKey t) = some key → t.keyOps.OrderedAt key fun a => RID.Ordinary a.rid := by
  intro key named
  obtain ⟨b,-,rfl⟩ := Option.map_eq_some_iff.mp named
  refine keyOrderedAt t ?_
  simp only [rightKey]
  split <;> decide

theorem leftKeyOrdered (left : Option (RangeBound t.UserKey)) :
    ∀ key, left.map (leftKey t) = some key → t.keyOps.OrderedAt key fun a => RID.Ordinary a.rid := by
  intro key named
  obtain ⟨b,-,rfl⟩ := Option.map_eq_some_iff.mp named
  refine keyOrderedAt t ?_
  simp only [leftKey]
  split <;> decide

theorem scanBetween (valid : s.disk.Valid) (faults : s.mtr.faults = [])
    (located : ∀ k ∈ s.disk.searchKeys, RID.Located k.rid) (accepted : rangeInvalid t left right = false) :
    ∃ scan, openScanner t left right (newScanner s) = (.ok (),scan) ∧
      ∀ fuel, s.disk.entries.length < fuel → (collect t.keyOps fuel scan).1 = .ok ((s.disk.entries.filter fun item =>
        fromStart (left.map (leftKey t)) item.1 && !pastEnd (right.map (rightKey t)) item.1).map Prod.snd) := by
  rw [openScanner,accepted]
  exact scanOrdered valid faults (fun k inside => (located k inside).ordinary) (leftKeyOrdered left) (rightKeyOrdered right)

theorem openRefused (refused : rangeInvalid t left right = true) :
    ∃ scan, openScanner t left right (newScanner s) = (.error (.rc .invalidArgument),scan) := by
  refine ⟨(openScanner t left right (newScanner s)).2,Prod.ext ?_ rfl⟩
  simp only [openScanner,openRange,refused]
  rfl

variable (right) in
theorem keyBetween {k} (positive : 0 < t.length) (plain : ∀ b, left = some b → t.Plain b.key)
    (located : RID.Located k.rid) :
    (fromStart (left.map (leftKey t)) k && !pastEnd (right.map (rightKey t)) k) = true ↔
      (aboveLeft t left k.attr = true ∨ ∃ l, left = some l ∧ l.inclusive = false ∧
        t.value k.attr = t.bound l.key ∧ k.rid = max) ∧ belowRight t right k.attr = true := by
  have start : fromStart (left.map (leftKey t)) k = true ↔ aboveLeft t left k.attr = true ∨
      ∃ l, left = some l ∧ l.inclusive = false ∧ t.value k.attr = t.bound l.key ∧ k.rid = max := by
    cases left with
    | none => simp [fromStart,aboveLeft]
    | some b => simp [fromStart,leftKeyLe positive (plain b rfl) located]
  have stop : (!pastEnd (right.map (rightKey t)) k) = true ↔ belowRight t right k.attr = true := by
    cases right with
    | none => simp [pastEnd,belowRight]
    | some b => simp [pastEnd,← leRightKey located]
  rw [Bool.and_eq_true,start,stop]

theorem filterShorter {α} {list : List α} {p q} (less : ∀ a ∈ list, q a = true → p a = true) {a}
    (inside : a ∈ list) (yes : p a = true) (no : ¬ q a = true) : (list.filter q).length < (list.filter p).length := by
  have same : list.filter q = (list.filter p).filter q := by
    rw [filter_filter]
    refine filter_congr fun b here => ?_
    cases wanted : q b with
    | true => rw [less b here wanted,Bool.and_self]
    | false => rfl
  rw [same,length_filter_lt_length_iff_exists]
  exact ⟨a,mem_filter.mpr ⟨inside,yes⟩,no⟩

theorem scanReturnsRange (positive : 0 < t.length) (valid : s.disk.Valid) (faults : s.mtr.faults = [])
    (located : ∀ k ∈ s.disk.searchKeys, RID.Located k.rid)
    (plain : ∀ b, left = some b ∨ right = some b → t.Plain b.key) :
    Sorted s.disk.entries ∧ (ScanCorrect t s left right ↔ ¬ Clipped t left right ∧ ¬ MaxAtLeft t s left right) := by
  refine ⟨entriesSorted valid,?_⟩
  cases refused : rangeInvalid t left right with
  | true =>
    obtain ⟨scan,opened⟩ := openRefused (s := s) refused
    have inRangeOnly := refusedRange refused
    have apart : ¬ MaxAtLeft t s left right := by
      rintro ⟨l,rfl,exclusive,item,-,value,-,below⟩
      obtain ⟨_,r,⟨⟩,rfl,order⟩ := rangeInvalidIff.mp refused
      have less : t.cut l.key < t.cut r.key := (t.cutLe _).trans_lt (value ▸ below r rfl)
      rcases order with greater | ⟨same,-⟩
      · exact lt_asymm less greater
      · exact less.ne same
    simp only [ScanCorrect,opened]
    rw [← inRangeOnly]
    simp [apart]
  | false =>
    obtain ⟨scan,opened,collected⟩ := scanBetween valid faults located refused
    have whole : ¬ Clipped t left right := fun clipped => by
      rw [clippedRefused clipped] at refused
      cases refused
    have between := fun item inside => keyBetween right positive (fun b h => plain b (.inl h))
      (entriesStored located item inside)
    simp only [ScanCorrect,opened,whole,not_false_eq_true,true_and]
    constructor
    · rintro correct ⟨l,rfl,exclusive,item,inside,value,rid,below⟩
      have both := (collected _ (Nat.lt_succ_self _)).symm.trans (correct _ (Nat.lt_succ_self _))
      have sizes := congrArg List.length (Except.ok.inj both)
      simp only [length_map] at sizes
      have belowBound : belowRight t right item.1.attr = true := by
        cases right with
        | none => rfl
        | some r =>
          have less := (below r rfl).trans_le (t.cutLe _)
          simp only [belowRight]
          split
          · exact decide_eq_true less.le
          · exact decide_eq_true less
      have returned := (between item inside).mpr ⟨.inr ⟨l,rfl,exclusive,value,rid⟩,belowBound⟩
      have outside : ¬ inRange t (some l) right item.1.attr = true := by
        simp [inRange,aboveLeft,exclusive,value]
      exact (filterShorter (fun item inside wanted => (between item inside).mpr (by
        obtain ⟨above,below⟩ := Bool.and_eq_true_iff.mp wanted
        exact ⟨.inl above,below⟩)) inside returned outside).ne' sizes
    · intro apart fuel enough
      rw [collected fuel enough]
      refine congrArg (fun list => Except.ok (List.map Prod.snd list)) (filter_congr fun item inside => ?_)
      rw [Bool.eq_iff_iff,between item inside,inRange,Bool.and_eq_true]
      constructor
      · rintro ⟨above | ⟨l,rfl,exclusive,value,rid⟩,below⟩
        · exact ⟨above,below⟩
        · refine absurd ⟨l,rfl,exclusive,item,inside,value,rid,fun r named => ?_⟩ apart
          subst named
          -- the range was accepted with an exclusive left bound
          by_contra notLess
          have order : t.cut r.key ≤ t.cut l.key := (not_lt.mp notLess).trans (KeyType.valueLeCut value.le)
          have invalid : rangeInvalid t (some l) (some r) = true := rangeInvalidIff.mpr
            ⟨l,r,rfl,rfl,order.lt_or_eq.imp id fun same => ⟨same.symm,.inl exclusive⟩⟩
          rw [refused] at invalid
          cases invalid
      · rintro ⟨above,below⟩
        exact ⟨.inl above,below⟩

end

theorem oneLeafValid {K} [LinearOrder K] (disk : IndexFile K) (items : List (K × RID)) (counted : 0 < disk.file.pageCount)
    (root : disk.header.rootPage ≠ bpInvalidPageNum)
    (leaf : disk.node disk.header.rootPage = .leaf bpInvalidPageNum bpInvalidPageNum items) (filled : items ≠ [])
    (sorted : Sorted items) : disk.Valid ∧ disk.searchKeys = items.map Prod.fst := by
  obtain ⟨n,more⟩ : ∃ n, disk.file.pageCount = n + 1 := ⟨disk.file.pageCount - 1,by omega⟩
  have row : disk.leafPages = [disk.header.rootPage] := by simp [IndexFile.leafPages,root,more,leaves,leaf]
  refine ⟨.inr ⟨0,counted,⟨_,items,leaf,filled,sorted,fun item inside => ⟨bot_le,keyLtTop _⟩⟩,?_,?_⟩,?_⟩
  · simp [row,LeafChain,Node.next?,leaf]
  · simpa [row] using root.symm
  · simp [IndexFile.searchKeys,root,more,keysBelow,leaf]

def abcd : (KeyType.chars 4).Attr := ⟨[65,66,67,68],by simp,by simp⟩

def abcdFile : Handler (IndexKey (KeyType.chars 4).Attr) :=
  (insertEntry (KeyType.chars 4).keyOps abcd ⟨1,0⟩ (create (KeyType.chars 4).keyOps 0 4 6 6 (emptyFile 1)).2).2

def abcKey : CharKey := ⟨[65,66,67],by simp⟩
def abcdKey : CharKey := ⟨[65,66,67,68],by simp⟩
def abcd1Key : CharKey := ⟨[65,66,67,68,49],by simp⟩

theorem abcdFileValid : abcdFile.disk.Valid ∧ abcdFile.disk.searchKeys = [⟨abcd,⟨1,0⟩⟩] :=
  oneLeafValid abcdFile.disk [(⟨abcd,⟨1,0⟩⟩,⟨1,0⟩)] (by decide +kernel) (by decide +kernel) (by decide +kernel) (by simp)
    (pairwise_singleton _ _)

/-- `ABCD` lies in `[ABCD,ABCD1)`, and the range is refused. -/
theorem clippedScan : abcdFile.disk.Valid ∧ abcdFile.disk.entries = [(⟨abcd,⟨1,0⟩⟩,⟨1,0⟩)] ∧
    inRange (.chars 4) (some ⟨abcdKey,true⟩) (some ⟨abcd1Key,false⟩) abcd = true ∧
    (openScanner (.chars 4) (some ⟨abcdKey,true⟩) (some ⟨abcd1Key,false⟩) (newScanner abcdFile)).1 =
      .error (.rc .invalidArgument) ∧
    ¬ ScanCorrect (.chars 4) abcdFile (some ⟨abcdKey,true⟩) (some ⟨abcd1Key,false⟩) := by
  have lies : inRange (.chars 4) (some ⟨abcdKey,true⟩) (some ⟨abcd1Key,false⟩) abcd = true := by decide +kernel
  have refused : (openScanner (.chars 4) (some ⟨abcdKey,true⟩) (some ⟨abcd1Key,false⟩) (newScanner abcdFile)).1 =
      .error (.rc .invalidArgument) := by decide +kernel
  refine ⟨abcdFileValid.1,by decide +kernel,lies,refused,fun correct => ?_⟩
  obtain ⟨scan,opened⟩ := openRefused (s := abcdFile)
    (by decide +kernel : rangeInvalid (.chars 4) (some ⟨abcdKey,true⟩) (some ⟨abcd1Key,false⟩) = true)
  rw [correct abcd] at lies
  cases lies

theorem abcdScan : abcdFile.disk.Valid ∧ inRange (.chars 4) (some ⟨abcKey,true⟩) (some ⟨abcd1Key,false⟩) abcd = true ∧
    ScanCorrect (.chars 4) abcdFile (some ⟨abcKey,true⟩) (some ⟨abcd1Key,false⟩) := by
  refine ⟨abcdFileValid.1,by decide +kernel,(scanReturnsRange (t := .chars 4) (by decide) abcdFileValid.1 (by decide +kernel)
    ?_ ?_).2.mpr ⟨?_,?_⟩⟩
  · rw [abcdFileValid.2]
    intro k inside
    rw [mem_singleton.mp inside]
    decide
  · rintro b (h | h) <;> cases h <;> simp [KeyType.Plain,abcKey,abcd1Key]
  · rintro ⟨l,r,⟨⟩,⟨⟩,-,-,-,same⟩
    revert same
    decide
  · rintro ⟨l,⟨⟩,exclusive,-⟩
    cases exclusive

end MiniOb.BplusTree
