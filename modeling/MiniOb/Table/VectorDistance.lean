import Mathlib.Algebra.BigOperators.Fin
import Mathlib.Analysis.Real.Sqrt
import Mathlib.Tactic.Linarith
import MiniOb.Common.Types
import MiniOb.Lib.Number

/-! The distances of two vectors: `DISTANCE` of a query (`VectorType` and `FunctionExpr::eval_distance`) and
`IvfflatIndex::compute_distance`, over the operations of `float`. -/
namespace MiniOb
open Sorting

/- `numeric_limits<float>::max()` and `1e-8f`. -/
def floatMax : ℚ := (2 ^ 24 - 1) * 2 ^ 104
def tiny : ℚ := 11258999 / 2 ^ 50

section
variable {F : Type} (ops : Arithmetic F) {dim : Nat}

def total (terms : Fin dim → F) : F := (List.finRange dim).foldl (fun sum i => ops.add sum (terms i)) (ops.ofRat 0)

def dotOf (a b : Fin dim → F) : F := total ops fun i => ops.mul (a i) (b i)

def squaredGap (a b : Fin dim → F) : F := total ops fun i => ops.mul (ops.sub (a i) (b i)) (ops.sub (a i) (b i))

namespace VectorType

def cosineDistance (a b : Fin dim → F) : Except RC F :=
  if dim = 0 then .error .invalidArgument
  else
    let normA := ops.sqrt (dotOf ops a a)
    let normB := ops.sqrt (dotOf ops b b)
    if ops.less normA (ops.ofRat tiny) ∨ ops.less normB (ops.ofRat tiny) then .error .invalidArgument
    else
      let similarity := ops.div (dotOf ops a b) (ops.mul normA normB)
      let similarity := if ops.less (ops.ofRat 1) similarity then ops.ofRat 1 else similarity
      let similarity := if ops.less similarity (ops.ofRat (-1)) then ops.ofRat (-1) else similarity
      .ok (ops.sub (ops.ofRat 1) similarity)

def dotProduct (a b : Fin dim → F) : Except RC F :=
  if dim = 0 then .error .invalidArgument else .ok (ops.neg (dotOf ops a b))

def euclideanDistance (a b : Fin dim → F) : Except RC F :=
  if dim = 0 then .error .invalidArgument else .ok (squaredGap ops a b)

end VectorType

/- `strcasecmp` gives 0. -/
def SameLetters (a b : String) : Prop := a.toList.map Char.toLower = b.toList.map Char.toLower
  deriving Decidable

def evalDistance (method : String) (a b : Fin dim → F) : Except RC F :=
  if SameLetters method "cosine" then VectorType.cosineDistance ops a b
  else if SameLetters method "dot" then VectorType.dotProduct ops a b
  else if SameLetters method "euclidean" ∨ SameLetters method "l2" then VectorType.euclideanDistance ops a b
  else .error .invalidArgument

def computeDistance (method : String) (a b : Fin dim → F) : F :=
  if method = "cosine" then
    let normA := dotOf ops a a
    let normB := dotOf ops b b
    if ops.less normA (ops.ofRat tiny) ∨ ops.less normB (ops.ofRat tiny) then ops.ofRat floatMax
    else
      let cosSim := ops.div (dotOf ops a b) (ops.mul (ops.sqrt normA) (ops.sqrt normB))
      -- `max(-1.0f, min(1.0f, cos_sim))`
      let cosSim := if ops.less cosSim (ops.ofRat 1) then cosSim else ops.ofRat 1
      let cosSim := if ops.less (ops.ofRat (-1)) cosSim then cosSim else ops.ofRat (-1)
      ops.sub (ops.ofRat 1) cosSim
  else if method = "dot" then ops.neg (dotOf ops a b)
  else squaredGap ops a b

end

/-! ### Exact numbers -/

abbrev Vec (dim : Nat) := Fin dim → ℝ

open Classical in
noncomputable def reals : Arithmetic ℝ where
  ofRat := Rat.cast
  neg := Neg.neg
  sqrt := Real.sqrt
  add := Add.add
  sub := Sub.sub
  mul := Mul.mul
  div := Div.div
  less a b := decide (a < b)
  isNan _ := false
  lessNan _ _ out := by simp at out
  ordered _ _ := strictWeakOf (· ≤ ·) (fun a _ b _ => le_total a b) (fun _ _ _ _ _ _ => le_trans) (fun a _ b _ => by simp)

@[simp] theorem realsRat (q : ℚ) : reals.ofRat q = q := rfl
@[simp] theorem realsNeg (a : ℝ) : reals.neg a = -a := rfl
@[simp] theorem realsSqrt (a : ℝ) : reals.sqrt a = √a := rfl
@[simp] theorem realsAdd (a b : ℝ) : reals.add a b = a + b := rfl
@[simp] theorem realsSub (a b : ℝ) : reals.sub a b = a - b := rfl
@[simp] theorem realsMul (a b : ℝ) : reals.mul a b = a * b := rfl
@[simp] theorem realsDiv (a b : ℝ) : reals.div a b = a / b := rfl
@[simp] theorem realsLess (a b : ℝ) : reals.less a b = true ↔ a < b := by simp [reals]

variable {dim : Nat}

/-- The cosine distance without the bounds on the norms. -/
noncomputable def cosineGap (a b : Vec dim) : ℝ :=
  1 - max (-1) (min 1 (dotOf reals a b / (√(dotOf reals a a) * √(dotOf reals b b))))

theorem clampSame (x : ℝ) : (if (if 1 < x then 1 else x) < -1 then -1 else if 1 < x then 1 else x) = max (-1) (min 1 x) := by
  by_cases above : 1 < x
  · rw [if_pos above,min_eq_left above.le,if_neg (by norm_num),max_eq_right (by norm_num)]
  · rw [if_neg above,min_eq_right (not_lt.mp above)]
    split
    · exact (max_eq_left (by linarith)).symm
    · exact (max_eq_right (by linarith)).symm

theorem clampBack (x : ℝ) : (if -1 < (if x < 1 then x else 1) then if x < 1 then x else 1 else -1) = max (-1) (min 1 x) := by
  have low : (if x < 1 then x else 1) = min 1 x := by
    split
    · exact (min_eq_right (by linarith)).symm
    · exact (min_eq_left (by linarith)).symm
  rw [low]
  split
  · exact (max_eq_right (by linarith)).symm
  · exact (max_eq_left (by linarith)).symm

/-- The index compares the squared norms with `1e-8f`. -/
def Short (a b : Vec dim) : Prop := dotOf reals a a < tiny ∨ dotOf reals b b < tiny

noncomputable instance (a b : Vec dim) : Decidable (Short a b) := inferInstanceAs (Decidable (_ ∨ _))

theorem computeExact (method : String) (a b : Vec dim) : computeDistance reals method a b =
    if method = "cosine" then if Short a b then (floatMax : ℝ) else cosineGap a b
    else if method = "dot" then -dotOf reals a b else squaredGap reals a b := by
  have clamp := clampBack (dotOf reals a b / (√(dotOf reals a a) * √(dotOf reals b b)))
  unfold computeDistance cosineGap Short
  rw [← clamp]
  simp only [realsRat,realsNeg,realsSqrt,realsSub,realsMul,realsDiv,realsLess,Rat.cast_one,Rat.cast_neg]
  rfl

theorem evalExact {a b : Vec dim} (told : evalDistance reals method a b = .ok d) :
    d = if SameLetters method "cosine" then cosineGap a b
      else if SameLetters method "dot" then -dotOf reals a b else squaredGap reals a b := by
  have clamp := clampSame (dotOf reals a b / (√(dotOf reals a a) * √(dotOf reals b b)))
  unfold evalDistance VectorType.cosineDistance VectorType.dotProduct VectorType.euclideanDistance at told
  split at told
  · rw [if_pos ‹_›,cosineGap,← clamp]
    split at told
    · cases told
    dsimp only at told
    split at told
    · cases told
    cases told
    simp only [realsRat,realsSqrt,realsSub,realsMul,realsDiv,realsLess,Rat.cast_one,Rat.cast_neg]
  · rw [if_neg ‹_›]
    split at told
    · rw [if_pos ‹_›]
      split at told <;> cases told
      rfl
    · rw [if_neg ‹_›]
      split at told
      · split at told <;> cases told
        rfl
      · cases told

theorem cosineGapBelow (a b : Vec dim) : cosineGap a b < floatMax := by
  have bound : (2 : ℝ) < floatMax := by norm_num [floatMax]
  have low := le_max_left (-1 : ℝ) (min 1 (dotOf reals a b / (√(dotOf reals a a) * √(dotOf reals b b))))
  unfold cosineGap
  linarith

def Agree (x y du dv : ℝ) : Prop := (x < y ↔ du < dv) ∧ (y < x ↔ dv < du)

/-- When the index orders `u` and `v` like the values of `DISTANCE`. A spelling of `cosine` or `dot` that is not the
index's own is the squared distance there. -/
def AlikeWhen (method : String) (q u v : Vec dim) (du dv : ℝ) : Prop :=
  if method = "cosine" then
    (Short q u → Short q v → du = dv) ∧ (Short q u → ¬Short q v → dv < du) ∧ (¬Short q u → Short q v → du < dv)
  else if SameLetters method "cosine" ∨ (SameLetters method "dot" ∧ method ≠ "dot") then
    Agree (squaredGap reals q u) (squaredGap reals q v) du dv
  else True

theorem orderedAlikeIff {method} {q u v : Vec dim} (toldU : evalDistance reals method q u = .ok du)
    (toldV : evalDistance reals method q v = .ok dv) :
    Agree (computeDistance reals method q u) (computeDistance reals method q v) du dv ↔ AlikeWhen method q u v du dv := by
  have valueU := evalExact toldU
  have valueV := evalExact toldV
  unfold AlikeWhen
  rw [computeExact,computeExact]
  split
  · rename_i cosine
    rw [if_pos (by rw [cosine]; rfl)] at valueU valueV
    have farU := cosineGapBelow q u
    have farV := cosineGapBelow q v
    rw [← valueU] at farU ⊢
    rw [← valueV] at farV ⊢
    unfold Agree
    by_cases shortU : Short q u <;> by_cases shortV : Short q v <;> simp only [shortU,shortV,if_true,if_false] <;> grind
  · rename_i notCosine
    by_cases misread : SameLetters method "cosine" ∨ (SameLetters method "dot" ∧ method ≠ "dot")
    · have notDot : method ≠ "dot" := by
        rintro rfl
        exact absurd misread (by decide)
      rw [if_neg notDot,if_neg notDot,if_pos misread]
    · rw [if_neg misread,iff_true]
      obtain ⟨other,dot⟩ := not_or.mp misread
      rw [if_neg other] at valueU valueV
      rw [valueU,valueV]
      by_cases named : SameLetters method "dot"
      · have same : method = "dot" := by_contra fun differs => dot ⟨named,differs⟩
        rw [if_pos named,if_pos named,if_pos same,if_pos same]
        exact ⟨Iff.rfl,Iff.rfl⟩
      · have differs : method ≠ "dot" := by
          rintro rfl
          exact named rfl
        rw [if_neg named,if_neg named,if_neg differs,if_neg differs]
        exact ⟨Iff.rfl,Iff.rfl⟩

def alone (x : ℝ) : Vec 1 := fun _ => x

theorem totalSum (terms : Vec dim) : total reals terms = ∑ i, terms i := by
  rw [total,Fin.sum_univ_def,List.sum_eq_foldl,List.foldl_map]
  simp only [realsAdd,realsRat,Rat.cast_zero]

theorem dotSingle (x y : ℝ) : dotOf reals (alone x) (alone y) = x * y := by
  simp [dotOf,totalSum,alone]

theorem gapSingle (x y : ℝ) : squaredGap reals (alone x) (alone y) = (x - y) * (x - y) := by
  simp [squaredGap,totalSum,alone]

theorem cosineSingle {x y s : ℝ} (named : SameLetters method "cosine") (longX : tiny ≤ |x|) (longY : tiny ≤ |y|)
    (ratio : x * y = s * (|x| * |y|)) (unit : s = 1 ∨ s = -1) :
    evalDistance reals method (alone x) (alone y) = .ok (1 - s) := by
  have positive : (0 : ℝ) < tiny := by norm_num [tiny]
  have product : |x| * |y| ≠ 0 := (mul_pos (positive.trans_le longX) (positive.trans_le longY)).ne'
  have long : ¬(|x| < tiny ∨ |y| < tiny) := by
    rw [not_or,not_lt,not_lt]
    exact ⟨longX,longY⟩
  rw [evalDistance,if_pos named,VectorType.cosineDistance,if_neg one_ne_zero]
  simp only [dotSingle,realsRat,realsSqrt,realsSub,realsMul,realsDiv,realsLess,Rat.cast_one,Rat.cast_neg,Real.sqrt_mul_self_eq_abs,
    if_neg long,clampSame,ratio,mul_div_cancel_right₀ _ product]
  rcases unit with rfl | rfl <;> norm_num

/- `q` is longer than `1e-8f`, its squared norm is not. -/
theorem shortDistances (named : SameLetters method "cosine") :
    evalDistance reals method (alone 1e-5) (alone 1) = .ok 0 ∧
      evalDistance reals method (alone 1e-5) (alone (-1)) = .ok 2 := by
  constructor
  · rw [cosineSingle (s := 1) named (by norm_num [tiny]) (by norm_num [tiny]) (by norm_num) (.inl rfl),sub_self]
  · rw [cosineSingle (s := -1) named (by norm_num [tiny]) (by norm_num [tiny]) (by norm_num) (.inr rfl)]
    norm_num

theorem longDistances (named : SameLetters method "cosine") :
    evalDistance reals method (alone 1) (alone 3) = .ok 0 ∧
      evalDistance reals method (alone 1) (alone (-1 / 2)) = .ok 2 := by
  constructor
  · rw [cosineSingle (s := 1) named (by norm_num [tiny]) (by norm_num [tiny]) (by norm_num) (.inl rfl),sub_self]
  · rw [cosineSingle (s := -1) named (by norm_num [tiny]) (by norm_num [tiny]) (by norm_num [abs_of_neg]) (.inr rfl)]
    norm_num

theorem oppositeVectorsOrdered : evalDistance reals "cosine" (alone 1) (alone 3) = .ok 0 ∧
    evalDistance reals "cosine" (alone 1) (alone (-1 / 2)) = .ok 2 ∧
    computeDistance reals "cosine" (alone 1) (alone 3) < computeDistance reals "cosine" (alone 1) (alone (-1 / 2)) := by
  obtain ⟨toldU,toldV⟩ := @longDistances "cosine" rfl
  have longU : ¬Short (alone 1) (alone 3) := by
    rw [Short,dotSingle,dotSingle]
    norm_num [tiny]
  have longV : ¬Short (alone 1) (alone (-1 / 2)) := by
    rw [Short,dotSingle,dotSingle]
    norm_num [tiny]
  have agree := (orderedAlikeIff toldU toldV).mpr
    ⟨fun short => absurd short longU,fun short => absurd short longU,fun _ short => absurd short longV⟩
  exact ⟨toldU,toldV,agree.1.mpr (by norm_num)⟩

/- The index takes the squared norms for the norms, and an upper-case name for the euclidean distance. -/
theorem shortVectorTied : evalDistance reals "cosine" (alone 1e-5) (alone 1) = .ok 0 ∧
    evalDistance reals "cosine" (alone 1e-5) (alone (-1)) = .ok 2 ∧
    computeDistance reals "cosine" (alone 1e-5) (alone 1) = computeDistance reals "cosine" (alone 1e-5) (alone (-1)) ∧
    evalDistance reals "COSINE" (alone 1) (alone 3) = .ok 0 ∧ evalDistance reals "COSINE" (alone 1) (alone (-1 / 2)) = .ok 2 ∧
    computeDistance reals "COSINE" (alone 1) (alone (-1 / 2)) < computeDistance reals "COSINE" (alone 1) (alone 3) := by
  have far : ∀ y, computeDistance reals "cosine" (alone 1e-5) (alone y) = floatMax := fun y => by
    rw [computeExact,if_pos rfl,if_pos (.inl (by rw [dotSingle]; norm_num [tiny]))]
  have gap : ∀ x y, computeDistance reals "COSINE" (alone x) (alone y) = (x - y) * (x - y) := fun x y => by
    rw [computeExact,if_neg (by decide),if_neg (by decide),gapSingle]
  obtain ⟨shortU,shortV⟩ := @shortDistances "cosine" rfl
  obtain ⟨longU,longV⟩ := @longDistances "COSINE" (by decide)
  exact ⟨shortU,shortV,by rw [far,far],longU,longV,by norm_num [gap]⟩

end MiniOb
