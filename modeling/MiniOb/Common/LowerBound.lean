import Mathlib.Data.List.Basic
import Mathlib.Order.Defs.LinearOrder
import Mathlib.Algebra.Group.Nat.Defs

/-! `common::lower_bound` (`common/lang/lower_bound.h`): binary search with a
three-way comparison. `comp x` is what the source calls `comp(*iter, val)`. -/
namespace MiniOb
open List

namespace LowerBound
variable {α : Type}

/-- The search loop. `first` and `lastCount` are the source's variables; the first argument
bounds the iterations by the number of elements, and each iteration discards one at least. -/
def search (comp : α → Int) (xs : List α) : Nat → Nat → Nat → Nat × Bool
  | 0,first,_ => (first,false)
  | fuel+1,first,lastCount =>
      if lastCount = 0 then (first,false)
      else
        let step := lastCount / 2
        match xs[first + step]? with
        | none => (first,false)
        | some x =>
            if comp x = 0 then (first + step,true)
            else if comp x < 0 then search comp xs fuel (first + step + 1) (lastCount - (step + 1))
            else search comp xs fuel first step

end LowerBound

def lowerBound {α : Type} (comp : α → Int) (xs : List α) : Nat × Bool :=
  LowerBound.search comp xs xs.length 0 xs.length

namespace LowerBound
variable {α : Type} {comp : α → Int} {below above : List α}

/- A range sorted by `comp` falls into the elements below the value and the others, of
which only the first can be equal to it. -/
structure Cut (comp : α → Int) (below above : List α) : Prop where
  less : ∀ x ∈ below, comp x < 0
  notLess : ∀ x ∈ above, 0 ≤ comp x
  unique : ∀ x ∈ above.tail, 0 < comp x

theorem Cut.negative (cut : Cut comp below above)
    (found : (below ++ above)[i]? = some x) (negative : comp x < 0) : i < below.length := by
  by_contra h
  rw [getElem?_append_right (by omega)] at found
  have := cut.notLess x (mem_of_getElem? found)
  omega

theorem Cut.zero (cut : Cut comp below above)
    (found : (below ++ above)[i]? = some x) (zero : comp x = 0) :
    i = below.length ∧ above.head? = some x := by
  have right : below.length ≤ i := by
    by_contra h
    rw [getElem?_append_left (by omega)] at found
    have := cut.less x (mem_of_getElem? found)
    omega
  rw [getElem?_append_right right] at found
  cases above with
  | nil => simp at found
  | cons y rest =>
    rcases Nat.eq_or_lt_of_le right with same | later
    · subst same
      exact ⟨rfl,by simpa using found⟩
    · obtain ⟨d,hd⟩ : ∃ d, i - below.length = d + 1 := ⟨i - below.length - 1,by omega⟩
      rw [hd,getElem?_cons_succ] at found
      have := cut.unique x (mem_of_getElem? found)
      omega

theorem Cut.positive (cut : Cut comp below above)
    (found : (below ++ above)[i]? = some x) (positive : 0 < comp x) : below.length ≤ i := by
  by_contra h
  rw [getElem?_append_left (by omega)] at found
  have := cut.less x (mem_of_getElem? found)
  omega

def equalAt (comp : α → Int) (above : List α) : Bool :=
  match above.head? with
  | none => false
  | some x => comp x == 0

/- The invariant is that the answer lies between `first` and `first + lastCount`, and that
an element equal to the value has not been discarded. -/
theorem searchCut (cut : Cut comp below above) : ∀ fuel first lastCount, lastCount ≤ fuel →
    first ≤ below.length → below.length ≤ first + lastCount →
    first + lastCount ≤ (below ++ above).length →
    (first + lastCount = below.length → equalAt comp above = false) →
    search comp (below ++ above) fuel first lastCount = (below.length,equalAt comp above) := by
  intro fuel
  induction fuel with
  | zero =>
    intro first lastCount hf h1 h2 h3 h4
    have : first = below.length := by omega
    simp only [search]
    rw [h4 (by omega),this]
  | succ fuel ih =>
    intro first lastCount hf h1 h2 h3 h4
    rw [search]
    split
    · have : first = below.length := by omega
      rw [h4 (by omega),this]
    · have inside : first + lastCount / 2 < (below ++ above).length := by omega
      dsimp only
      rw [getElem?_eq_getElem inside]
      have found : (below ++ above)[first + lastCount / 2]? = some (below ++ above)[first + lastCount / 2] :=
        getElem?_eq_getElem inside
      generalize (below ++ above)[first + lastCount / 2] = x at found
      dsimp only
      split
      · rename_i zero
        obtain ⟨pos,head⟩ := cut.zero found zero
        simp only [equalAt,head,zero,beq_self_eq_true,Prod.mk.injEq,and_true]
        exact pos
      · split
        · rename_i negative
          have := cut.negative found negative
          exact ih _ _ (by omega) (by omega) (by omega) (by omega) (by intro h; exact h4 (by omega))
        · have pos := cut.positive found (by omega)
          refine ih _ _ (by omega) (by omega) (by omega) (by omega) ?_
          intro h
          -- the probe is the first element not below the value, and it is above it
          have same : first + lastCount / 2 = below.length := h
          rw [same,getElem?_append_right (Nat.le_refl _),Nat.sub_self] at found
          cases above with
          | nil => rfl
          | cons y rest =>
            have : y = x := by simpa using found
            subst this
            simp only [equalAt,head?_cons,beq_eq_false_iff_ne,ne_eq]
            omega

theorem lowerBoundCut (cut : Cut comp below above) :
    lowerBound comp (below ++ above) = (below.length,equalAt comp above) := by
  refine searchCut cut _ _ _ (Nat.le_refl _) (Nat.zero_le _) (by simp) (by simp) ?_
  intro h
  have : above = [] := by simpa using h
  simp [equalAt,this]

theorem searchLe (xs : List α) : ∀ fuel first lastCount, (search comp xs fuel first lastCount).1 ≤ first + lastCount := by
  intro fuel
  induction fuel with
  | zero => exact fun first lastCount => Nat.le_add_right _ _
  | succ fuel ih =>
    intro first lastCount
    rw [search]
    split
    · exact Nat.le_add_right _ _
    · dsimp only
      split
      · exact Nat.le_add_right _ _
      · split
        · omega
        · split
          · exact Nat.le_trans (ih _ _) (by omega)
          · exact Nat.le_trans (ih _ _) (by omega)

variable (comp) in
theorem lowerBoundLe (xs : List α) : (lowerBound comp xs).1 ≤ xs.length :=
  Nat.le_trans (searchLe xs _ _ _) (by omega)

/-! The template over its iterators. Positions count the items of the range: `BinaryIterator` moves
by `item_num_ * n` and divides a distance by `item_num_`. -/

inductive Iterator where
  | randomAccess
  | binary

/-- How far `advance` moves: `BinaryIterator::operator+=` takes an `int`. -/
def Iterator.advance : Iterator → Nat → Int
  | .randomAccess,step => step
  | .binary,step => (step : Int).bmod (2 ^ 32)

theorem Iterator.advanceBinary (small : step < 2 ^ 31) : binary.advance step = step := by
  have same := @Int.bmod_eq_of_le_mul_two step (2 ^ 32) (by omega) (by omega)
  exact same

/-- None at a read outside of the range. -/
def loop (advance : Nat → Int) (comp : α → Int) (xs : List α) (first : Int) (lastCount : Nat) : Option (Int × Bool) :=
  if lastCount = 0 then some (first,false)
  else
    let step := lastCount / 2
    let iter := first + advance step
    match if 0 ≤ iter then xs[iter.toNat]? else none with
    | none => none
    | some x =>
        if comp x = 0 then some (iter,true)
        else if comp x < 0 then loop advance comp xs (iter + 1) (lastCount - (step + 1))
        else loop advance comp xs first step
termination_by lastCount

def lowerBoundOver (iterator : Iterator) (comp : α → Int) (xs : List α) : Option (Int × Bool) :=
  loop iterator.advance comp xs 0 xs.length

variable (comp) in
theorem loopSearch {advance : Nat → Int} {xs : List α} (exact : ∀ step ≤ xs.length / 2, advance step = step) :
    ∀ fuel first lastCount, lastCount ≤ fuel → first + lastCount ≤ xs.length →
      loop advance comp xs first lastCount =
        some (((search comp xs fuel first lastCount).1 : Int),(search comp xs fuel first lastCount).2) := by
  intro fuel
  induction fuel with
  | zero =>
    intro first lastCount enough _
    rw [loop,if_pos (by omega)]
    rfl
  | succ fuel ih =>
    intro first lastCount enough inside
    rw [loop,search]
    split
    · rfl
    · have probe : first + lastCount / 2 < xs.length := by omega
      have moved : (first : Int) + advance (lastCount / 2) = ((first + lastCount / 2 : Nat) : Int) := by
        rw [exact _ (by omega)]
        rfl
      dsimp only
      rw [moved,if_pos (Int.natCast_nonneg _),Int.toNat_natCast,getElem?_eq_getElem probe]
      dsimp only
      split
      · rfl
      · split
        · exact ih (first + lastCount / 2 + 1) _ (by omega) (by omega)
        · exact ih first _ (by omega) (by omega)

structure ThreeWay (order : α → α → Int) : Prop where
  swap : ∀ x y, order x y < 0 ↔ 0 < order y x
  trans : ∀ x y z, order x y ≤ 0 → order y z < 0 → order x z < 0

theorem ThreeWay.cut {order : α → α → Int} (law : ThreeWay order) (val : α) {xs : List α}
    (sorted : xs.Pairwise (order · · < 0)) : ∃ below above, xs = below ++ above ∧ Cut (order · val) below above := by
  induction xs with
  | nil => exact ⟨[],[],rfl,by simp,by simp,by simp⟩
  | cons x xs ih =>
    obtain ⟨first,rest⟩ := pairwise_cons.mp sorted
    by_cases less : order x val < 0
    · obtain ⟨below,above,parts,cut⟩ := ih rest
      refine ⟨x :: below,above,by rw [parts,cons_append],?_,cut.notLess,cut.unique⟩
      exact forall_mem_cons.mpr ⟨less,cut.less⟩
    · have after : ∀ y ∈ xs, 0 < order y val := by
        intro y inside
        exact (law.swap val y).mp (law.trans val x y (by have := (law.swap x val).not.mp less; omega) (first y inside))
      refine ⟨[],x :: xs,rfl,by simp,forall_mem_cons.mpr ⟨by omega,?_⟩,after⟩
      exact fun y inside => Int.le_of_lt (after y inside)

/-- What the header promises: the position before which all items are below `val`, and whether the
item there equals it. -/
def Answers (iterator : Iterator) (order : α → α → Int) (xs : List α) (val : α) : Prop :=
  ∃ (i : Nat) (found : Bool), lowerBoundOver iterator (order · val) xs = some ((i : Int),found) ∧ i ≤ xs.length ∧
    (∀ x ∈ xs.take i, order x val < 0) ∧ (∀ x ∈ xs.drop i, 0 ≤ order x val) ∧
    (found = true ↔ ∃ x, xs[i]? = some x ∧ order x val = 0)

theorem answersShort (iterator : Iterator) {order : α → α → Int} (law : ThreeWay order) {xs : List α}
    (sorted : xs.Pairwise (order · · < 0)) (val : α) (fits : iterator = .binary → xs.length < 2 ^ 32) :
    Answers iterator order xs val := by
  obtain ⟨below,above,rfl,cut⟩ := law.cut val sorted
  have exact : ∀ step ≤ (below ++ above).length / 2, iterator.advance step = step := by
    intro step half
    cases iterator with
    | randomAccess => rfl
    | binary => exact Iterator.advanceBinary (by have := fits rfl; omega)
  refine ⟨below.length,equalAt (order · val) above,?_,by simp,?_,?_,?_⟩
  · have found := lowerBoundCut cut
    rw [lowerBound] at found
    have same := loopSearch (order · val) exact _ 0 _ (Nat.le_refl _) (Nat.le_of_eq (Nat.zero_add _))
    rw [found] at same
    exact same
  · rw [take_left]
    exact cut.less
  · rw [drop_left]
    exact cut.notLess
  · rw [getElem?_append_right (Nat.le_refl _),Nat.sub_self,← head?_eq_getElem?]
    unfold equalAt
    cases above.head? with
    | none => simp
    | some x => simp

theorem Iterator.advanceLe (step : Nat) : binary.advance step ≤ step := by
  have moved := Int.bmod_def step (2 ^ 32)
  have same : binary.advance step = (step : Int).bmod (2 ^ 32) := rfl
  omega

/- An `int` is below 2^31, so a longer step falls short by a multiple of 2^32. -/
theorem Iterator.advanceShort (long : 2 ^ 31 ≤ step) : binary.advance step + 2 ≤ step := by
  have moved := Int.bmod_def step (2 ^ 32)
  have same : binary.advance step = (step : Int).bmod (2 ^ 32) := rfl
  omega

/- No iteration moves the end of what is left to search to the right. -/
theorem loopLe {advance : Nat → Int} (notFurther : ∀ step, advance step ≤ step) (xs : List α) (first : Int) (lastCount : Nat)
    (ended : loop advance comp xs first lastCount = some (i,found)) : i ≤ first + lastCount := by
  induction lastCount using Nat.strongRecOn generalizing first with
  | _ lastCount ih =>
    have := notFurther (lastCount / 2)
    rw [loop] at ended
    split at ended
    · cases ended
      omega
    · dsimp only at ended
      split at ended
      · contradiction
      · split at ended
        · cases ended
          omega
        · split at ended
          · have := ih _ (by omega) _ ended
            omega
          · have := ih _ (by omega) _ ended
            omega

/- A first probe short of the middle: what it takes for the upper half ends before the last item. -/
theorem lastMissed {advance : Nat → Int} (notFurther : ∀ step, advance step ≤ step) {xs : List α}
    (below : ∀ x ∈ xs, comp x < 0) (short : advance ((xs.length + 1) / 2) + 2 ≤ ((xs.length + 1) / 2 : Nat))
    (ended : loop advance comp (xs ++ [val]) 0 (xs.length + 1) = some (i,found)) : i < xs.length := by
  rw [loop,if_neg (Nat.succ_ne_zero _)] at ended
  dsimp only at ended
  generalize advance ((xs.length + 1) / 2) = moved at ended short
  split at ended
  · contradiction
  · rename_i x read
    split at read
    · have inside : (0 + moved).toNat < xs.length := by omega
      rw [getElem?_append_left inside] at read
      have less := below x (mem_of_getElem? read)
      rw [if_neg (by omega),if_pos less] at ended
      have := loopLe notFurther _ _ _ ended
      omega
    · contradiction

theorem lastUnanswered {order : α → α → Int} {xs : List α} {val : α} (sorted : (xs ++ [val]).Pairwise (order · · < 0))
    (long : 2 ^ 32 ≤ xs.length + 1) : ¬ Answers .binary order (xs ++ [val]) val := by
  have below : ∀ x ∈ xs, order x val < 0 := by
    intro x inside
    exact (pairwise_append.mp sorted).2.2 x inside val (mem_singleton.mpr rfl)
  rintro ⟨i,found,ended,_,_,after,_⟩
  rw [lowerBoundOver,length_append,length_singleton] at ended
  have early := lastMissed Iterator.advanceLe below (Iterator.advanceShort (by omega)) ended
  rw [Int.ofNat_lt] at early
  have inside : xs[i] ∈ (xs ++ [val]).drop i := by
    rw [drop_append_of_le_length (Nat.le_of_lt early),drop_eq_getElem_cons early]
    exact mem_append_left _ mem_cons_self
  have := after _ inside
  have := below _ (getElem_mem early)
  omega

theorem lowerBoundIff (iterator : Iterator) {order : α → α → Int} (law : ThreeWay order) {xs : List α}
    (sorted : xs.Pairwise (order · · < 0)) :
    (∀ val, Answers iterator order xs val) ↔ (iterator = .binary → xs.length < 2 ^ 32) := by
  constructor
  · rintro answers rfl
    by_contra long
    have some : xs ≠ [] := by
      intro empty
      simp [empty] at long
    rw [← dropLast_append_getLast some] at sorted answers long
    rw [length_append,length_singleton] at long
    exact lastUnanswered sorted (by omega) (answers _)
  · exact fun fits val => answersShort iterator law sorted val fits

theorem integersThreeWay : ThreeWay fun x y : Int => x - y :=
  ⟨by omega,by omega⟩

theorem thirdOfFour : Answers .binary (fun x y : Int => x - y) [1,3,5,7] 5 :=
  (lowerBoundIff .binary integersThreeWay (by decide : Pairwise (fun x y : Int => x - y < 0) [1,3,5,7])).mpr
    (fun _ => by decide) 5

/- The first step, 2^31, is negative as an `int`. -/
theorem longOver {xs : List α} (long : xs.length = 2 ^ 32) : lowerBoundOver .binary comp xs = none := by
  have before : ¬ 0 ≤ (0 : Int) + Iterator.binary.advance (2 ^ 32 / 2) := by decide
  rw [lowerBoundOver,loop,long,if_neg (by decide)]
  dsimp only
  rw [if_neg before]

theorem longRangeMisread : ((range (2 ^ 32)).map Int.ofNat).Pairwise (fun x y => x - y < 0) ∧
    lowerBoundOver .binary (fun x : Int => x - 5) ((range (2 ^ 32)).map Int.ofNat) = none := by
  refine ⟨pairwise_map.mpr (pairwise_lt_range.imp fun less => ?_),longOver (by rw [length_map,length_range])⟩
  exact Int.sub_neg_of_lt (Int.ofNat_lt.mpr less)

end LowerBound
end MiniOb
