import Mathlib.Data.List.Basic
import Mathlib.Data.List.Perm.Basic

/-! Sorting by a comparison that is a strict weak order on the elements at hand: what `std::sort` asks for
and what it promises. -/
namespace MiniOb.Sorting
variable {α : Type} {elements : List α} {less : α → α → Bool}

structure StrictWeakOn (elements : List α) (less : α → α → Bool) : Prop where
  irrefl : ∀ a ∈ elements, less a a = false
  trans : ∀ a ∈ elements, ∀ b ∈ elements, ∀ c ∈ elements, less a b = true → less b c = true → less a c = true
  incomparable : ∀ a ∈ elements, ∀ b ∈ elements, ∀ c ∈ elements, less a b = false → less b a = false →
    less b c = false → less c b = false → less a c = false ∧ less c a = false

abbrev SortFunction := (α : Type) → (α → α → Bool) → List α → List α

def Sorts (sort : SortFunction) : Prop :=
  ∀ (α : Type) (less : α → α → Bool) (list : List α), StrictWeakOn list less →
    (sort α less list).Perm list ∧ (sort α less list).Pairwise fun a b => less b a = false

theorem strictWeakOf (le : α → α → Prop) (total : ∀ a ∈ elements, ∀ b ∈ elements, le a b ∨ le b a)
    (trans : ∀ a ∈ elements, ∀ b ∈ elements, ∀ c ∈ elements, le a b → le b c → le a c)
    (same : ∀ a ∈ elements, ∀ b ∈ elements, (less a b = true ↔ ¬le b a)) : StrictWeakOn elements less := by
  have off : ∀ a ∈ elements, ∀ b ∈ elements, (less a b = false ↔ le b a) := fun a inA b inB => by
    rw [← Bool.not_eq_true,same a inA b inB,not_not]
  refine ⟨fun a inA => (off a inA a inA).mpr ((total a inA a inA).elim id id),fun a inA b inB c inC first second => ?_,
    fun a inA b inB c inC ab ba bc cb => ?_⟩
  · rw [same a inA b inB] at first
    rw [same b inB c inC] at second
    rw [same a inA c inC]
    intro back
    exact second (trans c inC a inA b inB back ((total a inA b inB).resolve_right first))
  · rw [off a inA b inB] at ab
    rw [off b inB a inA] at ba
    rw [off b inB c inC] at bc
    rw [off c inC b inB] at cb
    rw [off a inA c inC,off c inC a inA]
    exact ⟨trans c inC b inB a inA bc ab,trans a inA b inB c inC ba cb⟩

theorem StrictWeakOn.negative (weak : StrictWeakOn elements less) (inA : a ∈ elements) (inB : b ∈ elements)
    (inC : c ∈ elements) (ba : less b a = false) (cb : less c b = false) : less c a = false := by
  by_contra above
  rw [Bool.not_eq_false] at above
  have ab : less a b = false := Bool.eq_false_iff.mpr fun first => by
    rw [weak.trans c inC a inA b inB above first] at cb
    cases cb
  have bc : less b c = false := Bool.eq_false_iff.mpr fun second => by
    rw [weak.trans b inB c inC a inA second above] at ba
    cases ba
  rw [(weak.incomparable a inA b inB c inC ab ba bc cb).2] at above
  cases above

/-! Insertion sort as `std::sort` has it for short ranges: an element less than the first goes to the front
at once, another one moves left past those it is less than. What is sorted stands in reverse. -/

def moveLeft (less : α → α → Bool) (x : α) : List α → List α
  | [] => [x]
  | y :: rest => if less x y then y :: moveLeft less x rest else x :: y :: rest

def place (less : α → α → Bool) (sorted : List α) (x : α) : List α :=
  match sorted.getLast? with
  | none => [x]
  | some first => if less x first then sorted ++ [x] else moveLeft less x sorted

def sortAll (α : Type) (less : α → α → Bool) (list : List α) : List α := (list.foldl (place less) []).reverse

theorem moveLeftPerm (x : α) (sorted : List α) : (moveLeft less x sorted).Perm (x :: sorted) := by
  induction sorted with
  | nil => exact .refl _
  | cons y rest ih =>
    rw [moveLeft]
    split
    · exact (ih.cons y).trans (.swap x y rest)
    · exact .refl _

theorem placePerm (sorted : List α) (x : α) : (place less sorted x).Perm (x :: sorted) := by
  unfold place
  split
  · rename_i empty
    rw [List.getLast?_eq_none_iff.mp empty]
  · split
    · exact List.perm_append_singleton x sorted
    · exact moveLeftPerm x sorted

section
variable (weak : StrictWeakOn elements less) {x : α} (inX : x ∈ elements) {sorted : List α}
  (inside : ∀ y ∈ sorted, y ∈ elements) (ordered : sorted.Pairwise fun a b => less a b = false)
include weak inX inside ordered

theorem moveLeftSorted : (moveLeft less x sorted).Pairwise fun a b => less a b = false := by
  induction sorted with
  | nil => exact List.pairwise_singleton _ _
  | cons y rest ih =>
    obtain ⟨inY,inRest⟩ := List.forall_mem_cons.mp inside
    obtain ⟨first,later⟩ := List.pairwise_cons.mp ordered
    rw [moveLeft]
    split
    · rename_i below
      refine List.pairwise_cons.mpr ⟨fun z inZ => ?_,ih inRest later⟩
      rcases List.mem_cons.mp ((moveLeftPerm x rest).mem_iff.mp inZ) with rfl | inZ
      · refine Bool.eq_false_iff.mpr fun above => ?_
        have := weak.trans _ inX _ inY _ inX below above
        rw [weak.irrefl _ inX] at this
        cases this
      · exact first z inZ
    · rename_i notBelow
      rw [Bool.not_eq_true] at notBelow
      refine List.pairwise_cons.mpr ⟨List.forall_mem_cons.mpr ⟨notBelow,fun z inZ => ?_⟩,ordered⟩
      exact weak.negative (inRest z inZ) inY inX (first z inZ) notBelow

theorem placeSorted : (place less sorted x).Pairwise fun a b => less a b = false := by
  unfold place
  split
  · exact List.pairwise_singleton _ _
  · rename_i first last
    split
    · rename_i below
      obtain ⟨before,rfl⟩ := List.getLast?_eq_some_iff.mp last
      refine List.pairwise_append.mpr ⟨ordered,List.pairwise_singleton _ _,fun y inY z inZ => ?_⟩
      obtain rfl := List.mem_singleton.mp inZ
      have inFirst := inside first (by simp)
      -- an element below `z` would be below the first one
      have least : less y first = false := by
        rcases List.mem_append.mp inY with early | same
        · exact (List.pairwise_append.mp ordered).2.2 y early first (List.mem_singleton.mpr rfl)
        · rw [List.mem_singleton.mp same]
          exact weak.irrefl _ inFirst
      refine Bool.eq_false_iff.mpr fun above => ?_
      rw [weak.trans _ (inside y inY) _ inX _ inFirst above below] at least
      cases least
    · exact moveLeftSorted weak inX inside ordered

end

theorem foldPlaced (weak : StrictWeakOn elements less) {list sorted : List α} (inList : ∀ y ∈ list, y ∈ elements)
    (inside : ∀ y ∈ sorted, y ∈ elements) (ordered : sorted.Pairwise fun a b => less a b = false) :
    (list.foldl (place less) sorted).Perm (list ++ sorted) ∧
      (list.foldl (place less) sorted).Pairwise fun a b => less a b = false := by
  induction list generalizing sorted with
  | nil => exact ⟨.refl _,ordered⟩
  | cons x rest ih =>
    obtain ⟨inX,inRest⟩ := List.forall_mem_cons.mp inList
    have inside' : ∀ y ∈ place less sorted x, y ∈ elements := fun y inY => by
      rcases List.mem_cons.mp ((placePerm sorted x).mem_iff.mp inY) with rfl | inY
      · exact inX
      · exact inside y inY
    obtain ⟨perm,ordered'⟩ := ih inRest inside' (placeSorted weak inX inside ordered)
    exact ⟨perm.trans (((placePerm sorted x).append_left rest).trans List.perm_middle),ordered'⟩

theorem sortAllSorts : Sorts sortAll := by
  intro α less list weak
  obtain ⟨perm,ordered⟩ := foldPlaced weak (fun _ inside => inside) (by simp) List.Pairwise.nil
  rw [List.append_nil] at perm
  exact ⟨(List.reverse_perm _).trans perm,List.pairwise_reverse.mpr ordered⟩

theorem strictWeakKey {key : β → α} {list : List β} :
    StrictWeakOn (list.map key) less ↔ StrictWeakOn list fun a b => less (key a) (key b) := by
  constructor
  · rintro ⟨irrefl,trans,incomparable⟩
    simp only [List.forall_mem_map] at irrefl trans incomparable
    exact ⟨irrefl,trans,incomparable⟩
  · rintro ⟨irrefl,trans,incomparable⟩
    constructor <;> simpa only [List.forall_mem_map]

end MiniOb.Sorting
