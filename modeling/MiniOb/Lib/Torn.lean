import Mathlib.Order.Defs.LinearOrder

/-! A write that stops after some of its elements, over what stood there before. -/
namespace MiniOb
open List
variable {α : Type}

def torn (c : Nat) (new old : List α) : List α := if new.length ≤ c then new else new.take c ++ old.drop c

def Untorn (old new : List α) : Prop := ∀ c < new.length, torn c new old = old ∨ torn c new old = new

instance [DecidableEq α] (old new : List α) : Decidable (Untorn old new) := Nat.decidableBallLT _ _

theorem Untorn.cases (untorn : Untorn old new) (c : Nat) : torn c new old = old ∨ torn c new old = new := by
  by_cases full : new.length ≤ c
  · exact .inr (if_pos full)
  · exact untorn c (Nat.lt_of_not_le full)

theorem untornAt (front back : List α) (x y : α) : Untorn (front ++ x :: back) (front ++ y :: back) := by
  intro c less
  rw [torn,if_neg (Nat.not_le.mpr less)]
  by_cases early : c ≤ front.length
  · left
    rw [take_append_of_le_length early,drop_append_of_le_length early,← append_assoc,take_append_drop]
  · right
    have cut : ∀ z, (front ++ z :: back) = (front ++ [z]) ++ back := fun z => by simp
    have long : ∀ z : α, (front ++ [z]).length ≤ c := fun z => by
      rw [length_append,length_singleton]
      omega
    rw [cut x,cut y,take_append,take_of_length_le (long y),drop_append,drop_of_length_le (long x),
      nil_append,length_append,length_append,length_singleton,length_singleton,append_assoc,
      take_append_drop]

theorem tornBetween (same : front.length = front'.length) (more : back ≠ []) :
    torn front.length (front ++ back) (front' ++ back') = front ++ back' := by
  have long := length_pos_iff.mpr more
  rw [torn,if_neg (by rw [length_append]; omega),take_left,same,drop_left]

end MiniOb
