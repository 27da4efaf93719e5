import Mathlib.Data.Nat.Count
import Mathlib.Logic.Function.Basic

/-! A bit array and how many of its first bits are set. -/
namespace MiniOb.Bits
open Function

def population (bits : Nat → Bool) (n : Nat) : Nat := Nat.count (fun i => bits i = true) n

variable {bits : Nat → Bool} {i n : Nat}

theorem populationSucc : population bits (n + 1) = population bits n + if bits n then 1 else 0 :=
  Nat.count_succ _ _

theorem populationCongr (same : ∀ i < n, bits i = other i) :
    population bits n = population other n := by
  induction n with
  | zero => rfl
  | succ n ih =>
    rw [populationSucc,populationSucc,ih fun i less => same i (by omega),same n (by omega)]

theorem populationOutside (outside : n ≤ i) :
    population (update bits i b) n = population bits n :=
  populationCongr fun j less => update_of_ne (by omega) _ _

variable (bits) in
theorem populationSet (inside : i < n) (clear : bits i = false) :
    population (update bits i true) n = population bits n + 1 := by
  induction n with
  | zero => omega
  | succ n ih =>
    rw [populationSucc,populationSucc]
    rcases Nat.lt_succ_iff_lt_or_eq.mp inside with less | rfl
    · rw [ih less,update_of_ne (by omega)]
      omega
    · simp [populationOutside,clear]

theorem populationClear (inside : i < n) (set : bits i = true) :
    population (update bits i false) n + 1 = population bits n := by
  have back := populationSet (update bits i false) inside (update_self ..)
  rw [update_idem,← set,update_eq_self] at back
  exact back.symm

theorem populationLe (bits : Nat → Bool) (n : Nat) : population bits n ≤ n := Nat.count_le _

theorem someClear (fewer : population bits n < n) : ∃ i < n, bits i = false := by
  by_contra all
  simp only [not_exists,not_and,Bool.not_eq_false] at all
  have full : population bits n = n := by
    rw [(populationCongr all : _ = population (fun _ => true) n)]
    exact (Nat.count_iff_forall).mpr fun _ _ => rfl
  omega

theorem populationLess (inside : i < n) (clear : bits i = false) : population bits n < n := by
  have one := populationSet bits inside clear
  have le := populationLe (update bits i true) n
  omega

def firstClear (bits : Nat → Bool) (n : Nat) : Option Nat := (List.range n).find? fun i => !bits i

theorem firstClearSome (found : firstClear bits n = some i) : i < n ∧ bits i = false := by
  have clear := List.find?_some found
  have inside := List.mem_of_find?_eq_some found
  simp only [Bool.not_eq_true'] at clear
  exact ⟨List.mem_range.mp inside,clear⟩

def packed (bits : Nat → Bool) (n : Nat) : Nat := (List.range n).foldl (fun number bit => number + if bits bit then 2 ^ bit else 0) 0

theorem packedSucc (bits : Nat → Bool) (n : Nat) : packed bits (n + 1) = packed bits n + if bits n then 2 ^ n else 0 := by
  unfold packed
  rw [List.range_succ,List.foldl_append]
  rfl

theorem packedLess (bits : Nat → Bool) (n : Nat) : packed bits n < 2 ^ n := by
  induction n with
  | zero => exact Nat.one_pos
  | succ n ih =>
    rw [packedSucc,Nat.pow_succ]
    split
    · omega
    · omega

theorem testBitPacked (bits : Nat → Bool) (less : k < n) : (packed bits n).testBit k = bits k := by
  induction n with
  | zero => omega
  | succ n ih =>
    rw [packedSucc]
    rcases Nat.lt_succ_iff_lt_or_eq.mp less with below | rfl
    · rw [← ih below]
      split
      · rw [Nat.add_comm,Nat.testBit_two_pow_add_gt below]
      · rfl
    · cases here : bits k with
      | true =>
        rw [if_pos rfl,Nat.add_comm,Nat.testBit_two_pow_add_eq,Nat.testBit_lt_two_pow (packedLess bits k)]
        rfl
      | false => exact Nat.testBit_lt_two_pow (packedLess bits k)

end MiniOb.Bits
