import Mathlib.Data.List.Lex
import Mathlib.Order.Lattice
import Mathlib.Tactic.Linarith
import Mathlib.Tactic.Ring

/-! Lists in lexicographic order, cut to a length. -/
namespace MiniOb.Lexicographic
open List

section
variable {α : Type} [LinearOrder α] {u v w : List α} {n : Nat}

theorem consLe {a b : α} {as bs : List α} : a :: as ≤ b :: bs ↔ a < b ∨ a = b ∧ as ≤ bs := by
  rw [← not_lt,cons_lt_cons_iff]
  constructor
  · intro h
    rcases lt_trichotomy a b with less | same | greater
    · exact .inl less
    · exact .inr ⟨same,not_lt.mp fun less => h (.inr ⟨same.symm,less⟩)⟩
    · exact absurd (.inl greater) h
  · rintro (less | ⟨rfl,rest⟩) (greater | ⟨same,tail⟩)
    · exact lt_asymm less greater
    · exact less.ne' same
    · exact lt_irrefl _ greater
    · exact not_lt.mpr rest tail

theorem nilLe : ([] : List α) ≤ u := by
  rw [← not_lt]
  exact not_lt_nil _

theorem leTake (short : w.length ≤ n) (long : n < u.length) : w ≤ u.take n ↔ w < u := by
  induction n generalizing u w with
  | zero =>
    obtain rfl : w = [] := length_eq_zero_iff.mp (by omega)
    obtain ⟨x,xs,rfl⟩ := exists_cons_of_length_pos long
    simp
  | succ n ih =>
    obtain ⟨x,xs,rfl⟩ := exists_cons_of_length_pos (by omega : 0 < u.length)
    cases w with
    | nil => simp [nilLe]
    | cons y ys =>
      simp only [length_cons] at short long
      rw [take_succ_cons,consLe,cons_lt_cons_iff,ih (by omega) (by omega)]

theorem takeMono (less : u ≤ v) (n : Nat) : u.take n ≤ v.take n := by
  induction n generalizing u v with
  | zero => simp
  | succ n ih =>
    cases u with
    | nil => simp [nilLe]
    | cons x xs =>
      cases v with
      | nil => exact absurd less (not_le.mpr (nil_lt_cons _ _))
      | cons y ys =>
        rw [take_succ_cons,take_succ_cons,consLe]
        rcases consLe.mp less with h | ⟨rfl,rest⟩
        · exact .inl h
        · exact .inr ⟨rfl,ih rest⟩

theorem takeLe (u : List α) (n : Nat) : u.take n ≤ u := by
  induction n generalizing u with
  | zero => simp [nilLe]
  | succ n ih =>
    cases u with
    | nil => simp
    | cons x xs =>
      rw [take_succ_cons,consLe]
      exact .inr ⟨rfl,ih xs⟩

end

def bump : List Nat → List Nat
  | [] => []
  | [x] => [x + 1]
  | x :: y :: rest => x :: bump (y :: rest)

theorem bumpLe {u w : List Nat} {n : Nat} (some : 0 < n) (short : w.length ≤ n) (long : n < u.length) :
    bump (u.take n) ≤ w ↔ u < w := by
  induction n generalizing u w with
  | zero => omega
  | succ n ih =>
    obtain ⟨x,xs,rfl⟩ := exists_cons_of_length_pos (by omega : 0 < u.length)
    simp only [length_cons] at long
    rw [take_succ_cons]
    cases n with
    | zero =>
      rw [take_zero,bump]
      cases w with
      | nil => simp
      | cons y ys =>
        obtain rfl : ys = [] := length_eq_zero_iff.mp (by simp only [length_cons] at short; omega)
        rw [consLe,cons_lt_cons_iff]
        simp only [le_refl,and_true,not_lt_nil,and_false,or_false]
        omega
    | succ n =>
      obtain ⟨x',xs',rfl⟩ := exists_cons_of_length_pos (by omega : 0 < xs.length)
      have step := fun {w : List Nat} (short : w.length ≤ n + 1) => ih (u := x' :: xs') (w := w) (by omega) short (by omega)
      rw [take_succ_cons] at step ⊢
      rw [bump]
      cases w with
      | nil => simp
      | cons y ys =>
        simp only [length_cons] at short
        rw [consLe,cons_lt_cons_iff,step (by omega)]

/-! ### Digits, the most significant first -/

section
variable {base : Nat}

def value (base : Nat) : List Nat → Nat
  | [] => 0
  | d :: rest => d * base ^ rest.length + value base rest

theorem valueLt {ds} (small : ∀ d ∈ ds, d < base) : value base ds < base ^ ds.length := by
  induction ds with
  | nil => exact Nat.one_pos
  | cons d rest ih =>
    obtain ⟨first,later⟩ := forall_mem_cons.mp small
    calc d * base ^ rest.length + value base rest < d * base ^ rest.length + base ^ rest.length := Nat.add_lt_add_left (ih later) _
      _ = (d + 1) * base ^ rest.length := (Nat.succ_mul ..).symm
      _ ≤ base * base ^ rest.length := Nat.mul_le_mul_right _ first
      _ = base ^ (rest.length + 1) := (Nat.pow_succ').symm

theorem valueAppend (ds es : List Nat) : value base (ds ++ es) = value base ds * base ^ es.length + value base es := by
  induction ds with
  | nil => simp [value]
  | cons d rest ih =>
    rw [cons_append,value,value,ih,length_append,pow_add]
    ring

/-- All numbers that begin as `a` does lie below those that begin as `b` does. -/
theorem ltOfGap {a b} (small : ∀ d ∈ b, d < base) (gap : (value base a + 1) * base ^ b.length ≤ value base b * base ^ a.length)
    (s t : List Nat) : a ++ s < b ++ t := by
  induction a generalizing b with
  | nil =>
    have less := valueLt small
    simp only [value,length_nil,pow_zero,zero_add,one_mul,mul_one] at gap
    omega
  | cons x xs ih =>
    cases b with
    | nil => simp [value] at gap
    | cons y ys =>
      obtain ⟨first,later⟩ := forall_mem_cons.mp small
      have less := valueLt later
      rw [cons_append,cons_append,cons_lt_cons_iff]
      simp only [value,length_cons,pow_succ,← mul_assoc] at gap
      replace gap := Nat.le_of_mul_le_mul_right gap (Nat.zero_lt_of_lt first)
      rcases lt_trichotomy x y with below | rfl | above
      · exact .inl below
      · exact .inr ⟨rfl,ih later (by linarith)⟩
      · have more := Nat.mul_le_mul_right (base ^ xs.length * base ^ ys.length) (Nat.succ_le_of_lt above)
        have most := Nat.mul_le_mul_right (base ^ xs.length) less.le
        nlinarith [Nat.zero_le (value base xs * base ^ ys.length)]

end

/-! ### Codes -/

section
variable {α : Type*} {below : α → α → Prop} {code : α → List Nat} {x y : α} {s t : List Nat}

/-- A code whose words sort as what they stand for, whatever follows them. -/
structure Ordered (below : α → α → Prop) (code : α → List Nat) : Prop where
  total : ∀ x y, below x y ∨ x = y ∨ below y x
  less : ∀ {x y}, below x y → ∀ s t, code x ++ s < code y ++ t

theorem Ordered.ltIff (ordered : Ordered below code) : code x ++ s < code y ++ t ↔ below x y ∨ x = y ∧ s < t := by
  constructor
  · intro less
    rcases ordered.total x y with here | rfl | above
    · exact .inl here
    · rcases lt_trichotomy s t with later | rfl | sooner
      · exact .inr ⟨rfl,later⟩
      · exact absurd less (lt_irrefl _)
      · exact absurd less (append_left_lt sooner).not_gt
    · exact absurd less (ordered.less above t s).not_gt
  · rintro (here | ⟨rfl,later⟩)
    · exact ordered.less here s t
    · exact append_left_lt later

theorem Ordered.codeLt (ordered : Ordered below code) : code x < code y ↔ below x y := by
  simpa using ordered.ltIff (s := []) (t := [])

theorem Ordered.unique (ordered : Ordered below code) (same : code x ++ s = code y ++ t) : x = y ∧ s = t := by
  rcases ordered.total x y with here | rfl | above
  · exact absurd same (ordered.less here s t).ne
  · exact ⟨rfl,append_cancel_left same⟩
  · exact absurd same (ordered.less above t s).ne'

end
end MiniOb.Lexicographic
