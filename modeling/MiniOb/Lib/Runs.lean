import Mathlib.Data.List.Basic

/-! Runs of a step function that may refuse to go on: the states they pass through, and when a property holds
in all of them. -/
namespace MiniOb.Runs
open List
variable {σ α : Type}

def reached (step : σ → α → Option σ) : List α → σ → List σ
  | [],s => [s]
  | a :: rest,s => s :: match step s a with
    | some t => reached step rest t
    | none => []

def Along (step : σ → α → Option σ) (good : σ → α → Prop) : List α → σ → Prop
  | [],_ => True
  | a :: rest,s => ∀ t, step s a = some t → good s a ∧ Along step good rest t

variable {step : σ → α → Option σ} {good : σ → α → Prop} {inv holds : σ → Prop}

theorem reachedFirst (run : List α) (s : σ) : s ∈ reached step run s := by
  cases run with
  | nil => exact mem_singleton_self s
  | cons a rest => exact mem_cons_self

theorem reachedNext (taken : step s a = some t) (inside : u ∈ reached step rest t) :
    u ∈ reached step (a :: rest) s := by
  rw [reached,taken]
  exact mem_cons_of_mem s inside

theorem reachedLast (ended : run.foldlM step s = some t) : t ∈ reached step run s := by
  induction run generalizing s with
  | nil =>
    cases ended
    exact mem_singleton_self _
  | cons a rest ih =>
    obtain ⟨mid,taken,later⟩ := Option.bind_eq_some_iff.mp ended
    exact reachedNext taken (ih later)

theorem alongNext (taken : step s a = some t) (fine : good s a) (onward : Along step good rest t) :
    Along step good (a :: rest) s := by
  intro u same
  rw [taken] at same
  cases same
  exact ⟨fine,onward⟩

theorem reachedAlong (keeps : ∀ s a t, inv s → step s a = some t → good s a → inv t) (start : inv s)
    (along : Along step good run s) (inside : t ∈ reached step run s) : inv t := by
  induction run generalizing s with
  | nil => rwa [mem_singleton.mp inside]
  | cons a rest ih =>
    rcases mem_cons.mp inside with rfl | later
    · exact start
    · cases next : step s a with
      | none =>
        rw [next] at later
        cases later
      | some mid =>
        rw [next] at later
        obtain ⟨fine,onward⟩ := along mid next
        exact ih (keeps s a mid start next fine) onward later

theorem holdsIff (gives : ∀ s, inv s → holds s) (keeps : ∀ s a t, inv s → step s a = some t → good s a → inv t)
    (breaks : ∀ s a t, inv s → step s a = some t → ¬ good s a → ¬ holds t) (run : List α) (start : inv s) :
    (∀ t ∈ reached step run s, holds t) ↔ Along step good run s := by
  induction run generalizing s with
  | nil => exact iff_of_true (fun t inside => by rw [mem_singleton.mp inside]; exact gives s start) trivial
  | cons a rest ih =>
    rw [reached,Along,forall_mem_cons,and_iff_right (gives s start)]
    cases next : step s a with
    | none => exact iff_of_true (fun _ inside => absurd inside not_mem_nil) fun t ran => by cases ran
    | some mid =>
      constructor
      · intro all t ran
        cases ran
        have fine : good s a := by_contra fun bad => breaks s a mid start next bad (all mid (reachedFirst rest mid))
        exact ⟨fine,(ih (keeps s a mid start next fine)).mp all⟩
      · intro all
        obtain ⟨fine,later⟩ := all mid rfl
        exact (ih (keeps s a mid start next fine)).mpr later

end MiniOb.Runs
