import Mathlib.Data.Nat.Init
import Mathlib.Logic.Relation

/-! Loops without a bound of their own. A body goes on in a new state or stops with a result; a run is
counted in iterations, and a loop stops when some number of iterations reaches the result. -/
namespace MiniOb.Loop
variable {σ ρ : Type*}

def runFor (body : σ → σ ⊕ ρ) : Nat → σ → Option ρ
  | 0, _ => none
  | n + 1, s => match body s with
    | .inl t => runFor body n t
    | .inr r => some r

def Stops (body : σ → σ ⊕ ρ) (s : σ) (r : ρ) : Prop := ∃ n, runFor body n s = some r

variable {body : σ → σ ⊕ ρ} {s t : σ} {r r' : ρ}

theorem stopsNow (last : body s = .inr r) : Stops body s r := ⟨1,by simp [runFor,last]⟩

theorem stopsStep (once : body s = .inl t) (rest : Stops body t r) : Stops body s r := by
  obtain ⟨n,ran⟩ := rest
  exact ⟨n + 1,by simp [runFor,once,ran]⟩

theorem stopsAfterStep (once : body s = .inl t) (whole : Stops body s r) : Stops body t r := by
  obtain ⟨n,ran⟩ := whole
  cases n with
  | zero => simp [runFor] at ran
  | succ n => exact ⟨n,by simpa [runFor,once] using ran⟩

theorem stopsCongr (same : body s = body t) (stops : Stops body t r) : Stops body s r := by
  obtain ⟨n,ran⟩ := stops
  cases n with
  | zero => simp [runFor] at ran
  | succ n => exact ⟨n + 1,by simpa [runFor,same] using ran⟩

theorem stopsUnique (one : Stops body s r) (other : Stops body s r') : r = r' := by
  obtain ⟨n,ran⟩ := one
  induction n generalizing s with
  | zero => simp [runFor] at ran
  | succ n ih =>
    cases step : body s with
    | inl t =>
      simp only [runFor,step] at ran
      exact ih (stopsAfterStep step other) ran
    | inr q =>
      obtain ⟨m,ran'⟩ := other
      cases m with
      | zero => simp [runFor] at ran'
      | succ m =>
        simp only [runFor,step] at ran ran'
        exact Option.some.inj (ran.symm.trans ran')

theorem stopsInvariant {inv : σ → Prop} {P : ρ → Prop}
    (keep : ∀ s t, inv s → body s = .inl t → inv t) (last : ∀ s r, inv s → body s = .inr r → P r)
    (start : inv s) (stops : Stops body s r) : P r := by
  obtain ⟨n,ran⟩ := stops
  induction n generalizing s with
  | zero => simp [runFor] at ran
  | succ n ih =>
    cases step : body s with
    | inl t =>
      simp only [runFor,step] at ran
      exact ih (keep s t start step) ran
    | inr q =>
      simp only [runFor,step] at ran
      cases Option.some.inj ran
      exact last _ _ start step

theorem neverStops {inv : σ → Prop} (keep : ∀ s, inv s → ∃ t, body s = .inl t ∧ inv t) (start : inv s) :
    ¬ Stops body s r := by
  intro stops
  have kept : ∀ s t, inv s → body s = .inl t → inv t := by
    intro s t here step
    obtain ⟨u,goes,there⟩ := keep s here
    cases Sum.inl.inj (step.symm.trans goes)
    exact there
  have last : ∀ s (r : ρ), inv s → body s = .inr r → False := by
    intro s r here step
    obtain ⟨u,goes,_⟩ := keep s here
    simp [goes] at step
  exact stopsInvariant (P := fun _ => False) kept last start stops

def Reaches (body : σ → σ ⊕ ρ) : σ → σ → Prop := Relation.ReflTransGen fun s t => body s = .inl t

theorem stopsIffReached (reached : Reaches body s t) : Stops body s r ↔ Stops body t r := by
  induction reached with
  | refl => exact Iff.rfl
  | tail _ once ih => exact ih.trans ⟨stopsAfterStep once,stopsStep once⟩

end MiniOb.Loop
