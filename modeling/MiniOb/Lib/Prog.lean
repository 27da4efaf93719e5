import Mathlib.Logic.Function.Basic

/-! Programs over a state that survives failure. A call ends with a value or with
an exit; the state it reached is kept in both cases, so a caller may inspect, undo or
ignore what a failed call left behind. -/
namespace MiniOb

def Prog (σ ε α : Type) : Type := σ → Except ε α × σ

namespace Prog
variable {σ ε α β : Type}

instance : Monad (Prog σ ε) where
  pure a := fun s => (.ok a,s)
  bind m f := fun s => match m s with
    | (.ok a,t) => f a t
    | (.error e,t) => (.error e,t)

def read (f : σ → α) : Prog σ ε α := fun s => (.ok (f s),s)

def update (f : σ → σ) : Prog σ ε Unit := fun s => (.ok (),f s)

def exit (e : ε) : Prog σ ε α := fun s => (.error e,s)

/-- Runs `m` and drops a failure that `soft` accepts: the caller goes on in the
state in which `m` stopped. -/
def ignore (soft : ε → Bool) (m : Prog σ ε Unit) : Prog σ ε Unit := fun s => match m s with
  | (.ok _,t) => (.ok (),t)
  | (.error e,t) => if soft e then (.ok (),t) else (.error e,t)

def ensure (m : Prog σ ε α) (f : σ → σ) : Prog σ ε α := fun s => ((m s).1,f (m s).2)

def whenever (c : Prop) [Decidable c] (m : Prog σ ε Unit) : Prog σ ε Unit := if c then m else pure ()

def each {γ : Type} (f : γ → Prog σ ε Unit) : List γ → Prog σ ε Unit
  | [] => pure ()
  | c :: rest => do
    f c
    each f rest

@[simp] theorem pureApply (a : α) (s : σ) : (pure a : Prog σ ε α) s = (.ok a,s) := rfl

@[simp] theorem readApply (f : σ → α) (s : σ) : (read f : Prog σ ε α) s = (.ok (f s),s) := rfl

@[simp] theorem updateApply (f : σ → σ) (s : σ) : (update f : Prog σ ε Unit) s = (.ok (),f s) := rfl

@[simp] theorem exitApply (e : ε) (s : σ) : (exit e : Prog σ ε α) s = (.error e,s) := rfl

theorem bindApply (m : Prog σ ε α) (f : α → Prog σ ε β) (s : σ) : (m >>= f) s = match m s with
      | (.ok a,t) => f a t
      | (.error e,t) => (.error e,t) := rfl

variable {m : Prog σ ε α} {f : α → Prog σ ε β} {s t : σ} {soft : ε → Bool}

theorem bindOk {a} (ok : m s = (.ok a,t)) : (m >>= f) s = f a t := by
  simp only [bindApply,ok]

theorem bindError {e} (failed : m s = (.error e,t)) : (m >>= f) s = (.error e,t) := by
  simp only [bindApply,failed]

theorem ignoreOk {m} (ok : m s = (.ok (),t)) : ignore soft m s = (.ok (),t) := by
  simp only [ignore,ok]

/- A state predicate that every outcome of a program keeps. The rules below follow
the way programs are put together, so a predicate has to be checked on primitives only. -/
def Keeps (R : σ → Prop) (m : Prog σ ε α) : Prop := ∀ s, R s → R (m s).2

variable {R : σ → Prop}

theorem keepsPure {a : α} : Keeps R (pure a : Prog σ ε α) := fun _ h => h

theorem keepsRead {f : σ → α} : Keeps R (read f : Prog σ ε α) := fun _ h => h

theorem keepsExit {e : ε} : Keeps R (exit e : Prog σ ε α) := fun _ h => h

theorem keepsUpdate {f} (step : ∀ s, R s → R (f s)) : Keeps R (update f : Prog σ ε Unit) :=
  step

theorem keepsBind (first : Keeps R m) (rest : ∀ a, Keeps R (f a)) : Keeps R (m >>= f) := by
  intro s h
  have mid := first s h
  rw [bindApply]
  rcases hm : m s with ⟨r,t⟩
  rw [hm] at mid
  cases r with
  | ok a => exact rest a t mid
  | error e => exact mid

theorem keepsIgnore {m} (h : Keeps R m) : Keeps R (ignore soft m) := by
  intro s hs
  have kept := h s hs
  unfold ignore
  rcases hm : m s with ⟨r,t⟩
  rw [hm] at kept
  cases r with
  | ok a => exact kept
  | error e =>
    dsimp only
    split <;> exact kept

theorem keepsEach {γ : Type} {f : γ → Prog σ ε Unit} {items : List γ} (step : ∀ c ∈ items, Keeps R (f c)) : Keeps R (each f items) := by
  induction items with
  | nil => exact keepsPure
  | cons c rest ih =>
    obtain ⟨first,later⟩ := List.forall_mem_cons.mp step
    exact keepsBind first fun _ => ih later

theorem keepsIte {c : Prop} [Decidable c] {n}
    (yes : c → Keeps R m) (no : ¬ c → Keeps R n) : Keeps R (if c then m else n) := by
  split
  · exact yes ‹_›
  · exact no ‹_›

/- Pre- and postconditions: from a state with `P` a run of `m` ends with a value and in a state
that `Q` accepts, or with a failure that `soft` accepts and in a state with `E`. Nothing is said about
the other failures. -/
def Ensures (soft : ε → Bool) (P : σ → Prop) (m : Prog σ ε α) (Q : α → σ → Prop) (E : σ → Prop) : Prop :=
  ∀ s, P s → (∀ a t, m s = (.ok a,t) → Q a t) ∧ ∀ e t, m s = (.error e,t) → soft e = true → E t

section
variable {soft : ε → Bool} {P : σ → Prop} {E : σ → Prop}

variable {Q : α → σ → Prop} {a : α} {s : σ} {e : ε} {f : σ → α} {m : Prog σ ε α}

theorem endedOk (after : Q a s) : (∀ b t, ((.ok a,s) : Except ε α × σ) = (.ok b,t) → Q b t) ∧
      ∀ e t, ((.ok a,s) : Except ε α × σ) = (.error e,t) → soft e = true → E t := by
  refine ⟨fun b t ran => ?_,fun e t ran => by cases ran⟩
  cases ran
  exact after

theorem endedError (after : soft e = true → E s) : (∀ b t, ((.error e,s) : Except ε α × σ) = (.ok b,t) → Q b t) ∧
      ∀ e' t, ((.error e,s) : Except ε α × σ) = (.error e',t) → soft e' = true → E t := by
  refine ⟨fun b t ran => (by cases ran),fun e' t ran accepted => ?_⟩
  cases ran
  exact after accepted

theorem ensuresPure (h : ∀ s, P s → Q a s) : Ensures soft P (pure a) Q E :=
  fun s start => endedOk (h s start)

theorem ensuresRead (h : ∀ s, P s → Q (f s) s) : Ensures soft P (read f) Q E :=
  fun s start => endedOk (h s start)

theorem ensuresUpdate {Q f} (h : ∀ s, P s → Q () (f s)) : Ensures soft P (update f) Q E :=
  fun s start => endedOk (h s start)

theorem ensuresExit (h : ∀ s, P s → soft e = true → E s) : Ensures soft P (exit e) Q E :=
  fun s start => endedError (h s start)

theorem ensuresBind {f : α → Prog σ ε β} {R : α → σ → Prop} {Q : β → σ → Prop}
    (first : Ensures soft P m R E) (rest : ∀ a, Ensures soft (R a) (f a) Q E) : Ensures soft P (m >>= f) Q E := by
  intro s start
  obtain ⟨done,failed⟩ := first s start
  rcases ran : m s with ⟨result,t⟩
  cases result with
  | ok a =>
    rw [bindOk ran]
    exact rest a t (done a t ran)
  | error e =>
    rw [bindError ran]
    exact endedError (failed e t ran)

theorem ensuresFrom (h : ∀ s, P s → Ensures soft (s = ·) m Q E) : Ensures soft P m Q E :=
  fun s start => h s start s rfl

theorem ensuresReadBind {g : α → Prog σ ε β} {Q : β → σ → Prop}
    (rest : ∀ s, P s → Ensures soft (s = ·) (g (f s)) Q E) : Ensures soft P (read f >>= g) Q E :=
  fun s start => rest s start s rfl

theorem ensuresWeaken {P' Q' E'} (h : Ensures soft P m Q E)
    (before : ∀ s, P' s → P s) (after : ∀ a s, Q a s → Q' a s) (failure : ∀ s, E s → E' s) : Ensures soft P' m Q' E' := by
  intro s start
  obtain ⟨done,failed⟩ := h s (before s start)
  exact ⟨fun a t ran => after a t (done a t ran),fun e t ran accepted => failure t (failed e t ran accepted)⟩

theorem ensuresEach {γ : Type} {f : γ → Prog σ ε Unit} {I : List γ → σ → Prop} {items : List γ} (done : List γ)
    (step : ∀ before c, c ∈ items → Ensures soft (I before) (f c) (fun _ => I (before ++ [c])) E) :
    Ensures soft (I done) (each f items) (fun _ => I (done ++ items)) E := by
  induction items generalizing done with
  | nil => exact ensuresPure fun s start => by rwa [List.append_nil]
  | cons c rest ih =>
    refine ensuresBind (step done c List.mem_cons_self) fun _ => ?_
    have later := ih (done ++ [c]) fun before c' inside => step before c' (List.mem_cons_of_mem _ inside)
    rwa [List.append_assoc,List.singleton_append] at later

end

/- Runs described through a view: `m` takes every state seen as `S` to one seen as `T`, and
ends with the result `r`. What the view leaves out may be anything. -/
def Takes {τ : Type} (sees : σ → τ → Prop) (m : Prog σ ε α) (S : τ) (r : Except ε α) (T : τ) : Prop :=
  ∀ s, sees s S → (m s).1 = r ∧ sees (m s).2 T

section
variable {τ : Type} {sees : σ → τ → Prop} {S T U : τ}

theorem takesPure {a : α} : Takes sees (pure a : Prog σ ε α) S (.ok a) S := fun _ h => ⟨rfl,h⟩

theorem takesExit {e : ε} : Takes sees (exit e : Prog σ ε α) S (.error e) S := fun _ h => ⟨rfl,h⟩

variable {f : α → Prog σ ε β} {a : α} {m : Prog σ ε α} {r : Except ε β}

theorem takesRead {f} (same : ∀ s, sees s S → f s = a) :
    Takes sees (read f : Prog σ ε α) S (.ok a) S := fun s h => ⟨by rw [readApply,same s h],h⟩

theorem takesUpdate {f} (step : ∀ s, sees s S → sees (f s) T) :
    Takes sees (update f : Prog σ ε Unit) S (.ok ()) T := fun s h => ⟨rfl,step s h⟩

theorem takesBind
    (first : Takes sees m S (.ok a) T) (rest : Takes sees (f a) T r U) : Takes sees (m >>= f) S r U := by
  intro s h
  obtain ⟨value,seen⟩ := first s h
  rw [bindOk (Prod.ext value rfl)]
  exact rest _ seen

theorem takesBindError {e} (first : Takes sees m S (.error e) T) : Takes sees (m >>= f) S (.error e) T := by
  intro s h
  obtain ⟨value,seen⟩ := first s h
  rw [bindError (Prod.ext value rfl)]
  exact ⟨rfl,seen⟩

theorem takesBindAny (first : ∀ s, sees s S → ∃ a, (m s).1 = .ok a ∧ sees (m s).2 T)
    (rest : ∀ a, Takes sees (f a) T r U) : Takes sees (m >>= f) S r U := by
  intro s h
  obtain ⟨a,value,seen⟩ := first s h
  rw [bindOk (Prod.ext value rfl)]
  exact rest a _ seen

theorem takesIgnore {soft : ε → Bool} {m : Prog σ ε Unit} (ok : Takes sees m S (.ok ()) T) :
    Takes sees (ignore soft m) S (.ok ()) T := by
  intro s h
  obtain ⟨value,seen⟩ := ok s h
  rw [ignoreOk (Prod.ext value rfl)]
  exact ⟨rfl,seen⟩

def Lands (sees : σ → τ → Prop) (soft : ε → Bool) (m : Prog σ ε α) (S T : τ) : Prop :=
  ∀ s, sees s S → (∀ e, (m s).1 = .error e → soft e = true) ∧ sees (m s).2 T

section
variable {soft : ε → Bool}

variable {m : Prog σ ε α} {f : α → Prog σ ε β}

theorem landsOfTakes {a} (ok : Takes sees m S (.ok a) T) : Lands sees soft m S T := by
  intro s h
  obtain ⟨value,seen⟩ := ok s h
  refine ⟨fun e failed => ?_,seen⟩
  rw [value] at failed
  cases failed

theorem landsExit {e} (accepted : soft e = true) : Lands sees soft (exit e >>= f) S S := by
  intro s h
  rw [bindError (exitApply e s)]
  refine ⟨fun e' failed => ?_,h⟩
  cases failed
  exact accepted

theorem landsBind (first : ∀ s, sees s S → ∃ a, (m s).1 = .ok a ∧ sees (m s).2 T)
    (rest : ∀ a, Lands sees soft (f a) T U) : Lands sees soft (m >>= f) S U := by
  intro s h
  obtain ⟨a,value,seen⟩ := first s h
  rw [bindOk (Prod.ext value rfl)]
  exact rest a _ seen

theorem takesIgnoreAny {m} (lands : Lands sees soft m S T) :
    Takes sees (ignore soft m) S (.ok ()) T := by
  intro s h
  obtain ⟨accepted,seen⟩ := lands s h
  unfold ignore
  rcases hm : m s with ⟨r,t⟩
  rw [hm] at accepted seen
  cases r with
  | ok a => exact ⟨rfl,seen⟩
  | error e =>
    dsimp only
    rw [if_pos (accepted e rfl)]
    exact ⟨rfl,seen⟩

end

theorem takesEnsure {f r}
    (ok : Takes sees m S r T) (step : ∀ s, sees s T → sees (f s) U) : Takes sees (ensure m f) S r U :=
  fun s h => ⟨(ok s h).1,step _ (ok s h).2⟩

/- Two programs in step: `n` does to a state what `m` does to its view. -/
def Mirrors (sees : σ → τ → Prop) (n : Prog σ ε α) (m : Prog τ ε α) : Prop := ∀ S, Takes sees n S (m S).1 (m S).2

theorem mirrorsPure (a : α) : Mirrors sees (pure a : Prog σ ε α) (pure a) := fun _ => takesPure

theorem mirrorsExit (e : ε) : Mirrors sees (exit e : Prog σ ε α) (exit e) := fun _ => takesExit

theorem mirrorsBind {n : Prog σ ε α} {m : Prog τ ε α} {g : α → Prog σ ε β} {f : α → Prog τ ε β}
    (first : Mirrors sees n m) (rest : ∀ a, Mirrors sees (g a) (f a)) : Mirrors sees (n >>= g) (m >>= f) := by
  intro S
  have start := first S
  rcases run : m S with ⟨result,T⟩
  rw [run] at start
  cases result with
  | ok a =>
    rw [bindOk run]
    exact takesBind start (rest a T)
  | error e =>
    rw [bindError run]
    exact takesBindError start

end

end Prog
end MiniOb
