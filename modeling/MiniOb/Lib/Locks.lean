import MiniOb.Lib.Runs
import Mathlib.Logic.Function.Basic
import Mathlib.Logic.Relation

/-! Threads that take and release mutexes. When every thread takes them in the order of a rank, no threads wait for each other in a
circle. -/
namespace MiniOb.Locks
open List Function Option
variable {M T C : Type}

inductive Action (M : Type)
  | acquire (mutex : M)
  | release (mutex : M)

def during (mutex : M) (inner : List (Action M)) : List (Action M) := .acquire mutex :: (inner ++ [.release mutex])

structure State (M T : Type) where
  owner : M → Option T
  todo : T → List (Action M)

inductive Event (C T : Type)
  /-- A thread that is in no call enters one. -/
  | enter (thread : T) (call : C)
  | act (thread : T)

def idle : State M T := ⟨fun _ => none,fun _ => []⟩

section
variable [DecidableEq M] [DecidableEq T]

/-- A thread cannot go on where the mutex it wants is taken, also by itself. -/
def step (actions : C → List (Action M)) (s : State M T) : Event C T → Option (State M T)
  | .enter thread call => if s.todo thread = [] then some { s with todo := update s.todo thread (actions call) } else none
  | .act thread => match s.todo thread with
    | [] => none
    | .acquire mutex :: rest => match s.owner mutex with
      | some _ => none
      | none => some ⟨update s.owner mutex (some thread),update s.todo thread rest⟩
    | .release mutex :: rest => some ⟨update s.owner mutex none,update s.todo thread rest⟩

end

def Waits (s : State M T) (thread other : T) : Prop := ∃ mutex rest, s.todo thread = .acquire mutex :: rest ∧ s.owner mutex = some other

def Deadlocked (s : State M T) : Prop := ∃ thread, Relation.TransGen (Waits s) thread thread

variable [DecidableEq M] {rank : M → Nat}

def Ordered (rank : M → Nat) : List M → List (Action M) → Prop
  | held,[] => held = []
  | held,.acquire mutex :: rest => (∀ other ∈ held, rank other < rank mutex) ∧ Ordered rank (mutex :: held) rest
  | held,.release mutex :: rest => mutex ∈ held ∧ Ordered rank (held.erase mutex) rest

/-! Calls are put together from parts that leave alone what is below a bound. -/

def Above (rank : M → Nat) (bound : Nat) (part : List (Action M)) : Prop :=
  ∀ held, (∀ other ∈ held, rank other < bound) → ∀ rest, Ordered rank held rest → Ordered rank held (part ++ rest)

variable {bound : Nat} {part more : List (Action M)}

theorem aboveNil : Above rank bound [] := fun _ _ _ rest => rest

theorem Above.append (first : Above rank bound part) (second : Above rank bound more) : Above rank bound (part ++ more) := by
  intro held below rest ordered
  rw [append_assoc]
  exact first held below _ (second held below rest ordered)

theorem aboveEach {items : List α} (parts : ∀ item ∈ items, Above rank bound (each item)) :
    Above rank bound (items.flatMap each) := by
  induction items with
  | nil => exact aboveNil
  | cons item rest ih =>
    rw [flatMap_cons]
    exact (parts item mem_cons_self).append (ih fun other inside => parts other (mem_cons_of_mem item inside))

theorem aboveDuring (from' : bound ≤ rank mutex) (inner : Above rank (rank mutex + 1) part) : Above rank bound (during mutex part) := by
  intro held below rest ordered
  have lower : ∀ other ∈ held, rank other < rank mutex := fun other inside => Nat.lt_of_lt_of_le (below other inside) from'
  show Ordered rank held (.acquire mutex :: ((part ++ [.release mutex]) ++ rest))
  refine ⟨lower,?_⟩
  rw [append_assoc]
  refine inner (mutex :: held) (fun other inside => ?_) _ ⟨mem_cons_self,?_⟩
  · rcases mem_cons.mp inside with rfl | old
    · exact Nat.lt_succ_self _
    · exact Nat.lt_succ_of_lt (lower other old)
  · rw [erase_cons_head]
    exact ordered

theorem Above.mono (above : Above rank higher part) (le : bound ≤ higher) : Above rank bound part :=
  fun held below => above held fun other inside => Nat.lt_of_lt_of_le (below other inside) le

theorem Above.ordered (above : Above rank bound part) : Ordered rank [] part := by
  have whole := above [] (fun _ inside => absurd inside not_mem_nil) [] rfl
  rwa [append_nil] at whole

/-! Runs in which every call keeps the order. -/

structure Inv (rank : M → Nat) (s : State M T) (held : T → List M) : Prop where
  ordered : ∀ thread, Ordered rank (held thread) (s.todo thread)
  owned : ∀ mutex thread, s.owner mutex = some thread ↔ mutex ∈ held thread
  distinct : ∀ thread, (held thread).Nodup

variable {s t : State M T} {held : T → List M}

theorem Inv.waits (inv : Inv rank s held) (waits : Relation.TransGen (Waits s) thread other) :
    ∃ first last, (∀ own ∈ held thread, rank own < rank first) ∧ rank first ≤ rank last ∧ last ∈ held other := by
  have once : ∀ {thread other}, Waits s thread other → ∃ mutex, (∀ own ∈ held thread, rank own < rank mutex) ∧ mutex ∈ held other := by
    rintro thread other ⟨mutex,rest,todo,owner⟩
    have ordered := inv.ordered thread
    rw [todo] at ordered
    exact ⟨mutex,ordered.1,(inv.owned mutex other).mp owner⟩
  induction waits with
  | single waits =>
    obtain ⟨mutex,lower,inside⟩ := once waits
    exact ⟨mutex,mutex,lower,Nat.le_refl _,inside⟩
  | tail _ waits ih =>
    obtain ⟨first,last,lower,le,inside⟩ := ih
    obtain ⟨mutex,above,here⟩ := once waits
    exact ⟨first,mutex,lower,Nat.le_trans le (Nat.le_of_lt (above last inside)),here⟩

theorem Inv.free (inv : Inv rank s held) : ¬Deadlocked s := by
  rintro ⟨thread,circle⟩
  obtain ⟨first,last,lower,le,inside⟩ := inv.waits circle
  exact absurd (lower last inside) (Nat.not_lt.mpr le)

theorem Inv.idle : Inv rank (Locks.idle : State M T) fun _ => [] :=
  ⟨fun _ => rfl,fun _ _ => ⟨fun same => absurd same.symm (some_ne_none _),fun inside => absurd inside not_mem_nil⟩,fun _ => nodup_nil⟩

variable [DecidableEq T] {actions : C → List (Action M)}

theorem Inv.next (inv : Inv rank s held)
    (ordered : Ordered rank own rest) (distinct : own.Nodup)
    (owned : ∀ mutex other, owner mutex = some other ↔ mutex ∈ update held thread own other) :
    ∃ held, Inv rank ⟨owner,update s.todo thread rest⟩ held := by
  refine ⟨update held thread own,fun other => ?_,owned,fun other => ?_⟩
  · dsimp only
    by_cases here : other = thread
    · subst here
      rw [update_self,update_self]
      exact ordered
    · rw [update_of_ne here,update_of_ne here]
      exact inv.ordered other
  · by_cases here : other = thread
    · subst here
      rwa [update_self]
    · rw [update_of_ne here]
      exact inv.distinct other

theorem Inv.acquire (inv : Inv rank s held) (free : s.owner mutex = none) (key : M) (other : T) :
    update s.owner mutex (some thread) key = some other ↔ key ∈ update held thread (mutex :: held thread) other := by
  by_cases here : other = thread
  · subst here
    rw [update_self,mem_cons]
    by_cases same : key = mutex
    · rw [same,update_self]
      exact iff_of_true rfl (Or.inl rfl)
    · rw [update_of_ne same,or_iff_right same,inv.owned]
  · rw [update_of_ne here,← inv.owned]
    by_cases same : key = mutex
    · rw [same,update_self,free]
      exact iff_of_false (fun both => here (some.inj both).symm) (fun none => absurd none.symm (some_ne_none _))
    · rw [update_of_ne same]

theorem Inv.release (inv : Inv rank s held) (mine : mutex ∈ held thread) (key : M) (other : T) :
    update s.owner mutex none key = some other ↔ key ∈ update held thread ((held thread).erase mutex) other := by
  by_cases same : key = mutex
  · rw [same,update_self]
    refine iff_of_false (fun none => absurd none.symm (some_ne_none _)) fun inside => ?_
    by_cases here : other = thread
    · rw [here,update_self] at inside
      exact (inv.distinct thread).not_mem_erase inside
    · rw [update_of_ne here,← inv.owned,(inv.owned mutex thread).mpr mine] at inside
      exact here (some.inj inside).symm
  · rw [update_of_ne same,inv.owned]
    by_cases here : other = thread
    · rw [here,update_self,mem_erase_of_ne same]
    · rw [update_of_ne here]

theorem Inv.step (inv : Inv rank s held) (taken : step actions s event = some t)
    (keeps : ∀ thread call, event = .enter thread call → Ordered rank [] (actions call)) : ∃ held, Inv rank t held := by
  cases event with
  | enter thread call =>
    obtain ⟨finished,same⟩ := ite_none_right_eq_some.mp taken
    cases same
    have ordered := inv.ordered thread
    rw [finished] at ordered
    have none : held thread = [] := ordered
    exact inv.next (keeps thread call rfl) nodup_nil (by rw [← none,update_eq_self]; exact inv.owned)
  | act thread =>
    have ordered := inv.ordered thread
    unfold Locks.step at taken
    dsimp only at taken
    cases todo : s.todo thread with
    | nil =>
      rw [todo] at taken
      cases taken
    | cons action rest =>
      rw [todo] at taken ordered
      cases action with
      | acquire mutex =>
        dsimp only at taken
        cases free : s.owner mutex with
        | some other =>
          rw [free] at taken
          cases taken
        | none =>
          rw [free] at taken
          cases taken
          have new : mutex ∉ held thread := fun inside => Nat.lt_irrefl _ (ordered.1 mutex inside)
          exact inv.next ordered.2 (nodup_cons.mpr ⟨new,inv.distinct thread⟩) (inv.acquire free)
      | release mutex =>
        cases taken
        exact inv.next ordered.2 ((inv.distinct thread).erase mutex) (inv.release ordered.1)

theorem neverDeadlocked (keeps : ∀ s thread call, good s (.enter thread call) → Ordered rank [] (actions call))
    (along : Runs.Along (step actions) good events idle) :
    ∀ later ∈ Runs.reached (step actions) events (idle : State M T), ¬Deadlocked later := by
  have steps : ∀ (s : State M T) event t, (∃ held, Inv rank s held) → step actions s event = some t → good s event →
    ∃ held, Inv rank t held :=
    fun s _ _ ⟨_,inv⟩ taken fine => inv.step taken fun thread call same => keeps s thread call (same ▸ fine)
  intro later inside
  obtain ⟨held,inv⟩ := Runs.reachedAlong steps ⟨_,Inv.idle⟩ along inside
  exact inv.free

end MiniOb.Locks
