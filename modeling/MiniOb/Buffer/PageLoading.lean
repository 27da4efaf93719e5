import MiniOb.Lib.Bytes
import MiniOb.Lib.Runs
import Mathlib.Logic.Function.Basic

/-! `DiskBufferPool::get_this_page` for one page, called by several threads at once. A step is what runs under one lock: the
lookup under the lock of the frame manager, taking `lock_` of the pool, and while that is held the allocation of the frame, under
the lock of the frame manager again, and `load_page`. -/
namespace MiniOb.Buffer.PageLoading
open Function Option Runs List

/-- The frame of the page. `pins` are the callers that its pin count counts, and `changed` tells whether the page was changed since
the frame was allocated. -/
structure Resident where
  page : Bytes
  pins : List Nat
  dirty : Bool
  changed : Bool

/-- How far a call has come: `missed` after a lookup without a frame, `locked` with `lock_`, `loading` with a frame that is not
loaded yet. A caller is `holding` until it unpins the page. -/
inductive Phase
  | idle
  | missed
  | locked
  | loading
  | holding
  deriving DecidableEq

/-- `below` is the page in the double-write buffer or, when it is not there, in the file. `overwritten` remembers that a load
replaced a page that had been changed. -/
structure State where
  frame : Option Resident
  below : Bytes
  lock : Option Nat
  phase : Nat → Phase
  overwritten : Bool

inductive Step
  | lookup (caller : Nat)
  | lock (caller : Nat)
  /-- `old` is what a frame from the allocator has in it. -/
  | allocate (caller : Nat) (old : Bytes)
  /-- The read of the file may fail after some bytes. -/
  | load (caller : Nat) (failed : Option Nat)
  | modify (caller : Nat) (page : Bytes)
  | flush (caller : Nat)
  | unpin (caller : Nat)
  | evict

namespace State

def enter (caller : Nat) (phase : Phase) (s : State) : State := { s with phase := update s.phase caller phase }

def read (failed : Option Nat) (f : Resident) (s : State) : Bytes := match failed with
  | none => s.below
  | some count => s.below.take count ++ f.page.drop count

def drop (f : Resident) (s : State) : State := { s with frame := none, below := if f.dirty then f.page else s.below }

/-- `load_page`, and after a failure `purge_frame`, which leaves a frame alone that others have pinned: then the pin of the
caller stays. -/
def load (caller : Nat) (failed : Option Nat) (f : Resident) (s : State) : State :=
  let filled := { f with page := s.read failed f }
  let noted := { s with lock := none, overwritten := s.overwritten || (f.changed && s.read failed f != f.page) }
  match failed with
  | none => enter caller .holding { noted with frame := some filled }
  | some _ => enter caller .idle (if f.pins.length = 1 then noted.drop filled else { noted with frame := some filled })

def step (s : State) : Step → Option State
  | .lookup caller => if s.phase caller = .idle then
      some (match s.frame with
        | some f => enter caller .holding { s with frame := some { f with pins := caller :: f.pins } }
        | none => enter caller .missed s)
    else none
  | .lock caller => if s.phase caller = .missed ∧ s.lock = none then some (enter caller .locked { s with lock := some caller }) else none
  | .allocate caller old => if s.phase caller = .locked then
      some (enter caller .loading { s with frame := some (match s.frame with
        | some f => { f with pins := caller :: f.pins }
        | none => ⟨old,[caller],false,false⟩) })
    else none
  | .load caller failed => if s.phase caller = .loading then s.frame.map fun f => s.load caller failed f else none
  | .modify caller page => if s.phase caller = .holding then
      s.frame.map fun f => { s with frame := some { f with page := page, dirty := true, changed := true } }
    else none
  | .flush caller => if s.phase caller = .holding ∧ s.lock = none then
      s.frame.map fun f => { s with frame := some { f with dirty := false }, below := f.page }
    else none
  | .unpin caller => if s.phase caller = .holding then
      s.frame.map fun f => enter caller .idle { s with frame := some { f with pins := f.pins.erase caller } }
    else none
  | .evict => s.frame.bind fun f => if f.pins = [] then some (s.drop f) else none

def start (below : Bytes) : State := ⟨none,below,none,fun _ => .idle,false⟩

/-- Behind `lock_` there is no frame of the page, or one without a change that is not flushed, and nobody changes the page while it
is being loaded. -/
def Apart (s : State) : Step → Prop
  | .allocate _ _ => ∀ f, s.frame = some f → f.changed = true → f.page = s.below
  | .modify _ _ => ∀ caller, s.phase caller ≠ .loading
  | _ => True

structure Inv (s : State) : Prop where
  kept : s.overwritten = false
  owner : ∀ caller, s.phase caller = .locked ∨ s.phase caller = .loading → s.lock = some caller
  pinned : ∀ caller, s.phase caller = .loading ∨ s.phase caller = .holding → ∃ f, s.frame = some f ∧ caller ∈ f.pins
  flushed : ∀ caller, s.phase caller = .loading → ∀ f, s.frame = some f → f.changed = true → f.page = s.below

variable {s t : State}

theorem Inv.start (below : Bytes) : Inv (State.start below) := by
  refine ⟨rfl,fun _ phase => ?_,fun _ phase => ?_,fun _ phase => ?_⟩
  · rcases phase with phase | phase
    · cases phase
    · cases phase
  · rcases phase with phase | phase
    · cases phase
    · cases phase
  · cases phase

theorem Inv.moved (inv : Inv s) {caller phase} (moved : t.phase = update s.phase caller phase)
    (kept : t.overwritten = false) (lock : ∀ other ≠ caller, s.lock = some other → t.lock = some other)
    (pins : ∀ other ≠ caller, ∀ f, s.frame = some f → other ∈ f.pins → ∃ g, t.frame = some g ∧ other ∈ g.pins)
    (loads : ∀ other ≠ caller, s.phase other = .loading → ∀ g, t.frame = some g → g.changed = true → g.page = t.below)
    (ownLock : phase = .locked ∨ phase = .loading → t.lock = some caller)
    (ownPin : phase = .loading ∨ phase = .holding → ∃ g, t.frame = some g ∧ caller ∈ g.pins)
    (ownLoad : phase = .loading → ∀ g, t.frame = some g → g.changed = true → g.page = t.below) : Inv t := by
  have here : t.phase caller = phase := by rw [moved,update_self]
  have there : ∀ other ≠ caller, t.phase other = s.phase other := fun other different => by rw [moved,update_of_ne different]
  refine ⟨kept,fun other at' => ?_,fun other at' => ?_,fun other at' => ?_⟩
  · by_cases same : other = caller
    · subst same
      exact ownLock (here ▸ at')
    · exact lock other same (inv.owner other (there other same ▸ at'))
  · by_cases same : other = caller
    · subst same
      exact ownPin (here ▸ at')
    · obtain ⟨f,frame,inside⟩ := inv.pinned other (there other same ▸ at')
      exact pins other same f frame inside
  · by_cases same : other = caller
    · subst same
      exact ownLoad (here ▸ at')
    · exact loads other same (there other same ▸ at')

theorem readUnchanged {f} (same : f.page = s.below) (failed : Option Nat) : s.read failed f = f.page := by
  cases failed with
  | none => exact same.symm
  | some count => rw [read,same,take_append_drop]

theorem Inv.load (inv : Inv s) {caller} (loading : s.phase caller = .loading) (frame : s.frame = some f) (failed : Option Nat) :
    Inv (s.load caller failed f) := by
  have owner := inv.owner caller (Or.inr loading)
  have kept : (s.overwritten || (f.changed && s.read failed f != f.page)) = false := by
    rw [inv.kept,Bool.false_or]
    cases changed : f.changed with
    | false => rfl
    | true => simp [readUnchanged (inv.flushed caller loading f frame changed)]
  have alone : ∀ other ≠ caller, s.lock ≠ some other := fun other different lock => different (some.inj (lock.symm.trans owner))
  have pins : ∀ other ≠ caller, ∀ g, s.frame = some g → other ∈ g.pins → other ∈ f.pins := fun other _ g same inside => by
    rw [frame] at same
    exact some.inj same ▸ inside
  have own : caller ∈ f.pins := by
    obtain ⟨g,same,inside⟩ := inv.pinned caller (Or.inl loading)
    rw [frame] at same
    exact some.inj same ▸ inside
  cases failed with
  | none =>
    exact inv.moved rfl kept (fun other different lock => absurd lock (alone other different))
      (fun other different g same inside => ⟨_,rfl,pins other different g same inside⟩)
      (fun other different at' => absurd (inv.owner other (Or.inr at')) (alone other different)) (by simp) (fun _ => ⟨_,rfl,own⟩) (by simp)
  | some count =>
    unfold State.load
    dsimp only
    split
    · rename_i single
      obtain ⟨last,only⟩ := length_eq_one_iff.mp single
      rw [only,mem_singleton] at own
      refine inv.moved rfl kept (fun other different lock => absurd lock (alone other different)) (fun other different g same inside => ?_)
        (fun other different at' => absurd (inv.owner other (Or.inr at')) (alone other different)) (by simp) (by simp) (by simp)
      have there := pins other different g same inside
      rw [only,mem_singleton,← own] at there
      exact absurd there different
    · exact inv.moved rfl kept (fun other different lock => absurd lock (alone other different))
        (fun other different g same inside => ⟨_,rfl,pins other different g same inside⟩)
        (fun other different at' => absurd (inv.owner other (Or.inr at')) (alone other different)) (by simp) (by simp) (by simp)

theorem Inv.step {a} (inv : Inv s) (taken : s.step a = some t) (apart : s.Apart a) : Inv t := by
  cases a with
  | lookup caller =>
    obtain ⟨idle,same⟩ := ite_none_right_eq_some.mp taken
    cases frame : s.frame with
    | none =>
      rw [frame] at same
      cases same
      exact inv.moved rfl inv.kept (fun _ _ lock => lock) (fun _ _ f there inside => ⟨f,there,inside⟩) (fun other _ => inv.flushed other)
        (by simp) (by simp) (by simp)
    | some f =>
      rw [frame] at same
      cases same
      refine inv.moved rfl inv.kept (fun _ _ lock => lock)
        (fun other _ g there inside => ⟨_,rfl,?_⟩) (fun other _ at' g same => ?_) (by simp)
        (fun _ => ⟨_,rfl,mem_cons_self⟩) (by simp)
      · rw [frame] at there
        cases there
        exact mem_cons_of_mem _ inside
      · cases same
        exact inv.flushed other at' f frame
  | lock caller =>
    obtain ⟨⟨_,free⟩,same⟩ := ite_none_right_eq_some.mp taken
    cases same
    refine inv.moved rfl inv.kept (fun other _ lock => ?_) (fun _ _ f there inside => ⟨f,there,inside⟩) (fun other _ => inv.flushed other)
      (fun _ => rfl) (by simp) (by simp)
    rw [free] at lock
    cases lock
  | allocate caller old =>
    obtain ⟨locked,same⟩ := ite_none_right_eq_some.mp taken
    cases same
    have owner := inv.owner caller (Or.inl locked)
    refine inv.moved rfl inv.kept (fun _ _ lock => lock) (fun other _ g there inside => ?_) (fun other different at' => ?_) (fun _ => owner)
      (fun _ => ?_) (fun _ g same changed => ?_)
    · rw [there]
      exact ⟨_,rfl,mem_cons_of_mem _ inside⟩
    · exact absurd (some.inj ((inv.owner other (Or.inr at')).symm.trans owner)) different
    · split
      · exact ⟨_,rfl,mem_cons_self⟩
      · exact ⟨_,rfl,mem_singleton_self _⟩
    · cases frame : s.frame with
      | none =>
        rw [frame] at same
        cases same
        cases changed
      | some f =>
        rw [frame] at same
        cases same
        exact apart f frame changed
  | load caller failed =>
    obtain ⟨loading,same⟩ := ite_none_right_eq_some.mp taken
    obtain ⟨f,frame,rfl⟩ := map_eq_some_iff.mp same
    exact inv.load loading frame failed
  | modify caller page =>
    obtain ⟨holding,same⟩ := ite_none_right_eq_some.mp taken
    obtain ⟨f,frame,rfl⟩ := map_eq_some_iff.mp same
    refine ⟨inv.kept,inv.owner,fun other at' => ?_,fun other at' => absurd at' (apart other)⟩
    obtain ⟨g,there,inside⟩ := inv.pinned other at'
    rw [frame] at there
    cases there
    exact ⟨_,rfl,inside⟩
  | flush caller =>
    obtain ⟨⟨holding,free⟩,same⟩ := ite_none_right_eq_some.mp taken
    obtain ⟨f,frame,rfl⟩ := map_eq_some_iff.mp same
    refine ⟨inv.kept,inv.owner,fun other at' => ?_,fun other at' g same _ => ?_⟩
    · obtain ⟨g,there,inside⟩ := inv.pinned other at'
      rw [frame] at there
      cases there
      exact ⟨_,rfl,inside⟩
    · cases same
      rfl
  | unpin caller =>
    obtain ⟨holding,same⟩ := ite_none_right_eq_some.mp taken
    obtain ⟨f,frame,rfl⟩ := map_eq_some_iff.mp same
    refine inv.moved rfl inv.kept (fun _ _ lock => lock) (fun other different g there inside => ⟨_,rfl,?_⟩) (fun other _ at' g same => ?_)
      (by simp) (by simp) (by simp)
    · rw [frame] at there
      cases there
      exact (mem_erase_of_ne different).mpr inside
    · cases same
      exact inv.flushed other at' f frame
  | evict =>
    obtain ⟨f,frame,same⟩ := bind_eq_some_iff.mp taken
    obtain ⟨unpinned,same⟩ := ite_none_right_eq_some.mp same
    cases same
    refine ⟨inv.kept,inv.owner,fun other at' => ?_,fun other at' g same => by cases same⟩
    obtain ⟨g,there,inside⟩ := inv.pinned other at'
    rw [frame] at there
    cases there
    rw [unpinned] at inside
    cases inside

/-- Whatever the callers do, as long as the loads and the changes keep apart no change is lost to a load. -/
theorem changesKept {below : Bytes} {steps : List Step} (apart : Runs.Along step Apart steps (State.start below)) :
    ∀ later ∈ reached step steps (State.start below), later.overwritten = false := by
  have keeps : ∀ s a t, Inv s → step s a = some t → Apart s a → Inv t := fun _ _ _ inv taken apart => inv.step taken apart
  exact fun _ inside => (reachedAlong keeps (Inv.start below) apart inside).kept

def twoChanges : List Step :=
  [.lookup 1,.lock 1,.allocate 1 [],.load 1 none,.modify 1 [7],.lookup 2,.modify 2 [8],.flush 1]

theorem twoChangesKept : (reached step twoChanges (State.start [0])).length = 9 ∧
    ∀ later ∈ reached step twoChanges (State.start [0]), later.overwritten = false := by
  refine ⟨rfl,changesKept (alongNext rfl trivial (alongNext rfl trivial (alongNext rfl ?_ (alongNext rfl trivial
    (alongNext rfl ?_ (alongNext rfl trivial (alongNext rfl ?_ (alongNext rfl trivial trivial))))))))⟩
  · rintro f ⟨⟩
  · intro caller loading
    by_cases first : caller = 1
    · subst first
      cases loading
    · simp [load,enter,start,update_of_ne first] at loading
  · intro caller loading
    by_cases first : caller = 1
    · subst first
      cases loading
    · by_cases second : caller = 2
      · subst second
        cases loading
      · simp [load,enter,start,update_of_ne first,update_of_ne second] at loading

/-- The second of two callers that missed the page loads it over the change of the first. A caller that finds the frame before
it is loaded loses its change as well. -/
theorem changesOverwritten :
    (∃ later ∈ reached step [.lookup 1,.lookup 2,.lock 1,.allocate 1 [],.load 1 none,.modify 1 [7],.lock 2,.allocate 2 [],.load 2 none]
      (State.start [0]), later.overwritten = true) ∧
    ∃ later ∈ reached step [.lookup 1,.lock 1,.allocate 1 [],.lookup 2,.modify 2 [7],.load 1 none] (State.start [0]),
      later.overwritten = true := by
  decide

end State
end MiniOb.Buffer.PageLoading
