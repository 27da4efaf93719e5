import MiniOb.Common.Types
import MiniOb.Lib.Locks

/-! The mutexes of the buffer pools: which of them a call takes while it holds which others. Everything else that happens in a call
is what a call is told about it: the frames that are purged, the pages that a full double-write buffer writes. -/
namespace MiniOb.Buffer.PoolLocks
open Locks Runs

inductive Mutex
  | manager
  | pool (id : Int32)
  | frames
  | doubleWrite
  | file (id : Int32)
  deriving DecidableEq

abbrev Actions := List (Action Mutex)

abbrev Added := Option (List Int32)

def addPage (added : Added) : Actions :=
  during .doubleWrite ((added.getD []).flatMap fun id => during .manager [] ++ during (.file id) [])

def flushPage (id : Int32) (added : Added) : Actions := during (.pool id) (addPage added)

def managerFlushPage (id : Int32) (known : Bool) (added : Added) : Actions :=
  during .manager (if known then flushPage id added else [])

inductive Victim
  | clean
  | dirty (pool : Int32) (known : Bool) (added : Added)

def purgeFrames (id : Int32) (victim : Option Victim) : Actions :=
  during .frames (match victim with
    | some (.dirty pool known added) => if pool = id then addPage added else managerFlushPage pool known added
    | _ => [])

def allocateFrame (id : Int32) (rounds : List (Option Victim)) : Actions :=
  during .frames [] ++ rounds.flatMap fun victim => purgeFrames id victim ++ during .frames []

def loadPage (id : Int32) (buffered : Bool) : Actions :=
  during .doubleWrite [] ++ if buffered then [] else during (.file id) []

/-- How `purge_frame` ends: the page is not its own to free, or is written, and freed when that succeeds. -/
structure Purge where
  written : Option Added
  freed : Bool

def purgeFrame (purge : Purge) : Actions :=
  (purge.written.elim [] addPage) ++ if purge.freed then during .frames [] else []

/-- A frame is allocated and the page is loaded. `failed` is what follows when it cannot be. -/
structure Fetch where
  rounds : List (Option Victim)
  buffered : Bool
  failed : Option Purge

def fetch (id : Int32) (data : Fetch) : Actions :=
  allocateFrame id data.rounds ++ loadPage id data.buffered ++ data.failed.elim [] purgeFrame

def getThisPage (id : Int32) (missed : Option Fetch) : Actions :=
  during .frames [] ++ missed.elim [] fun data => during (.pool id) (fetch id data)

inductive Call
  | getThisPage (id : Int32) (missed : Option Fetch)
  /-- A page is used again, the file is full, or it is extended. -/
  | allocateReused (id : Int32) (missed : Option Fetch)
  | allocateFull (id : Int32)
  | allocateExtended (id : Int32) (rounds : List (Option Victim)) (added : Added)
  | flushPage (id : Int32) (added : Added)
  | purgePage (id : Int32) (purge : Option Purge)
  /-- `none` when the file is open already or cannot be read. -/
  | openFile (id : Int32) (data : Option Fetch)
  /-- `none` when the file is not open. Its frames are purged, a number of pages is written from the double-write buffer, and the
  manager is told unless `close` fails. -/
  | closeFile (id : Int32) (data : Option (List Purge × Nat × Bool))
  | managerFlushPage (id : Int32) (known : Bool) (added : Added)

def Call.actions : Call → Actions
  | .getThisPage id missed => PoolLocks.getThisPage id missed
  | .allocateReused id missed => during (.pool id) [] ++ PoolLocks.getThisPage id missed
  | .allocateFull id => during (.pool id) []
  | .allocateExtended id rounds added => during (.pool id) (allocateFrame id rounds ++ addPage added)
  | .flushPage id added => PoolLocks.flushPage id added
  | .purgePage id purge => during (.pool id) (during .frames [] ++ purge.elim [] purgeFrame)
  | .openFile id data => during .manager (data.elim [] (fetch id))
  | .closeFile id data => during .manager [] ++ data.elim [] fun (purges,pages,closed) =>
      during .frames [] ++ during (.pool id) (purges.flatMap purgeFrame) ++ during .doubleWrite [] ++
        (List.range pages).flatMap (fun _ => during (.file id) []) ++ if closed then during .manager [] else []
  | .managerFlushPage id known added => PoolLocks.managerFlushPage id known added

/-! Two ways to keep an order. -/

/-- Either the double-write buffer never fills, or the manager is not locked during other calls. -/
inductive Discipline
  | unfilled
  | unmanaged
  deriving DecidableEq

def rank (discipline : Discipline) : Mutex → Nat
  | .manager => if discipline = .unfilled then 0 else 4
  | .pool _ => 1
  | .frames => 2
  | .doubleWrite => 3
  | .file _ => 5

def Added.Keeps (discipline : Discipline) (added : Added) : Prop := added ≠ none → discipline = .unmanaged

def Victim.Keeps (discipline : Discipline) (id : Int32) (victim : Option Victim) : Prop :=
  ∀ pool known added, victim = some (.dirty pool known added) → pool = id ∧ Added.Keeps discipline added

def Purge.Keeps (discipline : Discipline) (purge : Purge) : Prop := ∀ added, purge.written = some added → Added.Keeps discipline added

structure Fetch.Keeps (discipline : Discipline) (id : Int32) (data : Fetch) : Prop where
  rounds : ∀ victim ∈ data.rounds, Victim.Keeps discipline id victim
  failed : ∀ purge, data.failed = some purge → purge.Keeps discipline

def Call.Keeps (discipline : Discipline) : Call → Prop
  | .getThisPage id missed | .allocateReused id missed => ∀ data, missed = some data → data.Keeps discipline id
  | .allocateFull _ => True
  | .allocateExtended id rounds added => (∀ victim ∈ rounds, Victim.Keeps discipline id victim) ∧ Added.Keeps discipline added
  | .flushPage _ added => Added.Keeps discipline added
  | .purgePage _ purge => ∀ data, purge = some data → data.Keeps discipline
  | .openFile id data => discipline = .unfilled ∧ ∀ fetch, data = some fetch → fetch.Keeps discipline id
  | .closeFile _ data => ∀ purges pages closed, data = some (purges,pages,closed) → ∀ purge ∈ purges, purge.Keeps discipline
  | .managerFlushPage _ _ added => discipline = .unfilled ∧ Added.Keeps discipline added

variable {discipline : Discipline} {id : Int32}

theorem aboveFrames : Above (rank discipline) 2 (during .frames []) := aboveDuring (le_refl 2) aboveNil

theorem aboveFile : Above (rank discipline) 5 (during (.file id) []) := aboveDuring (le_refl 5) aboveNil

theorem aboveDoubleWrite : Above (rank discipline) 3 (during .doubleWrite []) := aboveDuring (le_refl 3) aboveNil

theorem abovePool (inner : Above (rank discipline) 2 part) : Above (rank discipline) 1 (during (.pool id) part) :=
  aboveDuring (le_refl 1) inner

theorem aboveManager : Above (rank discipline) 0 (during .manager []) := aboveDuring (Nat.zero_le _) aboveNil

theorem aboveAddPage (keeps : added.Keeps discipline) : Above (rank discipline) 3 (addPage added) := by
  refine aboveDuring (le_refl 3) ?_
  cases added with
  | none => exact aboveNil
  | some pools =>
    obtain rfl : discipline = .unmanaged := keeps (Option.some_ne_none pools)
    exact aboveEach fun id _ => Above.append (aboveDuring (le_refl 4) aboveNil) (aboveFile.mono (by decide))

theorem aboveFlushPage (keeps : added.Keeps discipline) : Above (rank discipline) 1 (flushPage id added) :=
  abovePool ((aboveAddPage keeps).mono (by decide))

theorem aboveAllocateFrame (keeps : ∀ victim ∈ rounds, Victim.Keeps discipline id victim) :
    Above (rank discipline) 2 (allocateFrame id rounds) := by
  refine aboveFrames.append (aboveEach fun victim inside => Above.append (aboveDuring (le_refl 2) ?_) aboveFrames)
  match victim,keeps victim inside with
  | none,_ => exact aboveNil
  | some .clean,_ => exact aboveNil
  | some (.dirty pool known added),fits =>
    obtain ⟨own,unfilled⟩ := fits pool known added rfl
    show Above _ _ (if pool = id then addPage added else managerFlushPage pool known added)
    rw [if_pos own]
    exact aboveAddPage unfilled

theorem abovePurgeFrame (keeps : purge.Keeps discipline) : Above (rank discipline) 2 (purgeFrame purge) := by
  obtain ⟨written,freed⟩ := purge
  refine Above.append ?_ ?_
  · cases written with
    | none => exact aboveNil
    | some added => exact (aboveAddPage (keeps added rfl)).mono (by decide)
  · cases freed with
    | false => exact aboveNil
    | true => exact aboveFrames

theorem aboveFetch (keeps : data.Keeps discipline id) : Above (rank discipline) 2 (fetch id data) := by
  obtain ⟨rounds,buffered,failed⟩ := data
  refine Above.append (Above.append (aboveAllocateFrame keeps.rounds) (Above.append (aboveDoubleWrite.mono (by decide)) ?_)) ?_
  · cases buffered with
    | false => exact aboveFile.mono (by decide)
    | true => exact aboveNil
  · cases failed with
    | none => exact aboveNil
    | some purge => exact abovePurgeFrame (keeps.failed purge rfl)

theorem aboveGetThisPage (keeps : ∀ data, missed = some data → data.Keeps discipline id) :
    Above (rank discipline) 1 (getThisPage id missed) := by
  refine Above.append (aboveFrames.mono (by decide)) ?_
  cases missed with
  | none => exact aboveNil
  | some data => exact abovePool (aboveFetch (keeps data rfl))

theorem aboveCall {call : Call} (keeps : call.Keeps discipline) : Above (rank discipline) 0 call.actions := by
  cases call with
  | getThisPage id missed => exact (aboveGetThisPage keeps).mono (by decide)
  | allocateReused id missed => exact (Above.append (abovePool aboveNil) (aboveGetThisPage keeps)).mono (by decide)
  | allocateFull id => exact (abovePool aboveNil).mono (by decide)
  | allocateExtended id rounds added =>
    exact (abovePool (Above.append (aboveAllocateFrame keeps.1) ((aboveAddPage keeps.2).mono (by decide)))).mono (by decide)
  | flushPage id added => exact (aboveFlushPage keeps).mono (by decide)
  | purgePage id purge =>
    refine (abovePool (aboveFrames.append ?_)).mono (by decide)
    cases purge with
    | none => exact aboveNil
    | some data => exact abovePurgeFrame (keeps data rfl)
  | openFile id data =>
    obtain ⟨rfl,keeps⟩ := keeps
    refine aboveDuring (Nat.zero_le _) ?_
    cases data with
    | none => exact aboveNil
    | some data => exact (aboveFetch (keeps data rfl)).mono (by decide)
  | closeFile id data =>
    refine aboveManager.append ?_
    match data,keeps with
    | none,_ => exact aboveNil
    | some (purges,pages,closed),keeps =>
      have purged : Above (rank discipline) 1 (during (.pool id) (purges.flatMap purgeFrame)) :=
        abovePool (aboveEach fun purge inside => abovePurgeFrame (keeps purges pages closed rfl purge inside))
      refine Above.append (Above.append (Above.append (Above.append (aboveFrames.mono (by decide)) (purged.mono (by decide)))
        (aboveDoubleWrite.mono (by decide))) (aboveEach fun _ _ => aboveFile.mono (by decide))) ?_
      cases closed with
      | false => exact aboveNil
      | true => exact aboveManager
  | managerFlushPage id known added =>
    obtain ⟨rfl,keeps⟩ := keeps
    refine aboveDuring (Nat.zero_le _) ?_
    cases known with
    | false => exact aboveNil
    | true => exact aboveFlushPage keeps

/-! Runs of calls in any number of threads, on any number of files. -/

def Keeps {T : Type} (discipline : Discipline) (_ : State Mutex T) : Event Call T → Prop
  | .enter _ call => call.Keeps discipline
  | .act _ => True

theorem callsNeverDeadlock {T : Type} [DecidableEq T] (discipline : Discipline) {events : List (Event Call T)}
    (along : Runs.Along (step Call.actions) (Keeps discipline) events idle) :
    ∀ later ∈ reached (step Call.actions) events (idle : State Mutex T), ¬Deadlocked later :=
  neverDeadlocked (fun _ _ _ keeps => (aboveCall keeps).ordered) along

def fetchAndFlush : List (Event Call Nat) :=
  [.enter 1 (.getThisPage 1 (some ⟨[],false,none⟩)),.act 1,.act 1,.act 1,.enter 2 (.flushPage 2 none),.act 2,.act 1,.act 2]

theorem fetchAndFlushGoOn : (reached (step Call.actions) fetchAndFlush (idle : State Mutex Nat)).length = 9 ∧
    ∀ later ∈ reached (step Call.actions) fetchAndFlush (idle : State Mutex Nat), ¬Deadlocked later := by
  refine ⟨rfl,callsNeverDeadlock .unmanaged (alongNext rfl (fun data same => ?_) (alongNext rfl trivial (alongNext rfl trivial
    (alongNext rfl trivial (alongNext rfl (fun _ => rfl) (alongNext rfl trivial (alongNext rfl trivial
    (alongNext rfl trivial trivial))))))))⟩
  cases same
  exact ⟨fun _ inside => absurd inside List.not_mem_nil,fun _ none => by cases none⟩

/-- All frames are in use, and the frame that `get_this_page` for file 1 purges is dirty and of file 2. `flush_page` of the manager
holds its mutex while the page fills the double-write buffer, which asks the manager for a pool. Without that, the call waits for the
pool of file 2, where another thread in `get_this_page` waits for the frames. -/
theorem callsDeadlock : (∃ later ∈ reached (step Call.actions)
      (.enter 1 (.getThisPage 1 (some ⟨[some (.dirty 2 true (some [2]))],false,none⟩)) ::
        List.replicate 9 (.act 1)) (idle : State Mutex Nat),
      Deadlocked later) ∧
    ∃ later ∈ reached (step Call.actions)
      ([.enter 1 (.getThisPage 1 (some ⟨[some (.dirty 2 true none)],false,none⟩)),.enter 2 (.getThisPage 2 (some ⟨[],false,none⟩)),
        .act 2,.act 2,.act 2] ++ List.replicate 7 (.act 1)) (idle : State Mutex Nat), Deadlocked later := by
  constructor
  · exact ⟨_,reachedLast rfl,1,.single ⟨.manager,_,rfl,rfl⟩⟩
  · exact ⟨_,reachedLast rfl,1,.tail (.single ⟨.pool 2,_,rfl,rfl⟩) ⟨.frames,_,rfl,rfl⟩⟩

end MiniOb.Buffer.PoolLocks
