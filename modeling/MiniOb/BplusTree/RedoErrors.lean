import MiniOb.BplusTree.Holding
import MiniOb.BplusTree.Redo

/-! What `BplusTreeLogger::redo` tells its caller. `__redo` ends its loop at the first entry that
it cannot read or redo, and returns SUCCESS all the same; the pages that it fetched stay pinned. -/
namespace MiniOb.BplusTree
open Prog Bytes LogEntry KeyType

variable {K : Type}

/-- The first entry of the buffer was decoded, its page was fetched, and then it was skipped, for
its page is as new as the record, or redone. -/
inductive EntryDone (ops : KeyOps K) (lsn : LSN) (buffer : Bytes) (s : Handler K) (rest : Bytes) (t : Handler K) : Prop
  | skipped {entry : LogEntry} {u : Handler K} (fetched : fromBuffer buffer s = (.ok (entry,rest),u))
      (newer : lsn ≤ u.disk.lsn entry.page) (same : t = dropHeld (.pin entry.page) u)
  | applied {entry : LogEntry} {u : Handler K} (fetched : fromBuffer buffer s = (.ok (entry,rest),u))
      (older : u.disk.lsn entry.page < lsn) (redone : redoEntry ops entry u = (.ok (),t))

inductive RecordDone (ops : KeyOps K) (lsn : LSN) : Bytes → Handler K → Prop
  | nil {s : Handler K} : RecordDone ops lsn [] s
  | entry {buffer rest : Bytes} {s t : Handler K} (filled : buffer ≠ []) (done : EntryDone ops lsn buffer s rest t)
      (later : RecordDone ops lsn rest t) : RecordDone ops lsn buffer s

def redoStart (s : Handler K) : Handler K := { s with mtr := { s.mtr with needLog := false } }

def RedoStarts (payload : Bytes) (s : Handler K) (buffer : Bytes) (t : Handler K) : Prop :=
  (∃ id, readInt32 payload = some (id,buffer)) ∧ ∃ u, fault s = (.ok (),u) ∧ t = redoStart u

/-- SUCCESS means that every entry was dealt with, an entry that is not makes an error, and what
was pinned is unpinned. -/
structure RedoTold (ops : KeyOps K) (lsn : LSN) (payload : Bytes) (s : Handler K) : Prop where
  success : ∀ t, redo ops lsn payload s = (.ok (),t) → ∃ buffer u, RedoStarts payload s buffer u ∧ RecordDone ops lsn buffer u
  failure : ∀ buffer u, RedoStarts payload s buffer u → ¬ RecordDone ops lsn buffer u →
    ∃ code t, redo ops lsn payload s = (.error (.rc code),t)
  unpinned : ∀ r t, redo ops lsn payload s = (r,t) → t.mtr.held.Perm s.mtr.held

section
variable {ops : KeyOps K} {lsn : LSN} {buffer rest : Bytes} {s t u : Handler K} {frames pages : List PageNum} {extra : List MemoItem}
  {payload : Bytes}

/-! ### What an entry takes from the buffer -/

def Leaves {α : Type} (n : Nat) (P : α → Prop) (r : Except Exit (α × Bytes)) : Prop :=
  ∀ a rest, r = .ok (a,rest) → rest.length ≤ n ∧ P a

variable {α : Type} {n fuel : Nat} {bytes : Bytes} {e : Exit}

theorem leavesOk (short : rest.length ≤ n) (value : P a) : Leaves n P (.ok (a,rest)) := by
  intro a' rest' same
  cases same
  exact ⟨short,value⟩

theorem leavesBind {f : α × Bytes → Except Exit (β × Bytes)}
    (first : Leaves n (fun _ => True) m) (later : ∀ a rest, rest.length ≤ n → Leaves n P (f (a,rest))) : Leaves n P (m >>= f) := by
  cases m with
  | error e =>
    intro b rest same
    cases same
  | ok read => exact later read.1 read.2 (first read.1 read.2 rfl).1

theorem leavesIte [Decidable c]
    (yes : Leaves n P m) (no : Leaves n P m') : Leaves n P (if c then m else m') := by
  split
  · exact yes
  · exact no

theorem leavesOrInternal (short : ∀ a rest, m = some (a,rest) → rest.length ≤ n) :
    Leaves n (fun _ => True) (orInternal m) := by
  intro a rest same
  cases m with
  | none => cases same
  | some read =>
    cases same
    exact ⟨short a rest rfl,trivial⟩

theorem readInt32Length (ok : readInt32 bytes = some (number,rest)) :
    bytes.length = 4 + rest.length := by
  rw [readInt32Sound ok,List.length_append,lengthOfInt32]

theorem leavesInt32 (short : bytes.length ≤ n) :
    Leaves n (fun _ => True) (orInternal (readInt32 bytes)) :=
  leavesOrInternal fun _ rest ok => by
    have := readInt32Length ok
    omega

theorem leavesSized (short : bytes.length ≤ n) : Leaves n (fun _ => True) (readSized bytes) := by
  intro a rest same
  unfold readSized at same
  split at same
  · cases same
  · rename_i length after ok
    have := readInt32Length ok
    split at same
    · cases same
    · unfold Bytes.read at same
      split at same
      · cases same
      · rename_i taken
        cases same
        split at taken
        · cases taken
          rw [List.length_drop]
          exact ⟨by omega,trivial⟩
        · cases taken

theorem leavesHeader (short : bytes.length ≤ n) :
    Leaves n (fun _ => True) (orInternal (IndexFileHeader.ofBytes bytes)) := by
  refine leavesOrInternal fun header rest ok => ?_
  simp only [IndexFileHeader.ofBytes,bind,Option.bind_eq_some_iff,Prod.exists] at ok
  obtain ⟨_,_,ok1,_,_,ok2,_,_,ok3,_,_,ok4,_,_,ok5,_,_,ok6,last⟩ := ok
  cases last
  have := readInt32Length ok1
  have := readInt32Length ok2
  have := readInt32Length ok3
  have := readInt32Length ok4
  have := readInt32Length ok5
  have := readInt32Length ok6
  omega

theorem leavesDeserialize (type : Int32) (page : PageNum) (bytes : Bytes) :
    Leaves bytes.length (fun entry => entry.page = page) (LogEntryHandler.deserialize type page bytes) := by
  have le := le_refl bytes.length
  refine leavesIte (leavesBind (leavesHeader le) fun _ _ short => leavesOk short rfl) (leavesIte ?_ (leavesIte ?_
    (leavesIte (leavesOk le rfl) (leavesIte ?_ (leavesIte (leavesOk le rfl) (leavesIte ?_ (leavesIte ?_ ?_)))))))
  · exact leavesBind (leavesInt32 le) fun _ _ short => leavesOk short rfl
  · exact leavesBind (leavesInt32 le) fun _ _ short => leavesOk short rfl
  · exact leavesBind (leavesInt32 le) fun _ _ short => leavesOk short rfl
  · exact leavesBind (leavesInt32 le) fun _ _ short => leavesBind (leavesInt32 short) fun _ _ short =>
      leavesBind (leavesSized short) fun _ _ short => leavesOk short rfl
  · exact leavesBind (leavesInt32 le) fun _ _ short => leavesBind (leavesSized short) fun _ _ short => leavesOk short rfl
  · exact leavesBind (leavesInt32 le) fun _ _ short => leavesBind (leavesInt32 short) fun _ _ short =>
      leavesBind (leavesSized short) fun _ _ short => leavesIte (leavesOk short rfl) (leavesOk short rfl)

theorem leavesBody (type : Int32) (page : PageNum) (bytes : Bytes) :
    Leaves bytes.length (fun entry => entry.page = page) (deserializeBody type page bytes) := by
  intro entry rest same
  unfold deserializeBody at same
  cases parsed : LogEntryHandler.deserialize type page bytes with
  | error e => rw [parsed] at same; cases same
  | ok read =>
    rw [parsed] at same
    cases same
    obtain ⟨short,there⟩ := leavesDeserialize type page bytes read.1 read.2 parsed
    exact ⟨short,(mapPage natOf read.1).trans there⟩

theorem readHeaderLength {type page} (ok : readHeader buffer = .ok (type,page,rest)) :
    rest.length < buffer.length := by
  unfold readHeader at ok
  split at ok
  · cases ok
  · rename_i first
    split at ok
    · cases ok
    · split at ok
      · cases ok
      · rename_i second
        cases ok
        rw [readInt32Sound first,readInt32Sound second]
        simp only [List.length_append,lengthOfInt32]
        omega

theorem fromBufferOk (ok : fromBuffer buffer s = (.ok (entry,rest),u)) :
    rest.length < buffer.length ∧ ∀ extra, Owes extra s → Owes (.pin entry.page :: extra) u := by
  simp only [fromBuffer,bindApply] at ok
  cases header : readHeader buffer with
  | error e => rw [header] at ok; cases ok
  | ok head =>
    obtain ⟨type,page,body⟩ := head
    rw [header] at ok
    simp only [liftExcept,pureApply] at ok
    rcases opened : fault s with ⟨r,v⟩
    rw [opened] at ok
    cases r with
    | error e => cases ok
    | ok _ =>
      cases parsed : deserializeBody type page body with
      | error e => rw [parsed] at ok; cases ok
      | ok result =>
        rw [parsed] at ok
        cases ok
        obtain ⟨short,same⟩ := leavesBody type page body entry rest parsed
        refine ⟨lt_of_le_of_lt short (readHeaderLength header),fun extra owes => ?_⟩
        have kept := (balancedFault extra s owes).1 () v opened
        rw [same]
        exact kept.hold _

theorem balancedRedoEntry (entry : LogEntry) : Balanced (redoEntry ops entry) := by
  cases entry with
  | initHeaderPage page header => exact balancedBind (balancedQuiet (fun _ => rfl) fun _ => rfl) fun _ => balancedMarkDirty _
  | updateRootPage page root old => exact balancedUpdateRoot _
  | setParentPage page parent old => exact balancedSetParent _ _
  | leafInitEmpty page => exact balancedLogged
  | leafSetNextPage page next old => exact LeafIndexNodeHandler.balancedSetNextPage _ _
  | internalInitEmpty page => exact balancedLogged
  | internalCreateNewRoot page first key child => exact InternalIndexNodeHandler.balancedCreateNewRoot ops _ _ _ _
  | internalUpdateKey page index key old => exact InternalIndexNodeHandler.balancedSetKeyAt ops _ _ _
  | nodeInsert page index items itemNum =>
    refine balancedBind balancedRead fun node => ?_
    cases node <;> exact balancedSetNode
  | nodeRemove page index items itemNum =>
    refine balancedBind balancedRead fun node => ?_
    cases node <;> exact balancedSetNode

/-! ### The loop -/

theorem EntryDone.shorter (done : EntryDone ops lsn buffer s rest t) : rest.length < buffer.length := by
  cases done with
  | skipped fetched newer same => exact (fromBufferOk fetched).1
  | applied fetched older redone => exact (fromBufferOk fetched).1

theorem EntryDone.turn (done : EntryDone ops lsn buffer s rest t) :
    ∃ pages, redoStep ops lsn buffer s = (.ok (some (rest,pages)),t) ∧
      ∀ extra, Owes extra s → Owes (pages.map .pin ++ extra) t := by
  cases done with
  | @skipped entry u fetched newer same =>
    refine ⟨[],?_,fun extra owes => ?_⟩
    · simp only [redoStep,bindApply,attempt,fetched,readApply,if_pos newer,letGo,updateApply,pureApply,same]
    · rw [same]
      exact ((fromBufferOk fetched).2 extra owes).letGo
  | @applied entry u fetched older redone =>
    refine ⟨[entry.page],?_,fun extra owes => ?_⟩
    · simp only [redoStep,bindApply,attempt,fetched,readApply,if_neg (not_le.mpr older),redone,pureApply]
    · exact (balancedRedoEntry entry _ u ((fromBufferOk fetched).2 extra owes)).1 () t redone

theorem entryDone (ran : redoStep ops lsn buffer s = (.ok (some (rest,pages)),t)) :
    EntryDone ops lsn buffer s rest t := by
  simp only [redoStep,bindApply,attempt] at ran
  rcases fetched : fromBuffer buffer s with ⟨r,u⟩
  rw [fetched] at ran
  cases r with
  | error e => cases e <;> cases ran
  | ok read =>
    obtain ⟨entry,after⟩ := read
    simp only [bindApply,readApply] at ran
    by_cases newer : lsn ≤ u.disk.lsn entry.page
    · rw [if_pos newer] at ran
      cases ran
      exact .skipped fetched newer rfl
    · rw [if_neg newer] at ran
      simp only [bindApply,attempt] at ran
      rcases redone : redoEntry ops entry u with ⟨r',v⟩
      rw [redone] at ran
      cases r' with
      | error e => cases e <;> cases ran
      | ok _ =>
        cases ran
        exact .applied fetched (not_le.mp newer) redone

theorem RecordDone.loop (done : RecordDone ops lsn buffer s) (frames : List PageNum) (enough : buffer.length ≤ fuel) :
    ∃ pages t, redoLoop ops lsn fuel buffer frames s = (.ok (some (frames ++ pages)),t) ∧
      ∀ extra, Owes extra s → Owes (pages.map .pin ++ extra) t := by
  induction done generalizing fuel frames with
  | nil => exact ⟨[],_,by rw [redoLoopEnd,List.append_nil]; rfl,fun _ owes => owes⟩
  | @entry buffer rest s t filled done later ih =>
    obtain ⟨pages,turn,owed⟩ := done.turn
    have shorter := done.shorter
    obtain ⟨fuel,rfl⟩ : ∃ f, fuel = f + 1 := ⟨fuel - 1,by omega⟩
    obtain ⟨more,u,run,owed'⟩ := ih (frames ++ pages) (show _ ≤ fuel by omega)
    refine ⟨pages ++ more,u,?_,fun extra owes => ?_⟩
    · rw [redoLoop,if_neg filled,bindOk turn]
      simp only [run,List.append_assoc]
    · refine (owed' _ (owed extra owes)).trans (List.Perm.append_left _ ?_)
      rw [List.map_append,← List.append_assoc]
      exact List.Perm.append_right _ List.perm_append_comm

theorem recordDone (ran : redoLoop ops lsn fuel buffer frames s = (.ok (some pages),t)) :
    RecordDone ops lsn buffer s := by
  induction fuel generalizing buffer frames s with
  | zero =>
    rw [redoLoop] at ran
    split at ran
    · rename_i empty
      rw [empty]
      exact .nil
    · cases ran
  | succ fuel ih =>
    rw [redoLoop] at ran
    split at ran
    · rename_i empty
      rw [empty]
      exact .nil
    · rename_i filled
      rw [bindApply] at ran
      rcases turn : redoStep ops lsn buffer s with ⟨r,u⟩
      rw [turn] at ran
      cases r with
      | error e => cases ran
      | ok result =>
        cases result with
        | none => cases ran
        | some next => exact .entry filled (entryDone turn) (ih ran)

/-! ### The whole call -/

theorem unpinAllRun (pages : List PageNum) (s : Handler K) :
    ∃ t, unpinAll pages s = (.ok (),t) ∧ ∀ extra, Owes (pages.map .pin ++ extra) s → Owes extra t := by
  induction pages generalizing s with
  | nil => exact ⟨s,rfl,fun _ owes => owes⟩
  | cons page rest ih =>
    obtain ⟨t,ran,kept⟩ := ih (dropHeld (.pin page) s)
    exact ⟨t,ran,fun extra owes => kept extra owes.letGo⟩

theorem setLsnAllRun (lsn : LSN) (pages : List PageNum) (s : Handler K) :
    ∃ disk, setLsnAll lsn pages s = (.ok (),{ s with disk := disk }) := by
  induction pages generalizing s with
  | nil => exact ⟨s.disk,rfl⟩
  | cons page rest ih => exact ih _

theorem owesReleaseAll (owes : Owes extra s) : ∃ t, releaseAll s = (.ok (),t) ∧ t.mtr.held.Perm extra := by
  refine ⟨_,rfl,?_⟩
  have kept := owes.releaseTo s.mtr.memo.length
  unfold Owes at kept
  rwa [show (releaseTo s.mtr.memo.length s).2.mtr.memo = [] from List.drop_length,List.nil_append] at kept

theorem redoRunStarted (starts : RedoStarts payload s buffer u) : redo ops lsn payload s = (do
    match ← redoLoop ops lsn buffer.length buffer [] with
    | some frames =>
        setLsnAll lsn frames
        unpinAll frames
    | none => pure ()
    update fun s => { s with mtr := { s.mtr with needLog := true } }
    releaseAll) u := by
  obtain ⟨⟨id,named⟩,v,opened,rfl⟩ := starts
  unfold redo
  rw [named]
  exact bindOk opened

theorem redoDone (starts : RedoStarts payload s buffer u) (done : RecordDone ops lsn buffer u) (fresh : s.mtr.memo = []) :
    ∃ t, redo ops lsn payload s = (.ok (),t) ∧ t.mtr.held.Perm s.mtr.held := by
  obtain ⟨pages,v,loop,owed⟩ := done.loop [] (le_refl buffer.length)
  have start : Owes s.mtr.held u := by
    obtain ⟨-,w,opened,rfl⟩ := starts
    have none : Owes s.mtr.held s := by rw [Owes,fresh]; exact List.Perm.refl _
    exact (balancedFault _ s none).1 () w opened
  obtain ⟨disk,stamped⟩ := setLsnAllRun lsn pages v
  obtain ⟨w,ran,unpinned⟩ := unpinAllRun pages { v with disk := disk }
  obtain ⟨t,released,held⟩ := owesReleaseAll (s := { w with mtr := { w.mtr with needLog := true } }) (unpinned _ (owed _ start))
  refine ⟨t,?_,held⟩
  rw [redoRunStarted starts,bindOk loop]
  simp only [List.nil_append,bindApply,stamped,ran,updateApply]
  exact released

variable (ops lsn s payload) in
theorem redoRefused : (∃ buffer u, RedoStarts payload s buffer u) ∨
    ∃ code t, redo ops lsn payload s = (.error (.rc code),t) ∧ t.mtr.held = s.mtr.held := by
  cases named : readInt32 payload with
  | none =>
    refine .inr ⟨.ioerrRead,s,?_,rfl⟩
    unfold redo
    rw [named]
    rfl
  | some read =>
    rcases faults : s.mtr.faults with _ | ⟨_ | code,rest⟩
    · exact .inl ⟨read.2,_,⟨read.1,named⟩,_,by unfold fault; rw [faults],rfl⟩
    · exact .inl ⟨read.2,_,⟨read.1,named⟩,_,by unfold fault; rw [faults],rfl⟩
    · refine .inr ⟨code,{ s with mtr := { s.mtr with faults := rest } },?_,rfl⟩
      unfold redo
      rw [named]
      exact bindError (by unfold fault; rw [faults])

theorem attemptError (failed : attempt m s = (.error e,t)) : e = .abort := by
  unfold attempt at failed
  split at failed
  · cases failed
  · cases failed
  · cases failed
    rfl

theorem redoStepError (failed : redoStep ops lsn buffer s = (.error e,t)) : e = .abort := by
  simp only [redoStep,bindApply] at failed
  rcases fetched : attempt (fromBuffer buffer) s with ⟨r,u⟩
  rw [fetched] at failed
  cases r with
  | error e' =>
    cases failed
    exact attemptError fetched
  | ok read =>
    cases read with
    | none => cases failed
    | some next =>
      simp only [bindApply,readApply] at failed
      split at failed
      · cases failed
      · rw [bindApply] at failed
        rcases redone : attempt (redoEntry ops next.1) u with ⟨r',v⟩
        rw [redone] at failed
        cases r' with
        | error e' =>
          cases failed
          exact attemptError redone
        | ok result => cases result <;> cases failed

theorem redoLoopError (failed : redoLoop ops lsn fuel buffer frames s = (.error e,t)) : e = .abort := by
  induction fuel generalizing buffer frames s with
  | zero =>
    rw [redoLoop] at failed
    split at failed
    · cases failed
    · cases failed
      rfl
  | succ fuel ih =>
    rw [redoLoop] at failed
    split at failed
    · cases failed
    · rw [bindApply] at failed
      rcases turn : redoStep ops lsn buffer s with ⟨r,u⟩
      rw [turn] at failed
      cases r with
      | error e' =>
        cases failed
        exact redoStepError turn
      | ok result =>
        cases result with
        | none => cases failed
        | some next => exact ih failed

theorem redoNoError (starts : RedoStarts payload s buffer u) : redo ops lsn payload s ≠ (.error (.rc code),t) := by
  intro failed
  rw [redoRunStarted starts,bindApply] at failed
  rcases loop : redoLoop ops lsn buffer.length buffer [] u with ⟨r,v⟩
  rw [loop] at failed
  cases r with
  | error e =>
    cases failed
    cases redoLoopError loop
  | ok result =>
    cases result with
    | none => cases failed
    | some frames =>
      obtain ⟨disk,stamped⟩ := setLsnAllRun lsn frames v
      obtain ⟨w,ran,-⟩ := unpinAllRun frames { v with disk := disk }
      simp only [bindApply,stamped,ran,updateApply] at failed
      cases failed

theorem redoToldIff (fresh : s.mtr.memo = []) :
    RedoTold ops lsn payload s ↔ ∀ buffer u, RedoStarts payload s buffer u → RecordDone ops lsn buffer u := by
  refine ⟨fun told buffer u starts => ?_,fun done => ⟨fun t ran => ?_,fun buffer u starts failed => ?_,fun r t ran => ?_⟩⟩
  · by_contra failed
    obtain ⟨code,t,ran⟩ := told.failure buffer u starts failed
    exact redoNoError starts ran
  · rcases redoRefused ops lsn s payload with ⟨buffer,u,starts⟩ | ⟨code,t',refused,-⟩
    · exact ⟨buffer,u,starts,done buffer u starts⟩
    · rw [refused] at ran
      cases ran
  · exact absurd (done buffer u starts) failed
  · rcases redoRefused ops lsn s payload with ⟨buffer,u,starts⟩ | ⟨code,t',refused,held⟩
    · obtain ⟨t',redone,held⟩ := redoDone starts (done buffer u starts) fresh
      rw [redone] at ran
      cases ran
      exact held
    · rw [refused] at ran
      cases ran
      rw [held]

end

theorem sevenRedoTold : (redo ints.keyOps 3 sevenRecord newInts).1 = .ok () ∧ newInts.mtr.memo = [] ∧
    RedoTold ints.keyOps 3 sevenRecord newInts := by
  refine ⟨by decide +kernel,by decide +kernel,(redoToldIff (by decide +kernel)).mpr fun buffer u starts => ?_⟩
  obtain ⟨⟨id,named⟩,v,opened,rfl⟩ := starts
  have buffer' : buffer = sevenRecord.drop 4 := by
    have same := readInt32Sound named
    rw [same,List.drop_left' (lengthOfInt32 id)]
  have v' : v = newInts := by
    have same : (fault newInts).2 = v := by rw [opened]
    exact same.symm
  subst buffer' v'
  have ran : (redoLoop ints.keyOps 3 (sevenRecord.drop 4).length (sevenRecord.drop 4) [] (redoStart newInts)).1 =
      .ok (some [2,2,1]) := by decide +kernel
  exact recordDone (Prod.ext ran rfl)

def cutRecord : Bytes := ofInt32 1 ++ ofInt32 1 ++ ofInt32 1

/-- The page of the entry is fetched before the entry is found to be cut: SUCCESS, and a pin on
the header page is left. -/
theorem cutRecordSucceeds : (redo ints.keyOps 3 cutRecord newInts).1 = .ok () ∧
    (redo ints.keyOps 3 cutRecord newInts).2.mtr.held = [.pin 1] ∧
    newInts.mtr.memo = [] ∧ newInts.mtr.held = [] ∧
    (deserializeBody 1 1 [] : Except Exit (LogEntry × Bytes)) = .error (.rc .internal) ∧
    ¬ RedoTold ints.keyOps 3 cutRecord newInts := by
  have held : (redo ints.keyOps 3 cutRecord newInts).2.mtr.held = [.pin 1] := by decide +kernel
  have before : newInts.mtr.held = [] := by decide +kernel
  refine ⟨by decide +kernel,held,by decide +kernel,before,rfl,fun told => ?_⟩
  have unpinned := told.unpinned _ (redo ints.keyOps 3 cutRecord newInts).2 (Prod.ext rfl rfl)
  exact absurd unpinned.length_eq (by decide)

end MiniOb.BplusTree
