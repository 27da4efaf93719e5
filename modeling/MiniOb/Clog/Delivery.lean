import MiniOb.Clog.RollOver

/-! Over every schedule of appends and of the writing thread, a restart reads back what was flushed, and the thread
flushes everything if it gets enough rounds. -/
namespace MiniOb.Clog
open Prog List DiskLogHandler LogCall

theorem appendedThreads (n : Nat) (handler : DiskLogHandler) : appended (replicate n .thread) handler = [] := by
  induction n generalizing handler with
  | zero => rfl
  | succ n ih =>
    rw [replicate_succ,appended]
    split
    · exact ih _
    · rfl

theorem runThreads (calls : List LogCall) (n : Nat) (handler : DiskLogHandler) :
    run (calls ++ replicate n .thread) handler = (run calls handler).afterTurns n := by
  induction calls generalizing handler with
  | nil => rfl
  | cons call rest ih =>
    cases call with
    | append moduleId payload => exact ih _
    | thread =>
      rw [cons_append,run,run]
      cases step : handler.threadStep with
      | ok next => exact ih next
      | error exit =>
        -- the assertion fails in every further round
        cases n with
        | zero => rfl
        | succ n => rw [afterTurns,replicate_succ,run,step]

section
variable {max : Int} {segs : List Segment} {handler : DiskLogHandler} (writing : Writing max segs handler) (positive : 0 < max)
include writing positive

theorem Writing.turns (n : Nat) : ∃ later, Writing max later (handler.afterTurns n) ∧
    written later ++ (handler.afterTurns n).buffer.entries = written segs ++ handler.buffer.entries := by
  obtain ⟨later,kept,_,same⟩ := writing.run positive (replicate n .thread) (by simp [appendedThreads])
  rw [appendedThreads,append_nil] at same
  exact ⟨later,kept,same⟩

omit positive in
theorem Writing.baseLast {before last} (split : segs = before ++ [last]) : handler.manager.base = last.lsn := by
  rw [LogFileManager.base,writing.manager,split,lastKey]
  rfl

variable {entry : LogEntry} {rest : List LogEntry} (first : handler.buffer.entries = entry :: rest)
include first

omit positive in
theorem Writing.baseLe : 0 ≤ handler.manager.base ∧ handler.manager.base ≤ entry.lsn := by
  have low := (writing.valid entry (by simp [first])).low
  rcases eq_nil_or_concat segs with none | ⟨before,last,split⟩
  · have zero : handler.manager.base = 0 := by
      rw [LogFileManager.base,writing.manager,none]
      rfl
    omega
  · have inside : last ∈ segs := by simp [split]
    have least := writing.files.low last inside
    have above := (writing.segsAbove last inside).waiting entry (by simp [first])
    rw [writing.baseLast (by simpa using split)]
    omega

theorem Writing.fronts (payload : entry.payload ≠ []) (rc : handler.rc = .success) : handler.Fronts entry rest where
  front := first
  positive := (writing.valid entry (by simp [first])).low
  word := by
    have current := writing.current entry (by simp [first])
    have bounded := writing.bounded
    omega
  payload := payload
  ascending := writing.lastAbove.waiting entry (by simp [first])
  narrow := by
    have coming := writing.lastAbove.coming
    have bounded := writing.bounded
    omega
  rc := rc
  sorted := by
    rw [writing.manager]
    exact pairwise_map.mpr (writing.files.apart.imp fun apart => by simp only [Segment.key]; omega)
  low := (writing.baseLe first).1
  last := by
    cases isOpen : handler.writer.filename with
    | none => exact .inl rfl
    | some name =>
      obtain ⟨before,last,split,_,ends⟩ := writing.writer name isOpen
      have inside : last ∈ segs := by simp [split]
      have low := writing.files.low last inside
      have high := writing.files.high last inside
      refine .inr ⟨by simp [writing.manager,split],?_⟩
      have most : handler.manager.maxEntryNumberPerFile = max := by rw [writing.manager]
      rw [writing.baseLast split,ends,most,toInt32Small (by omega) (by omega)]

theorem Writing.fits : handler.manager.Fits entry.lsn := by
  have current := writing.current entry (by simp [first])
  have bounded := writing.bounded
  have most : handler.manager.maxEntryNumberPerFile = max := by rw [writing.manager]
  have least := (writing.baseLe first).2
  rw [← most] at positive bounded
  have whole := Int.ediv_mul_le (entry.lsn - handler.manager.base) positive.ne'
  refine .inr ⟨positive,least,?_⟩
  rw [Int.add_mul]
  omega

theorem Writing.frontWritten (payload : entry.payload ≠ []) : ∃ n, (handler.afterTurns n).buffer.entries = rest := by
  rcases writing.rc with success | ⟨full,_⟩
  · obtain ⟨k,_,done⟩ := (writing.fronts positive first payload success).writtenFits (writing.fits positive first)
    exact ⟨_,done⟩
  · obtain ⟨later,next,step,kept,_,_,buffer⟩ := writing.openStep positive (.inr full)
    have rc : next.rc = .success := by
      unfold DiskLogHandler.threadStep at step
      rw [if_pos (.inr full)] at step
      cases step
      rfl
    have same : next.buffer.entries = entry :: rest := buffer ▸ first
    obtain ⟨k,_,done⟩ := (kept.fronts positive same payload rc).writtenFits (kept.fits positive same)
    exact ⟨_,(congrArg (fun last => last.buffer.entries) (runTurn step _)).trans done⟩

end

theorem Writing.drained {max segs handler} (writing : Writing max segs handler) (positive : 0 < max)
    (payloads : ∀ entry ∈ handler.buffer.entries, entry.payload ≠ []) : ∃ n, (handler.afterTurns n).buffer.entries = [] := by
  induction waiting : handler.buffer.entries generalizing segs handler with
  | nil => exact ⟨0,waiting⟩
  | cons entry rest ih =>
    obtain ⟨here,others⟩ := forall_mem_cons.mp (waiting ▸ payloads)
    obtain ⟨n,done⟩ := writing.frontWritten positive waiting here
    obtain ⟨later,kept,_⟩ := writing.turns positive n
    obtain ⟨m,empty⟩ := ih kept (done ▸ others) done
    have all : handler.afterTurns (n + m) = (handler.afterTurns n).afterTurns m := by
      rw [afterTurns,replicate_add,runThreads]
      rfl
    exact ⟨n + m,all ▸ empty⟩

section
variable {max lsn : Int} {dir : Directory} {old : List LogEntry}

/-- Over every schedule of appends and writes, on a new directory or one that an earlier handler
left: a restart that lists the files in any order delivers, from any LSN on, exactly the entries
flushed by then, in the order of their numbers; every file keeps to the range of its name; and
further rounds of the thread flush all entries, if none has an empty payload. -/
theorem logDelivered (positive : 0 < max) (well : LogDirectory max lsn dir old) (notNegative : 0 ≤ lsn)
    (started : lsn < 2 ^ 31 - max) (calls : List LogCall)
    (bounded : ∀ entry ∈ appended calls (.started max lsn dir), entry.lsn < 2 ^ 31 - max) :
    let handler := run calls (.started max lsn dir)
    let flushed := (old ++ appended calls (.started max lsn dir)).filter
      fun entry => entry.lsn ≤ handler.buffer.flushedLsn
    Ascending flushed ∧
    (∀ listing : Directory, listing.Perm handler.dir → ∀ current start,
      (DiskLogHandler.started max current listing).iterate collect start [] = (.ok (),since start flushed)) ∧
    (∀ file ∈ handler.dir, ∃ n entries, file = (fileName n,bytesOf entries) ∧
      ∀ entry ∈ entries, n ≤ entry.lsn ∧ entry.lsn ≤ n + max - 1) ∧
    ((∀ entry ∈ appended calls (.started max lsn dir), entry.payload ≠ []) →
      ∃ n, ∀ entry ∈ appended calls (.started max lsn dir),
        entry.lsn ≤ (run (calls ++ replicate n .thread) (.started max lsn dir)).buffer.flushedLsn) := by
  intro handler flushed
  obtain ⟨segs,writing,bases,grown,all,same⟩ := well.run positive notNegative (by omega) calls bounded
  have exactly : flushed = written segs := same
  rw [exactly]
  refine ⟨(pairwise_append.mp writing.ascending).1,
    fun listing listed current start => writing.delivers positive bases listed current start,fun file inside => ?_,
    fun payloads => ?_⟩
  · obtain ⟨seg,member,rfl⟩ := mem_map.mp (writing.dir.mem_iff.mp inside)
    refine ⟨seg.lsn,seg.entries,by rw [Segment.file,bases seg member,nil_append],fun entry inEntries => ?_⟩
    obtain ⟨low,high⟩ := writing.files.within seg member entry inEntries
    exact ⟨low,by omega⟩
  · -- what waits was appended by the calls, since the old entries are in the files
    obtain ⟨new,begins⟩ := grown
    have waiting : ∀ entry ∈ handler.buffer.entries, entry.payload ≠ [] := by
      rw [← begins,append_assoc] at all
      have split := append_cancel_left all
      exact fun entry inside => payloads entry (split ▸ mem_append_right _ inside)
    obtain ⟨n,empty⟩ := writing.drained positive waiting
    obtain ⟨later,kept,again⟩ := writing.turns positive n
    rw [empty,append_nil,all] at again
    refine ⟨n,fun entry inside => ?_⟩
    rw [runThreads]
    exact kept.flushed entry (again ▸ mem_append_right _ inside)

end

def threeAppends : List LogCall :=
  [.append 0 [1],.append 1 [2],.thread,.thread,.append 3 [3],.thread,.thread,.thread,.thread]

/-- The first file takes LSN 1 only, the second one the other two. -/
theorem threeDelivered : (∀ entry ∈ appended threeAppends (.started 2 0 []), entry.lsn < 2 ^ 31 - 2) ∧
    ∀ start, (started 2 0 (run threeAppends (.started 2 0 [])).dir).iterate collect start [] =
      (.ok (),since start [⟨1,0,[1]⟩,⟨2,1,[2]⟩,⟨3,3,[3]⟩]) := by
  have bounded : ∀ entry ∈ appended threeAppends (.started 2 0 []), entry.lsn < 2 ^ 31 - 2 := by decide +kernel
  have flushed : ([] ++ appended threeAppends (.started 2 0 [])).filter
      (fun entry : LogEntry => entry.lsn ≤ (run threeAppends (.started 2 0 [])).buffer.flushedLsn) = [⟨1,0,[1]⟩,⟨2,1,[2]⟩,⟨3,3,[3]⟩] := by
    decide +kernel
  refine ⟨bounded,fun start => ?_⟩
  have delivered := (logDelivered (by decide) (emptyDirectory 2 0) (le_refl 0) (by decide) threeAppends bounded).2.1
    _ (.refl _) 0 start
  rwa [flushed] at delivered

end MiniOb.Clog
