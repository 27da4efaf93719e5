import Mathlib.Data.Nat.Find
import MiniOb.Clog.Writing

/-! From one log file to the next: what each file accepts, and whether the writing thread gets rid of an entry
(`log_file.cpp`, `disk_log_handler.cpp`). LSNs have 64 bits and the end of a file 32. -/
namespace MiniOb.Clog
open List LogFileManager

namespace LogFileManager

def base (manager : LogFileManager) : Int := match manager.logFiles.getLast? with
  | none => 0
  | some last => last.1

/-- The first LSNs of the files opened one after the other. Without a positive number of entries for each file
the last file of the map stays the last one. -/
def firstLsn (manager : LogFileManager) (k : Nat) : Int :=
  if 0 < manager.maxEntryNumberPerFile then manager.base + k * manager.maxEntryNumberPerFile
  else if k = 0 then manager.base else manager.base + manager.maxEntryNumberPerFile

def lastLsn (manager : LogFileManager) (k : Nat) : Int := manager.firstLsn k + manager.maxEntryNumberPerFile - 1

end LogFileManager

def LogFileWriter.TakesUpTo (last : Int) (writer : LogFileWriter) : Prop :=
  ∀ (entry : LogEntry) (dir : Directory), 0 < entry.lsn → entry.lsn < 2 ^ 63 → writer.lastLsn < entry.lsn →
    ((writer.write entry dir).1 = .success ↔ entry.lsn ≤ last)

namespace DiskLogHandler

def standing (handler : DiskLogHandler) : LogFileManager × LogFileWriter × Directory :=
  if handler.writer.filename = none then handler.manager.lastFile handler.writer handler.dir
  else (handler.manager,handler.writer,handler.dir)

def opened (handler : DiskLogHandler) : Nat → LogFileManager × LogFileWriter × Directory
  | 0 => handler.standing
  | k + 1 => (handler.opened k).1.nextFile (handler.opened k).2.1 (handler.opened k).2.2

def turned (handler : DiskLogHandler) (k : Nat) : DiskLogHandler :=
  { handler with manager := (handler.opened k).1, writer := (handler.opened k).2.1, dir := (handler.opened k).2.2, rc := .success }

def turns (handler : DiskLogHandler) (k : Nat) : Nat := (if handler.writer.filename = none then 1 else 0) + 2 * k + 1

def afterTurns (n : Nat) (handler : DiskLogHandler) : DiskLogHandler := LogCall.run (replicate n .thread) handler

structure Fronts (handler : DiskLogHandler) (entry : LogEntry) (rest : List LogEntry) : Prop where
  front : handler.buffer.entries = entry :: rest
  positive : 0 < entry.lsn
  word : entry.lsn < 2 ^ 63
  payload : entry.payload ≠ []
  ascending : handler.writer.lastLsn < entry.lsn
  narrow : handler.writer.lastLsn < 2 ^ 31
  rc : handler.rc = .success
  sorted : handler.manager.logFiles.Pairwise fun a b => a.1 < b.1
  low : 0 ≤ handler.manager.base
  last : handler.writer.filename = none ∨
    handler.manager.logFiles ≠ [] ∧ handler.writer.endLsn = toInt32 (handler.manager.base + handler.manager.maxEntryNumberPerFile - 1)

def Written (handler : DiskLogHandler) (rest : List LogEntry) : Prop :=
  ∃ k, (∀ i ≤ k, (handler.opened i).2.1.TakesUpTo (handler.manager.lastLsn i)) ∧
    (handler.afterTurns (handler.turns k)).buffer.entries = rest

end DiskLogHandler

/-! What a file takes. -/
namespace LogFileWriter
variable {writer : LogFileWriter} {entry : LogEntry} {last : Int}

theorem writeFull (full : writer.endLsn < entry.lsn) (dir : Directory) : writer.write entry dir = (.logFileFull,writer,dir) :=
  if_pos full

theorem writeIff (isOpen : writer.filename ≠ none) (ascending : writer.lastLsn < entry.lsn) (dir : Directory) :
    (writer.write entry dir).1 = .success ↔ entry.lsn ≤ writer.endLsn := by
  obtain ⟨name,named⟩ := Option.ne_none_iff_exists'.mp isOpen
  unfold write
  by_cases full : writer.endLsn < entry.lsn
  · rw [if_pos full]
    exact ⟨nofun,fun fits => absurd full (not_lt.mpr fits)⟩
  · rw [if_neg full,named]
    simp only [if_neg (not_le.mpr ascending),true_iff]
    exact not_lt.mp full

theorem toInt32Less (n : Int) : toInt32 n < 2 ^ 31 := by
  have bound := (Int32.ofInt n).toInt_lt
  exact bound

theorem takesUpTo (isOpen : writer.filename ≠ none) (ends : writer.endLsn = toInt32 last) (low : -2 ^ 31 ≤ last)
    (high : last < 2 ^ 31) : writer.TakesUpTo last := by
  intro entry dir _ _ ascending
  rw [writeIff isOpen ascending,ends,toInt32Small low high]

theorem TakesUpTo.high (takes : writer.TakesUpTo last) (isOpen : writer.filename ≠ none) (ends : writer.endLsn = toInt32 last)
    (narrow : writer.lastLsn < 2 ^ 31) : last < 2 ^ 31 := by
  by_contra high
  have taken := (takes ⟨2 ^ 31,0,[]⟩ [] (by decide) (by decide) narrow).mpr (not_lt.mp high)
  have fits : (2 : Int) ^ 31 ≤ writer.endLsn := (writeIff isOpen narrow []).mp taken
  have less := toInt32Less last
  omega

end LogFileWriter

/-! The files opened one after the other. -/
namespace LogFileManager
variable {lsn : Int} {name : FileName} {files : List (Int × FileName)} {last : Int × FileName}

theorem emplaceBelow (ends : files.getLast? = some last) (below : lsn ≤ last.1) :
    (emplace lsn name files).getLast? = some last := by
  induction files with
  | nil => cases ends
  | cons file rest ih =>
    unfold emplace
    split
    · rw [getLast?_cons_cons,ends]
    · split
      · exact ends
      · cases rest with
        | nil =>
          have same : file = last := Option.some.inj ends
          rw [← same] at below
          omega
        | cons next others =>
          have deep := ih ends
          cases empty : emplace lsn name (next :: others) with
          | nil =>
            rw [empty] at deep
            cases deep
          | cons head tail => rw [getLast?_cons_cons,← empty,deep]

variable {manager : LogFileManager}

def lastKey (manager : LogFileManager) (k : Nat) : Int :=
  if 0 < manager.maxEntryNumberPerFile then manager.base + k * manager.maxEntryNumberPerFile else manager.base

theorem firstLsnSucc (k : Nat) : manager.firstLsn (k + 1) = manager.lastKey k + manager.maxEntryNumberPerFile := by
  unfold firstLsn lastKey
  split
  · rw [Int.natCast_succ,Int.add_mul]
    omega
  · rw [if_neg (Nat.succ_ne_zero k)]

theorem firstLsnZero : manager.firstLsn 0 = manager.base := by
  unfold firstLsn
  split
  · simp
  · rfl

theorem lastKeyPositive (positive : 0 < manager.maxEntryNumberPerFile) (k : Nat) : manager.lastKey k = manager.firstLsn k := by
  rw [lastKey,if_pos positive,firstLsn,if_pos positive]

theorem lastKeyZero : manager.lastKey 0 = manager.base := by
  unfold lastKey
  split
  · simp
  · rfl

end LogFileManager

namespace DiskLogHandler
variable {handler : DiskLogHandler} {entry : LogEntry} {rest : List LogEntry}

structure Opened (handler : DiskLogHandler) (k : Nat) (manager : LogFileManager) (writer : LogFileWriter) : Prop where
  max : manager.maxEntryNumberPerFile = handler.manager.maxEntryNumberPerFile
  isOpen : writer.filename ≠ none
  ends : writer.endLsn = toInt32 (handler.manager.lastLsn k)
  kept : writer.lastLsn = handler.writer.lastLsn
  last : ∃ name, manager.logFiles.getLast? = some (handler.manager.lastKey k,name)
  greatest : 0 < handler.manager.maxEntryNumberPerFile → ∀ file ∈ manager.logFiles, file.1 ≤ handler.manager.lastKey k

variable {k : Nat} {manager : LogFileManager} {writer : LogFileWriter}

theorem Opened.below (opened : Opened handler k manager writer)
    (positive : 0 < handler.manager.maxEntryNumberPerFile) :
    ∀ file ∈ manager.logFiles, file.1 < handler.manager.firstLsn (k + 1) := by
  intro file inside
  have most := opened.greatest positive file inside
  rw [firstLsnSucc]
  omega

theorem Opened.next (opened : Opened handler k manager writer)
    (dir : Directory) : Opened handler (k + 1) (manager.nextFile writer dir).1 (manager.nextFile writer dir).2.1 := by
  obtain ⟨name,last⟩ := opened.last
  simp only [nextFile,last,opened.max]
  rw [← firstLsnSucc]
  refine ⟨rfl,Option.some_ne_none _,rfl,opened.kept,?_,?_⟩
  · by_cases positive : 0 < handler.manager.maxEntryNumberPerFile
    · rw [emplaceLast (opened.below positive),getLast?_concat,lastKeyPositive positive]
      exact ⟨_,rfl⟩
    · have same : handler.manager.lastKey (k + 1) = handler.manager.lastKey k := by
        simp only [LogFileManager.lastKey,if_neg positive]
      refine ⟨name,same ▸ emplaceBelow last ?_⟩
      rw [firstLsnSucc]
      omega
  · intro positive file inside
    rw [lastKeyPositive positive]
    rw [emplaceLast (opened.below positive)] at inside
    rcases mem_append.mp inside with old | new
    · exact (opened.below positive file old).le
    · obtain rfl := mem_singleton.mp new
      exact le_refl _

theorem Fronts.greatest (fronts : Fronts handler entry rest) {last}
    (ends : handler.manager.logFiles.getLast? = some last) : ∀ file ∈ handler.manager.logFiles, file.1 ≤ last.1 := by
  obtain ⟨before,split⟩ := getLast?_eq_some_iff.mp ends
  have sorted := fronts.sorted
  rw [split,pairwise_append] at sorted
  intro file inside
  rw [split] at inside
  rcases mem_append.mp inside with old | new
  · exact (sorted.2.2 file old last (by simp)).le
  · rw [mem_singleton.mp new]

theorem Fronts.standing (fronts : Fronts handler entry rest) : Opened handler 0 handler.standing.1 handler.standing.2.1 := by
  have ends : toInt32 (handler.manager.base + handler.manager.maxEntryNumberPerFile - 1) = toInt32 (handler.manager.lastLsn 0) := by
    rw [lastLsn,firstLsnZero]
  have key := handler.manager.lastKeyZero
  unfold DiskLogHandler.standing
  cases found : handler.manager.logFiles.getLast? with
  | none =>
    have base : handler.manager.base = 0 := by rw [base,found]
    have empty := getLast?_eq_none_iff.mp found
    have closed : handler.writer.filename = none := fronts.last.resolve_right fun last => last.1 empty
    rw [if_pos closed]
    simp only [lastFile,nextFile,empty,emplace]
    rw [base] at ends key
    refine ⟨rfl,Option.some_ne_none _,ends,rfl,⟨_,by rw [key]; rfl⟩,?_⟩
    intro _ file inside
    rw [mem_singleton.mp inside,key]
    exact le_refl _
  | some last =>
    have base : handler.manager.base = last.1 := by rw [base,found]
    have greatest : ∀ file ∈ handler.manager.logFiles, file.1 ≤ handler.manager.lastKey 0 := by
      rw [key,base]
      exact fronts.greatest found
    have names : ∃ name, handler.manager.logFiles.getLast? = some (handler.manager.lastKey 0,name) :=
      ⟨last.2,by rw [key,base,found]⟩
    split
    · simp only [lastFile,found]
      rw [base] at ends
      exact ⟨rfl,Option.some_ne_none _,ends,rfl,names,fun _ => greatest⟩
    · rename_i isOpen
      exact ⟨rfl,isOpen,(fronts.last.resolve_left isOpen).2.trans ends,rfl,names,fun _ => greatest⟩

theorem Fronts.opened (fronts : Fronts handler entry rest) (k : Nat) :
    Opened handler k (handler.opened k).1 (handler.opened k).2.1 := by
  induction k with
  | zero => exact fronts.standing
  | succ k ih => exact ih.next _

/-! The turns of the thread. -/

def Refused (handler : DiskLogHandler) (entry : LogEntry) (k : Nat) : Prop := toInt32 (handler.manager.lastLsn k) < entry.lsn

theorem Fronts.turnRefused (fronts : Fronts handler entry rest) (refused : handler.Refused entry k) :
    (handler.turned k).threadStep = .ok { handler.turned k with rc := .logFileFull } := by
  have opened := fronts.opened k
  unfold threadStep
  rw [if_neg (by simp [turned,opened.isOpen])]
  have full : (handler.opened k).2.1.endLsn < entry.lsn := opened.ends ▸ refused
  simp only [turned,LogEntryBuffer.flushEntry,fronts.front,if_pos (And.intro fronts.positive fronts.payload),
    LogFileWriter.writeFull full]

theorem turnFull (k : Nat) : ({ handler.turned k with rc := .logFileFull } : DiskLogHandler).threadStep = .ok (handler.turned (k + 1)) := by
  unfold threadStep
  rw [if_pos (Or.inr rfl)]
  rfl

theorem Fronts.turnWritten (fronts : Fronts handler entry rest) (taken : ¬handler.Refused entry k) :
    ∃ next, (handler.turned k).threadStep = .ok next ∧ next.buffer.entries = rest := by
  have opened := fronts.opened k
  obtain ⟨name,named⟩ := Option.ne_none_iff_exists'.mp opened.isOpen
  have fits : ¬(handler.opened k).2.1.endLsn < entry.lsn := opened.ends ▸ taken
  have ascending : ¬entry.lsn ≤ (handler.opened k).2.1.lastLsn := by
    rw [opened.kept]
    exact not_le.mpr fronts.ascending
  unfold threadStep
  rw [if_neg (by simp [turned,opened.isOpen])]
  simp only [turned,LogEntryBuffer.flushEntry,fronts.front,if_pos (And.intro fronts.positive fronts.payload),
    LogFileWriter.write,if_neg fits,named,if_neg ascending]
  exact ⟨_,rfl,rfl⟩

theorem runTurn {next} (step : handler.threadStep = .ok next) (n : Nat) :
    handler.afterTurns (n + 1) = next.afterTurns n := by
  rw [afterTurns,replicate_succ,LogCall.run,step]
  rfl

section
variable (fronts : Fronts handler entry rest)
include fronts

theorem Fronts.lead (n : Nat) :
    handler.afterTurns ((if handler.writer.filename = none then 1 else 0) + n) = (handler.turned 0).afterTurns n := by
  split
  · rename_i closed
    have step : handler.threadStep = .ok (handler.turned 0) := by
      unfold threadStep
      rw [if_pos (Or.inl closed)]
      simp only [fronts.rc,turned,DiskLogHandler.opened,DiskLogHandler.standing,if_pos closed]
      rfl
    rw [Nat.add_comm,runTurn step]
  · rename_i isOpen
    have same : handler.turned 0 = handler := by
      simp only [turned,DiskLogHandler.opened,DiskLogHandler.standing,if_neg isOpen,← fronts.rc]
    rw [same,Nat.zero_add]

theorem Fronts.turnedOver {n} (j : Nat) (refused : ∀ i < k, handler.Refused entry (j + i)) :
    (handler.turned j).afterTurns (2 * k + n) = (handler.turned (j + k)).afterTurns n := by
  induction k generalizing j with
  | zero => rw [Nat.mul_zero,Nat.zero_add,Nat.add_zero]
  | succ k ih =>
    have count : 2 * (k + 1) + n = 2 * k + n + 1 + 1 := by omega
    have first : handler.Refused entry j := refused 0 (Nat.succ_pos k)
    rw [count,runTurn (fronts.turnRefused first),runTurn (turnFull j)]
    have later : ∀ i < k, handler.Refused entry (j + 1 + i) := by
      intro i less
      have one := refused (i + 1) (Nat.succ_lt_succ less)
      rwa [Nat.add_comm i 1,← Nat.add_assoc] at one
    rw [ih (j + 1) later,Nat.add_assoc,Nat.add_comm 1 k]

theorem Fronts.afterRefused (refused : ∀ i < k, handler.Refused entry i) :
    handler.afterTurns (handler.turns k) = (handler.turned k).afterTurns 1 := by
  have each : ∀ i < k, handler.Refused entry (0 + i) := by
    intro i less
    rw [Nat.zero_add]
    exact refused i less
  rw [turns,Nat.add_assoc,fronts.lead,fronts.turnedOver 0 each,Nat.zero_add]

theorem Fronts.someTaken
    (done : (handler.afterTurns (handler.turns k)).buffer.entries = rest) : ∃ i ≤ k, ¬handler.Refused entry i := by
  by_contra all
  have refused : ∀ i ≤ k, handler.Refused entry i := fun i le => not_not.mp fun taken => all ⟨i,le,taken⟩
  rw [fronts.afterRefused fun i less => refused i less.le,runTurn (fronts.turnRefused (refused k le_rfl))] at done
  have length := congrArg length (fronts.front.symm.trans done)
  simp at length

theorem Fronts.firstTaken (taken : ¬handler.Refused entry k) :
    ∃ i ≤ k, (handler.afterTurns (handler.turns i)).buffer.entries = rest := by
  classical
  have some : ∃ i, ¬handler.Refused entry i := ⟨k,taken⟩
  obtain ⟨next,step,done⟩ := fronts.turnWritten (Nat.find_spec some)
  refine ⟨Nat.find some,Nat.find_min' some taken,?_⟩
  rw [fronts.afterRefused fun i less => not_not.mp (Nat.find_min some less),runTurn step]
  exact done

end

end DiskLogHandler

namespace LogFileManager
variable {manager : LogFileManager} {lsn : Int}

/-- The file the LSN belongs to ends below `2 ^ 31`. Without a positive number of entries for each file it must
belong to the one that is there. -/
def Fits (manager : LogFileManager) (lsn : Int) : Prop :=
  lsn ≤ manager.base + manager.maxEntryNumberPerFile - 1 ∧ manager.base + manager.maxEntryNumberPerFile - 1 < 2 ^ 31 ∨
    0 < manager.maxEntryNumberPerFile ∧ manager.base ≤ lsn ∧
      manager.base + ((lsn - manager.base) / manager.maxEntryNumberPerFile + 1) * manager.maxEntryNumberPerFile - 1 < 2 ^ 31

theorem lastLsnZero : manager.lastLsn 0 = manager.base + manager.maxEntryNumberPerFile - 1 := by rw [lastLsn,firstLsnZero]

theorem lastLsnPositive (positive : 0 < manager.maxEntryNumberPerFile) (k : Nat) :
    manager.lastLsn k = manager.base + ((k : Int) + 1) * manager.maxEntryNumberPerFile - 1 := by
  rw [lastLsn,firstLsn,if_pos positive,Int.add_mul]
  omega

theorem lastLsnMono (positive : 0 < manager.maxEntryNumberPerFile) {i k} (le : i ≤ k) :
    manager.lastLsn i ≤ manager.lastLsn k := by
  rw [lastLsnPositive positive,lastLsnPositive positive]
  have grows : ((i : Int) + 1) * manager.maxEntryNumberPerFile ≤ ((k : Int) + 1) * manager.maxEntryNumberPerFile :=
    Int.mul_le_mul_of_nonneg_right (by omega) positive.le
  omega

theorem Fits.files (fits : manager.Fits lsn) (low : 0 ≤ manager.base) (least : 0 < lsn) :
    ∃ k, lsn ≤ manager.lastLsn k ∧ ∀ i ≤ k, -2 ^ 31 ≤ manager.lastLsn i ∧ manager.lastLsn i < 2 ^ 31 := by
  rcases fits with ⟨here,small⟩ | ⟨positive,after,small⟩
  · rw [← lastLsnZero] at here small
    refine ⟨0,here,fun i le => ?_⟩
    obtain rfl := Nat.le_zero.mp le
    omega
  · have quotient : 0 ≤ (lsn - manager.base) / manager.maxEntryNumberPerFile := Int.ediv_nonneg (by omega) positive.le
    obtain ⟨k,index⟩ := Int.eq_ofNat_of_zero_le quotient
    have below := Int.lt_ediv_add_one_mul_self (lsn - manager.base) positive
    rw [index] at small below
    have here := lastLsnPositive positive k
    refine ⟨k,by omega,fun i le => ⟨?_,?_⟩⟩
    · have first := lastLsnMono positive (Nat.zero_le i)
      rw [lastLsnZero] at first
      omega
    · have upTo := lastLsnMono positive le
      omega

theorem fitsOf {k} (here : lsn ≤ manager.lastLsn k) (small : manager.lastLsn k < 2 ^ 31) (first : manager.lastLsn 0 < 2 ^ 31) :
    manager.Fits lsn := by
  rw [lastLsnZero] at first
  by_cases positive : 0 < manager.maxEntryNumberPerFile
  · by_cases after : manager.base ≤ lsn
    · refine .inr ⟨positive,after,?_⟩
      rw [lastLsnPositive positive] at here small
      have quotient : (lsn - manager.base) / manager.maxEntryNumberPerFile < (k : Int) + 1 :=
        Int.ediv_lt_of_lt_mul positive (by omega)
      have grows : ((lsn - manager.base) / manager.maxEntryNumberPerFile + 1) * manager.maxEntryNumberPerFile ≤
          ((k : Int) + 1) * manager.maxEntryNumberPerFile := Int.mul_le_mul_of_nonneg_right (by omega) positive.le
      omega
    · exact .inl ⟨by omega,first⟩
  · -- the further files end before the first one
    refine .inl ⟨?_,first⟩
    unfold lastLsn firstLsn at here
    split at here <;> omega

end LogFileManager

theorem DiskLogHandler.Fronts.writtenFits {handler : DiskLogHandler} {entry : LogEntry} {rest : List LogEntry}
    (fronts : handler.Fronts entry rest) (fits : handler.manager.Fits entry.lsn) : handler.Written rest := by
  obtain ⟨k,here,bounds⟩ := fits.files fronts.low fronts.positive
  have taken : ¬handler.Refused entry k := by
    rw [DiskLogHandler.Refused,toInt32Small (bounds k le_rfl).1 (bounds k le_rfl).2]
    exact not_lt.mpr here
  obtain ⟨i,le,done⟩ := fronts.firstTaken taken
  refine ⟨i,fun j upTo => ?_,done⟩
  have opened := fronts.opened j
  obtain ⟨low,high⟩ := bounds j (upTo.trans le)
  exact LogFileWriter.takesUpTo opened.isOpen opened.ends low high

theorem DiskLogHandler.writtenIff {handler : DiskLogHandler} {entry : LogEntry} {rest : List LogEntry}
    (fronts : handler.Fronts entry rest) : handler.Written rest ↔ handler.manager.Fits entry.lsn := by
  constructor
  · rintro ⟨k,exactly,done⟩
    have small : ∀ i ≤ k, handler.manager.lastLsn i < 2 ^ 31 := by
      intro i le
      have opened := fronts.opened i
      exact (exactly i le).high opened.isOpen opened.ends (opened.kept ▸ fronts.narrow)
    obtain ⟨i,le,taken⟩ := fronts.someTaken done
    have opened := fronts.opened i
    have ascending : (handler.opened i).2.1.lastLsn < entry.lsn := opened.kept ▸ fronts.ascending
    have fits : entry.lsn ≤ (handler.opened i).2.1.endLsn := opened.ends ▸ not_lt.mp taken
    have here := (exactly i le entry [] fronts.positive fronts.word ascending).mp
      ((LogFileWriter.writeIff opened.isOpen ascending []).mpr fits)
    exact fitsOf here (small i le) (small 0 (Nat.zero_le k))
  · exact fronts.writtenFits

def secondFile (lsn : Int) : DiskLogHandler where
  buffer := ⟨lsn,lsn - 1,[⟨lsn,0,[1]⟩]⟩
  manager := ⟨3,[(0,fileName 0)]⟩
  writer := .closed
  dir := []
  rc := .success

theorem secondFileFronts {lsn} (positive : 0 < lsn) (word : lsn < 2 ^ 63) :
    (secondFile lsn).Fronts ⟨lsn,0,[1]⟩ [] where
  front := rfl
  positive := positive
  word := word
  payload := nofun
  ascending := positive
  narrow := (by decide : (0 : Int) < 2 ^ 31)
  rc := rfl
  sorted := pairwise_singleton _ _
  low := le_refl (0 : Int)
  last := .inl rfl

theorem secondFileWritten : (secondFile 5).Written [] :=
  (DiskLogHandler.writtenIff (secondFileFronts (by decide) (by decide))).mpr (.inr ⟨by decide,by decide,by decide⟩)

/-- The entry `2 ^ 31` is refused by every file, and files are opened forever. -/
theorem neverTaken : (secondFile (2 ^ 31)).Fronts ⟨2 ^ 31,0,[1]⟩ [] ∧ ¬(secondFile (2 ^ 31)).Written [] ∧
    ∀ k, (secondFile (2 ^ 31)).afterTurns ((secondFile (2 ^ 31)).turns k) =
      { (secondFile (2 ^ 31)).turned k with rc := .logFileFull } := by
  have fronts : (secondFile (2 ^ 31)).Fronts ⟨2 ^ 31,0,[1]⟩ [] := secondFileFronts (by decide) (by decide)
  have refused : ∀ k, (secondFile (2 ^ 31)).Refused ⟨2 ^ 31,0,[1]⟩ k := fun k => LogFileWriter.toInt32Less _
  refine ⟨fronts,?_,fun k => ?_⟩
  · rintro ⟨k,_,done⟩
    obtain ⟨i,_,taken⟩ := fronts.someTaken done
    exact taken (refused i)
  · rw [fronts.afterRefused fun i _ => refused i,DiskLogHandler.runTurn (fronts.turnRefused (refused k))]
    rfl

end MiniOb.Clog
