import Mathlib.Algebra.Ring.Int.Defs
import MiniOb.Clog.DiskLogHandler
import MiniOb.Lib.Runs

/-! The byte counter of `LogEntryBuffer` and what it makes `append` do (`log_buffer.cpp`, `log_entry.cpp`). -/
namespace MiniOb.Clog

structure OwnedEntry where
  header : LogHeader
  data : Bytes
  deriving DecidableEq, Repr

namespace OwnedEntry

/-- The size is cut to 32 bits before it is compared. -/
def init (lsn : Int) (moduleId : Int32) (data : Bytes) : Except RC OwnedEntry :=
  if (maxPayloadSize : Int) < (Int32.ofNat data.length).toInt then .error .invalidArgument
  else .ok ⟨⟨lsn,(Int32.ofNat data.length).toInt,moduleId⟩,data⟩

def setLsn (lsn : Int) (entry : OwnedEntry) : OwnedEntry := { entry with header := { entry.header with lsn := lsn } }

def totalSize (entry : OwnedEntry) : Int := headerSize + entry.header.size

def left (entry : OwnedEntry) : OwnedEntry := ⟨{ entry.header with lsn := 0, size := 0 },[]⟩

def entry (owned : OwnedEntry) : LogEntry := ⟨owned.header.lsn,owned.header.moduleId,owned.data⟩

end OwnedEntry

structure CountedBuffer where
  currentLsn : Int
  flushedLsn : Int
  entries : List OwnedEntry
  bytes : Int
  maxBytes : Int
  deriving DecidableEq, Repr

namespace CountedBuffer

def init (lsn : Int) (maxBytes : Int32) : CountedBuffer where
  currentLsn := lsn
  flushedLsn := lsn
  entries := []
  bytes := 0
  maxBytes := if 0 < maxBytes then maxBytes.toInt else 4 * 1024 * 1024

def Waits (buffer : CountedBuffer) : Prop := buffer.maxBytes ≤ buffer.bytes
  deriving Decidable

/-- What `append` does once it no longer waits. The size is added after the entry was moved into the queue. -/
def append (moduleId : Int32) (data : Bytes) (buffer : CountedBuffer) : Except RC Int × CountedBuffer :=
  match OwnedEntry.init 0 moduleId data with
  | .error rc => (.error rc,buffer)
  | .ok entry =>
    let lsn := buffer.currentLsn + 1
    let entry := entry.setLsn lsn
    (.ok lsn,{ buffer with
      currentLsn := lsn
      entries := buffer.entries ++ [entry]
      bytes := buffer.bytes + entry.left.totalSize })

/-- The loop of `flush`; `outcomes` is what the writer returns for one entry after the other. An entry that
was not written goes back to the front. -/
def flushEntries : List OwnedEntry → List RC → CountedBuffer → Except Exit (RC × Nat × CountedBuffer)
  | [],_,buffer => .ok (.success,0,{ buffer with entries := [] })
  | entry :: rest,outcomes,buffer =>
    if 0 < entry.header.lsn ∧ 0 < entry.header.size then
      let popped := { buffer with bytes := buffer.bytes - entry.totalSize }
      match outcomes.headD .success with
      | .success => match flushEntries rest outcomes.tail { popped with flushedLsn := entry.header.lsn } with
        | .ok (rc,count,after) => .ok (rc,count + 1,after)
        | .error exit => .error exit
      | rc => .ok (rc,0,{ popped with entries := entry :: rest })
    else .error .abort

def flush (outcomes : List RC) (buffer : CountedBuffer) : Except Exit (RC × Nat × CountedBuffer) :=
  flushEntries buffer.entries outcomes buffer

def total (buffer : CountedBuffer) : Int := (buffer.entries.map OwnedEntry.totalSize).sum

structure Accounted (buffer : CountedBuffer) : Prop where
  counter : buffer.bytes = buffer.total
  empty : buffer.entries = [] → ¬ buffer.Waits
  full : buffer.maxBytes ≤ buffer.total → buffer.Waits

end CountedBuffer

inductive BufferCall where
  | append (moduleId : Int32) (data : Bytes)
  | flush (outcomes : List RC)

namespace BufferCall

def step (buffer : CountedBuffer) : BufferCall → Option CountedBuffer
  | append moduleId data => some (if buffer.Waits then buffer else (buffer.append moduleId data).2)
  | flush outcomes => match buffer.flush outcomes with
    | .ok (_,_,after) => some after
    | .error _ => none

def Light (buffer : CountedBuffer) : BufferCall → Prop
  | append moduleId data => ¬ buffer.Waits → ∀ lsn, (buffer.append moduleId data).1 = .ok lsn → Int32.ofNat data.length = 0
  | flush _ => True

end BufferCall

namespace CountedBuffer
variable {buffer : CountedBuffer}

theorem Accounted.ofCounter (positive : 0 < buffer.maxBytes) (counter : buffer.bytes = buffer.total) : buffer.Accounted := by
  refine ⟨counter,fun empty waits => ?_,fun full => ?_⟩
  · have nothing : buffer.total = 0 := by rw [total,empty]; rfl
    unfold Waits at waits
    omega
  · unfold Waits
    omega

theorem appended (moduleId : Int32) (data : Bytes) (buffer : CountedBuffer) :
    (∃ rc, buffer.append moduleId data = (.error rc,buffer)) ∨
      ∃ lsn entry, entry.header.size = (Int32.ofNat data.length).toInt ∧ buffer.append moduleId data =
        (.ok lsn,{ buffer with currentLsn := lsn, entries := buffer.entries ++ [entry], bytes := buffer.bytes + headerSize }) := by
  unfold append OwnedEntry.init
  split
  · rename_i rc failed
    exact .inl ⟨rc,rfl⟩
  · rename_i entry made
    split at made
    · cases made
    · cases made
      exact .inr ⟨_,_,rfl,rfl⟩

theorem totalAppend (entries : List OwnedEntry) (entry : OwnedEntry) :
    ((entries ++ [entry]).map OwnedEntry.totalSize).sum = (entries.map OwnedEntry.totalSize).sum + entry.totalSize := by
  simp

theorem flushEmpty (empty : ∀ entry ∈ buffer.entries, entry.header.size = 0) (outcomes : List RC) :
    buffer.flush outcomes = .error .abort ∨ buffer.flush outcomes = .ok (.success,0,buffer) := by
  unfold flush
  cases queue : buffer.entries with
  | nil =>
    right
    rw [flushEntries,← queue]
  | cons entry rest =>
    left
    have size := empty entry (by rw [queue]; exact List.mem_cons_self)
    rw [flushEntries,if_neg (by omega)]

end CountedBuffer

namespace BufferCall
open CountedBuffer

structure Even (buffer : CountedBuffer) : Prop where
  positive : 0 < buffer.maxBytes
  counter : buffer.bytes = buffer.total
  empty : ∀ entry ∈ buffer.entries, entry.header.size = 0

theorem initEven (lsn : Int) (maxBytes : Int32) : Even (init lsn maxBytes) := by
  refine ⟨?_,rfl,fun entry inside => absurd inside List.not_mem_nil⟩
  unfold init
  dsimp only
  split
  · rename_i given
    exact Int32.lt_iff_toInt_lt.mp given
  · decide

variable {buffer after : CountedBuffer} {call : BufferCall}

theorem appendedEven (even : Even buffer) (empty : entry.header.size = 0) :
    Even { buffer with currentLsn := lsn, entries := buffer.entries ++ [entry], bytes := buffer.bytes + headerSize } where
  positive := even.positive
  counter := by
    rw [total,totalAppend,OwnedEntry.totalSize,empty]
    have counter := even.counter
    unfold total at counter
    dsimp only
    omega
  empty other inside := by
    rcases List.mem_append.mp inside with old | new
    · exact even.empty other old
    · rw [List.mem_singleton.mp new,empty]

theorem lightKeeps (even : Even buffer) (ran : call.step buffer = some after) (light : call.Light buffer) : Even after := by
  cases call with
  | flush outcomes =>
    rw [step] at ran
    rcases flushEmpty even.empty outcomes with died | idle
    · rw [died] at ran
      cases ran
    · rw [idle] at ran
      cases ran
      exact even
  | append moduleId data =>
    cases ran
    split
    · exact even
    · rename_i free
      rcases appended moduleId data buffer with ⟨rc,refused⟩ | ⟨lsn,entry,size,accepted⟩
      · rw [refused]
        exact even
      · have none := light free lsn (by rw [accepted])
        rw [accepted]
        refine appendedEven even ?_
        rw [size,none]
        rfl

theorem heavyBreaks (even : Even buffer) (ran : call.step buffer = some after) (heavy : ¬ call.Light buffer) : ¬ after.Accounted := by
  intro accounted
  apply heavy
  cases call with
  | flush outcomes => trivial
  | append moduleId data =>
    intro free lsn ok
    rw [step,if_neg free] at ran
    cases ran
    rcases appended moduleId data buffer with ⟨rc,refused⟩ | ⟨lsn',entry,size,accepted⟩
    · rw [refused] at ok
      cases ok
    · rw [accepted] at accounted
      have same := accounted.counter
      rw [total,totalAppend] at same
      have counter := even.counter
      unfold total at counter
      unfold OwnedEntry.totalSize at same counter
      dsimp only at same
      have zero : (Int32.ofNat data.length).toInt = 0 := by omega
      exact Int32.toInt_inj.mp zero

theorem accountedIff (lsn : Int) (maxBytes : Int32) (run : List BufferCall) :
    (∀ state ∈ Runs.reached step run (init lsn maxBytes), state.Accounted) ↔ Runs.Along step (fun buffer call => call.Light buffer) run
      (init lsn maxBytes) :=
  Runs.holdsIff (fun _ even => .ofCounter even.positive even.counter) (fun _ _ _ even ran light => lightKeeps even ran light)
    (fun _ _ _ even ran heavy => heavyBreaks even ran heavy) run (initEven lsn maxBytes)

/-- An entry of 100 bytes in a queue that may hold 100: the counter is 16 and the next caller does not wait.
An entry of one byte that could not be written: the counter is -1 and the queue holds 17. -/
theorem counterWrong : (∃ state ∈ Runs.reached step [.append 1 (List.replicate 100 7)] (init 0 100),
      state.bytes = 16 ∧ state.total = 116 ∧ state.maxBytes = 100 ∧ ¬ state.Waits) ∧
    ∃ state ∈ Runs.reached step [.append 1 [7],.flush [.ioerrWrite]] (init 0 100), state.bytes = -1 ∧ state.total = 17 := by
  decide +kernel

end BufferCall

/-! ### The buffer of the log handler -/

namespace CountedBuffer
variable {buffer : CountedBuffer}

def queue (buffer : CountedBuffer) : LogEntryBuffer := ⟨buffer.currentLsn,buffer.flushedLsn,buffer.entries.map OwnedEntry.entry⟩

theorem appendQueue (moduleId : Int32) (fits : data.length < 2 ^ 31) (buffer : CountedBuffer) :
    ((buffer.append moduleId data).1,(buffer.append moduleId data).2.queue) = buffer.queue.append moduleId data := by
  have size : (Int32.ofNat data.length).toInt = data.length := Int32.toInt_ofNat_of_lt fits
  unfold append OwnedEntry.init LogEntryBuffer.append
  rw [size]
  by_cases large : maxPayloadSize < data.length
  · rw [if_pos (by exact_mod_cast large),if_pos large]
  · rw [if_neg (by exact_mod_cast large),if_neg large]
    simp [queue,OwnedEntry.entry,OwnedEntry.setLsn]

/-- The loop takes the entries from its argument. -/
theorem flushEntriesSame (current flushed bytes maxBytes : Int) (one other list : List OwnedEntry) (outcomes : List RC) :
    flushEntries list outcomes ⟨current,flushed,one,bytes,maxBytes⟩ =
      flushEntries list outcomes ⟨current,flushed,other,bytes,maxBytes⟩ := by
  induction list generalizing outcomes flushed bytes with
  | nil => rfl
  | cons entry rest ih => simp only [flushEntries,ih entry.header.lsn (bytes - entry.totalSize)]

/-- One turn of the loop is one round of `flushEntry`: the writer's answer to the entry in front decides how it goes on. -/
theorem flushQueue {writer writer' : LogFileWriter} {dir dir' : Directory} {rc : RC} {next : LogEntryBuffer}
    (sizes : ∀ entry ∈ buffer.entries, entry.header.size = entry.data.length)
    (ran : buffer.queue.flushEntry writer dir = .ok (rc,next,writer',dir')) (outcomes : List RC) :
    ∃ after, after.queue = next ∧ (buffer.flush (rc :: outcomes) = .ok (rc,0,after) ∨
      rc = .success ∧ buffer.flush (rc :: outcomes) = (after.flush outcomes).map fun (rc,count,last) => (rc,count + 1,last)) := by
  unfold LogEntryBuffer.flushEntry at ran
  unfold flush
  cases waiting : buffer.entries with
  | nil =>
    simp only [queue,waiting,List.map_nil] at ran
    cases ran
    exact ⟨buffer,by simp [queue,waiting],.inl (by simp [flushEntries,← waiting])⟩
  | cons entry rest =>
    have size := sizes entry (by simp [waiting])
    simp only [queue,waiting,List.map_cons,OwnedEntry.entry] at ran
    split at ran
    · rename_i asserted
      have holds : 0 < entry.header.lsn ∧ 0 < entry.header.size :=
        ⟨asserted.1,by rw [size,Int.natCast_pos,List.length_pos_iff]; exact asserted.2⟩
      rw [flushEntries,if_pos holds]
      dsimp only [List.headD,List.tail]
      split at ran
      · cases ran
        refine ⟨{ buffer with bytes := buffer.bytes - entry.totalSize, flushedLsn := entry.header.lsn, entries := rest },rfl,
          .inr ⟨rfl,?_⟩⟩
        dsimp only
        rw [flushEntriesSame _ _ _ _ buffer.entries rest]
        generalize flushEntries rest outcomes _ = result
        cases result <;> rfl
      · rename_i other _
        cases ran
        refine ⟨{ buffer with bytes := buffer.bytes - entry.totalSize, entries := entry :: rest },rfl,.inl ?_⟩
        split
        · exact (other rfl).elim
        · rfl
    · cases ran

end CountedBuffer
end MiniOb.Clog
