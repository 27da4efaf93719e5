import MiniOb.BplusTree.Redo

/-! The bytes of a log record: what `BplusTreeLogger::commit` writes after the buffer pool id, and
`LogEntryHandler::from_buffer` called until the buffer is used up. Entries have no length of their
own, so each class has to read back exactly what it wrote. -/
namespace MiniOb.BplusTree
open Prog Bytes List LogEntry

namespace LogEntryHandler

def fromBuffer (buffer : Bytes) : Except Exit (LogEntryHandler × Bytes) := do
  let (type,page,buffer) ← readHeader buffer
  deserialize type page buffer

/-- `from_buffer` while the buffer has bytes left. Every entry takes some, so the length of the
buffer bounds the loop. -/
def readEntries : Nat → Bytes → Except Exit (List LogEntryHandler)
  | 0,buffer => if buffer = [] then .ok [] else .error .abort
  | fuel+1,buffer => if buffer = [] then .ok [] else do
    let (entry,rest) ← fromBuffer buffer
    let entries ← readEntries fuel rest
    .ok (entry :: entries)

def fromRecord (buffer : Bytes) : Except Exit (List LogEntryHandler) := readEntries buffer.length buffer

/-- `BplusTreeLogger::commit`: the payload that goes to the log, if there is one. The log takes
no payload that is longer than `LogEntry::max_payload_size`. -/
def commit (bufferPoolId : Int32) (entries : List LogEntryHandler) : Except RC (Option Bytes) :=
  let payload := ofInt32 bufferPoolId ++ entries.flatMap serialize
  if entries = [] then .ok none
  else if maxPayloadSize < payload.length then .error .invalidArgument
  else .ok (some payload)

/-! ### One entry -/

theorem vectorLength (entry : LogEntryHandler) : entry.vectorBytes.length ≤ entry.serialize.length := by
  cases entry <;> simp only [vectorBytes,serialize,serializeBody,sized,length_append,length_nil] <;> omega

variable {entry : LogEntryHandler} {entries : List LogEntryHandler}

theorem fromBufferAppend (small : entry.vectorBytes.length < 2 ^ 31) (rest : Bytes) :
    fromBuffer (entry.serialize ++ rest) = .ok (entry.forRedo,rest) := by
  simp only [fromBuffer,readHeaderAppend,bind,Except.bind,deserializeAppend small]

/-! ### A record -/

theorem readEntriesAppend (small : ∀ entry ∈ entries, entry.vectorBytes.length < 2 ^ 31)
    (enough : entries.length ≤ fuel) : readEntries fuel (entries.flatMap serialize) = .ok (entries.map forRedo) := by
  induction entries generalizing fuel with
  | nil => cases fuel <;> rfl
  | cons entry rest ih =>
    obtain ⟨fuel,rfl⟩ : ∃ f, fuel = f + 1 := ⟨fuel - 1,by simp only [length_cons] at enough; omega⟩
    obtain ⟨first,later⟩ := forall_mem_cons.mp small
    have some : entry.serialize ++ rest.flatMap serialize ≠ [] := by
      intro none
      have := congrArg length none
      simp only [serialize,length_append,lengthOfInt32,length_nil] at this
      omega
    rw [flatMap_cons,readEntries,if_neg some]
    simp only [fromBufferAppend first,bind,Except.bind]
    rw [ih later (by simp only [length_cons] at enough; omega)]
    rfl

theorem entriesLength (entries : List LogEntryHandler) : entries.length ≤ (entries.flatMap serialize).length := by
  induction entries with
  | nil => exact le_refl _
  | cons entry rest ih =>
    simp only [flatMap_cons,length_append,length_cons,serialize,lengthOfInt32]
    omega

theorem serializeLe (inside : entry ∈ entries) : entry.serialize.length ≤ (entries.flatMap serialize).length := by
  obtain ⟨before,after,rfl⟩ := append_of_mem inside
  simp only [flatMap_append,flatMap_cons,length_append]
  omega

theorem readBack
    (written : commit bufferPoolId entries = .ok (some payload)) :
    ∃ buffer, readInt32 payload = some (bufferPoolId,buffer) ∧ fromRecord buffer = .ok (entries.map forRedo) := by
  unfold commit at written
  dsimp only at written
  split at written
  · cases written
  · split at written
    · cases written
    · rename_i short
      cases written
      refine ⟨entries.flatMap serialize,readInt32Append _ _,readEntriesAppend (fun entry inside => ?_) (entriesLength entries)⟩
      have vector := entry.vectorLength
      have whole := serializeLe inside
      simp only [length_append,maxPayloadSize] at short
      omega

/-- Whatever pages, indexes and bytes the entries have: nothing is written for no entries, the log
refuses what is too long for it, and anything else reads back. -/
theorem committedReadBack (bufferPoolId : Int32) (entries : List LogEntryHandler) :
    (entries = [] ∧ commit bufferPoolId entries = .ok none) ∨
    (maxPayloadSize < (ofInt32 bufferPoolId ++ entries.flatMap serialize).length ∧
      commit bufferPoolId entries = .error .invalidArgument) ∨
    ∃ payload buffer, commit bufferPoolId entries = .ok (some payload) ∧
      readInt32 payload = some (bufferPoolId,buffer) ∧ fromRecord buffer = .ok (entries.map forRedo) := by
  by_cases none : entries = []
  · exact .inl ⟨none,by simp only [commit,if_pos none]⟩
  · by_cases long : maxPayloadSize < (ofInt32 bufferPoolId ++ entries.flatMap serialize).length
    · exact .inr (.inl ⟨long,by simp only [commit,if_neg none,if_pos long]⟩)
    · have written : commit bufferPoolId entries = .ok (some (ofInt32 bufferPoolId ++ entries.flatMap serialize)) := by
        simp only [commit,if_neg none,if_neg long]
      obtain ⟨buffer,id,same⟩ := readBack written
      exact .inr (.inr ⟨_,buffer,written,id,same⟩)

end LogEntryHandler

end MiniOb.BplusTree
