import MiniOb.Clog.LogFile

/-! What a reader makes of the bytes of entries, and of any bytes at all. -/
namespace MiniOb.Clog
open Prog LogFileReader List Bytes

structure LogEntry.Valid (entry : LogEntry) : Prop where
  low : 0 < entry.lsn
  high : entry.lsn < 2 ^ 31
  short : entry.payload.length ≤ maxPayloadSize

section
variable {σ : Type} {consumer : LogEntry → Prog σ RC Unit} {entry : LogEntry} {entries : List LogEntry} {rest : Bytes}

@[simp] theorem bytesOfNil : bytesOf [] = [] := rfl

@[simp] theorem bytesOfCons : bytesOf (entry :: entries) = entry.bytes ++ bytesOf entries := rfl

theorem bytesOfAppend (more : List LogEntry) : bytesOf (entries ++ more) = bytesOf entries ++ bytesOf more :=
  flatMap_append

theorem lengthBytes : entry.bytes.length = headerSize + entry.payload.length := by
  simp only [LogEntry.bytes,length_append,lengthOfInt64,lengthOfInt32,headerSize]
  omega

theorem readHeaderOf (valid : entry.Valid) : readHeader (ofInt64 (Int64.ofInt entry.lsn) ++
      (ofInt32 (Int32.ofInt entry.payload.length) ++ (ofInt32 entry.moduleId ++ rest))) =
      some (⟨entry.lsn,entry.payload.length,entry.moduleId⟩,rest) := by
  have low := valid.low
  have high := valid.high
  have short := valid.short
  simp only [maxPayloadSize,headerSize] at short
  have lsn : (Int64.ofInt entry.lsn).toInt = entry.lsn := Int64.toInt_ofInt_of_le (by omega) (by omega)
  have size : (Int32.ofInt entry.payload.length).toInt = entry.payload.length := Int32.toInt_ofInt_of_le (by omega) (by omega)
  simp [readHeader,readInt64Append,readInt32Append,lsn,size]

theorem readHeaderBytes (valid : entry.Valid) :
    readHeader (entry.bytes ++ rest) = some (⟨entry.lsn,entry.payload.length,entry.moduleId⟩,entry.payload ++ rest) := by
  rw [← readHeaderOf valid,LogEntry.bytes]
  simp only [append_assoc]

theorem readEntriesShort (short : rest.length < headerSize) : readEntries consumer rest = pure () := by
  rw [readEntries,readHeaderNone.mpr short]

theorem readEntriesCons (valid : entry.Valid) :
    readEntries consumer (entry.bytes ++ rest) = consumer entry >>= fun _ => readEntries consumer rest := by
  have short := valid.short
  have fits : ¬ ((entry.payload.length : Int) < 0 ∨ (maxPayloadSize : Int) < entry.payload.length) := by omega
  rw [readEntries,readHeaderBytes valid]
  simp only [if_neg fits,Int.toNat_natCast,readAppend (rfl : entry.payload.length = _),drop_left]

def collect (entry : LogEntry) : Prog (List LogEntry) RC Unit := update fun kept => kept ++ [entry]

theorem collectApply (kept : List LogEntry) : collect entry kept = (.ok (),kept ++ [entry]) := rfl

theorem readEntriesAll (valid : ∀ entry ∈ entries, entry.Valid) (kept : List LogEntry) :
    readEntries collect (bytesOf entries ++ rest) kept = readEntries collect rest (kept ++ entries) := by
  induction entries generalizing kept with
  | nil => simp
  | cons entry entries ih =>
    obtain ⟨first,others⟩ := forall_mem_cons.mp valid
    rw [bytesOfCons,append_assoc,readEntriesCons first,bindOk (collectApply kept),ih others]
    simp

theorem readEntriesSound (ok : readEntries collect rest kept = (.ok (),out)) :
    ∃ entries tail, out = kept ++ entries ∧ rest = bytesOf entries ++ tail ∧ tail.length < headerSize := by
  induction length : rest.length using Nat.strong_induction_on generalizing rest kept with
  | _ n ih =>
    cases found : readHeader rest with
    | none =>
      have short := readHeaderNone.mp found
      rw [readEntriesShort short] at ok
      cases ok
      exact ⟨[],rest,by simp,rfl,short⟩
    | some pair =>
      obtain ⟨header,tail⟩ := pair
      have shorter := readHeaderLength found
      rw [readEntries,found] at ok
      dsimp only at ok
      split at ok
      · cases ok
      · cases read : read header.size.toNat tail with
        | none =>
          rw [read] at ok
          cases ok
        | some pair =>
          rw [read] at ok
          unfold Bytes.read at read
          split at read
          · rename_i enough
            cases read
            dsimp only at ok
            obtain ⟨entries,last,rfl,same,short⟩ := ih _ (by simp only [length_drop,headerSize] at shorter ⊢; omega) ok rfl
            refine ⟨⟨header.lsn,header.moduleId,tail.take header.size.toNat⟩ :: entries,last,by simp,?_,short⟩
            have sizes : ((tail.take header.size.toNat).length : Int) = header.size := by
              rw [length_take_of_le enough]
              omega
            rw [readHeaderSound found,bytesOfCons,append_assoc,LogEntry.bytes,sizes]
            simp only [append_assoc]
            rw [← same,take_append_drop]
          · cases read

end

section
variable {entries : List LogEntry} {start : Int}

def Ascending (entries : List LogEntry) : Prop := entries.Pairwise fun a b => a.lsn < b.lsn

def since (start : Int) (entries : List LogEntry) : List LogEntry := entries.filter fun entry => start ≤ entry.lsn

theorem iterateFile {tail} (valid : ∀ entry ∈ entries, entry.Valid) (ascending : Ascending entries)
    (short : tail.length < headerSize) (kept : List LogEntry) :
    iterate collect start (bytesOf entries ++ tail) kept = (.ok (),kept ++ since start entries) := by
  induction entries with
  | nil =>
    have skipped : skipTo start tail = .ok [] := by rw [skipTo,readHeaderNone.mpr short]
    rw [bytesOfNil,nil_append,LogFileReader.iterate,skipped]
    simp [readEntriesShort (by decide : ([] : Bytes).length < headerSize),since]
  | cons entry entries ih =>
    obtain ⟨first,others⟩ := forall_mem_cons.mp valid
    obtain ⟨smaller,rest⟩ := pairwise_cons.mp ascending
    by_cases reached : start ≤ entry.lsn
    · have stopped : skipTo start (bytesOf (entry :: entries) ++ tail) = .ok (bytesOf (entry :: entries) ++ tail) := by
        rw [bytesOfCons,append_assoc,skipTo,readHeaderBytes first]
        exact if_pos reached
      have all : since start (entry :: entries) = entry :: entries := by
        refine filter_eq_self.mpr fun e inside => decide_eq_true ?_
        rcases mem_cons.mp inside with rfl | later
        · exact reached
        · have less := smaller e later
          omega
      rw [LogFileReader.iterate,stopped,all]
      show readEntries collect _ kept = _
      rw [readEntriesAll valid,readEntriesShort short]
      rfl
    · have fits := first.short
      have next : skipTo start (bytesOf (entry :: entries) ++ tail) = skipTo start (bytesOf entries ++ tail) := by
        rw [bytesOfCons,append_assoc,skipTo,readHeaderBytes first]
        simp only
        rw [if_neg reached,if_neg (by omega),Int.toNat_natCast,drop_left]
      have skipped : since start (entry :: entries) = since start entries := by simp [since,reached]
      rw [skipped,← ih others rest]
      simp only [LogFileReader.iterate,next]

end

end MiniOb.Clog
