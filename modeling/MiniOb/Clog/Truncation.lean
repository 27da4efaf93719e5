import Mathlib.Data.List.Induction
import MiniOb.Clog.Writing

/-! A log whose last file was cut by a crash: what a restart makes of it, and of what is
appended behind the cut. -/
namespace MiniOb.Clog
open Prog LogFileReader Bytes Segment LogCall

/-! The greatest number a replay has seen. -/

def maxLsn (entries : List LogEntry) : Int := entries.foldl (fun seen entry => if seen < entry.lsn then entry.lsn else seen) 0

theorem maxLsnConcat (entries : List LogEntry) (entry : LogEntry) :
    maxLsn (entries ++ [entry]) = if maxLsn entries < entry.lsn then entry.lsn else maxLsn entries := by
  rw [maxLsn,List.foldl_append]
  rfl

section
variable {σ τ : Type} {sees : σ → τ → Prop} {c : LogEntry → Prog σ RC Unit} {d : LogEntry → Prog τ RC Unit}

theorem readEntriesMirrors (same : ∀ entry, Mirrors sees (c entry) (d entry)) (rest : Bytes) :
    Mirrors sees (readEntries c rest) (readEntries d rest) := by
  induction length : rest.length using Nat.strong_induction_on generalizing rest with
  | _ n ih =>
    rw [readEntries,readEntries]
    cases found : readHeader rest with
    | none => exact mirrorsPure ()
    | some pair =>
      obtain ⟨header,tail⟩ := pair
      have shorter := readHeaderLength found
      dsimp only
      split
      · exact mirrorsExit _
      · cases read header.size.toNat tail with
        | none => exact mirrorsExit _
        | some pair =>
          refine mirrorsBind (same _) fun _ => ih _ ?_ _ rfl
          simp only [List.length_drop,headerSize] at shorter ⊢
          omega

theorem iterateMirrors (same : ∀ entry, Mirrors sees (c entry) (d entry)) (start : Int) (handler : DiskLogHandler) :
    Mirrors sees (handler.iterate c start) (handler.iterate d start) := by
  have file : ∀ content, Mirrors sees (iterate c start content) (iterate d start content) := by
    intro content
    unfold iterate
    cases skipTo start content with
    | ok rest => exact readEntriesMirrors same rest
    | error rc => exact mirrorsExit rc
  unfold DiskLogHandler.iterate
  generalize handler.manager.listFiles start = names
  induction names with
  | nil => exact mirrorsPure ()
  | cons name rest ih => exact mirrorsBind (file _) fun _ => ih

end

theorem replayCollect (handler : DiskLogHandler) (start : Int) {result out}
    (run : handler.iterate collect start [] = (result,out)) :
    handler.replay collect start [] = (result.map fun _ => { handler with buffer := .init (maxLsn out) },out) := by
  have step : ∀ entry, Mirrors (fun (s : List LogEntry × Int) kept => s = (kept,maxLsn kept))
      (DiskLogHandler.replayCallback collect entry) (collect entry) := by
    rintro entry kept s rfl
    refine ⟨rfl,?_⟩
    show _ = (kept ++ [entry],maxLsn (kept ++ [entry]))
    rw [maxLsnConcat]
    rfl
  obtain ⟨value,seen⟩ := iterateMirrors step start handler [] ([],0) rfl
  rw [run] at value seen
  rw [DiskLogHandler.replay,← Prod.eta (handler.iterate _ start ([],0)),value,seen]
  cases result <;> rfl

/-! What is left of a file. -/

def complete (k : Nat) : List LogEntry → List LogEntry
  | [] => []
  | entry :: rest => if entry.bytes.length ≤ k then entry :: complete (k - entry.bytes.length) rest else []

def torn (k : Nat) : List LogEntry → Bytes
  | [] => []
  | entry :: rest => if entry.bytes.length ≤ k then torn (k - entry.bytes.length) rest else entry.bytes.take k

theorem takeBytes (k : Nat) (entries : List LogEntry) :
    (bytesOf entries).take k = bytesOf (complete k entries) ++ torn k entries := by
  induction entries generalizing k with
  | nil => simp [complete,torn]
  | cons entry rest ih =>
    simp only [complete,torn,bytesOfCons]
    split
    · rename_i fits
      rw [List.take_append,List.take_of_length_le fits,ih,bytesOfCons,List.append_assoc]
    · rw [List.take_append_of_le_length (by omega),bytesOfNil,List.nil_append]

theorem completeSplit (k : Nat) (entries : List LogEntry) : ∃ rest, entries = complete k entries ++ rest ∧
    (torn k entries = [] ∨ ∃ entry more n, rest = entry :: more ∧ torn k entries = entry.bytes.take n ∧
      n < entry.bytes.length) := by
  induction entries generalizing k with
  | nil => exact ⟨[],rfl,.inl rfl⟩
  | cons entry rest ih =>
    simp only [complete,torn]
    split
    · obtain ⟨later,same,cut⟩ := ih (k - entry.bytes.length)
      exact ⟨later,by rw [List.cons_append,← same],cut⟩
    · exact ⟨entry :: rest,rfl,.inr ⟨entry,rest,k,rfl,rfl,by omega⟩⟩

theorem skipToHere {start rest tail header} (found : readHeader rest = some (header,tail))
    (reached : start ≤ header.lsn) : skipTo start rest = .ok rest := by
  rw [skipTo,found]
  exact if_pos reached

theorem iterateTorn {entries} {entry : LogEntry} (valid : ∀ entry ∈ entries, entry.Valid)
    (cut : entry.Valid) (long : headerSize ≤ n) (part : n < entry.bytes.length) (kept : List LogEntry) :
    iterate collect 0 (bytesOf entries ++ entry.bytes.take n) kept = (.error .ioerrRead,kept ++ entries) := by
  have payload : entry.bytes.take n = ofInt64 (Int64.ofInt entry.lsn) ++
      (ofInt32 (Int32.ofInt entry.payload.length) ++
        (ofInt32 entry.moduleId ++ entry.payload.take (n - headerSize))) := by
    unfold headerSize at long ⊢
    simp only [LogEntry.bytes,List.take_append,lengthOfInt64,lengthOfInt32]
    rw [List.take_of_length_le (by rw [lengthOfInt64]; omega),List.take_of_length_le (by rw [lengthOfInt32]; omega),
      List.take_of_length_le (by rw [lengthOfInt32]; omega)]
    congr 4
  have header : readHeader (entry.bytes.take n) =
      some (⟨entry.lsn,entry.payload.length,entry.moduleId⟩,entry.payload.take (n - headerSize)) := by
    rw [payload]
    exact readHeaderOf cut
  have short : read entry.payload.length (entry.payload.take (n - headerSize)) = none := by
    rw [lengthBytes] at part
    rw [Bytes.read,if_neg]
    rw [List.length_take]
    omega
  have stops : readEntries collect (entry.bytes.take n) = exit .ioerrRead := by
    have fits := cut.short
    rw [readEntries,header]
    dsimp only
    rw [if_neg (by omega),Int.toNat_natCast,short]
  have skipped : skipTo 0 (bytesOf entries ++ entry.bytes.take n) = .ok (bytesOf entries ++ entry.bytes.take n) := by
    cases entries with
    | nil => exact skipToHere header cut.low.le
    | cons first others =>
      have here := (List.forall_mem_cons.mp valid).1
      rw [bytesOfCons,List.append_assoc]
      exact skipToHere (readHeaderBytes here) here.low.le
  rw [iterate,skipped]
  show readEntries collect _ kept = _
  rw [readEntriesAll valid,stops]
  rfl

theorem skipToSound {start rest out} (ok : skipTo start rest = .ok out) :
    out = rest ∨ out = [] ∨ out.length + headerSize ≤ rest.length := by
  induction length : rest.length using Nat.strong_induction_on generalizing rest with
  | _ n ih =>
    rw [skipTo] at ok
    cases found : readHeader rest with
    | none =>
      rw [found] at ok
      cases ok
      exact .inr (.inl rfl)
    | some pair =>
      obtain ⟨header,tail⟩ := pair
      have shorter := readHeaderLength found
      rw [found] at ok
      dsimp only at ok
      split at ok
      · cases ok
        exact .inl rfl
      · split at ok
        · cases ok
        · have less : (tail.drop header.size.toNat).length + headerSize ≤ rest.length := by
            rw [List.length_drop]
            omega
          rcases ih _ (by unfold headerSize at less; omega) ok rfl with rfl | rfl | le
          · exact .inr (.inr (length ▸ less))
          · exact .inr (.inl rfl)
          · exact .inr (.inr (by omega))

theorem iterateSound {start content kept out}
    (ok : iterate collect start content kept = (.ok (),out)) :
    ∃ entries, out = kept ++ entries ∧
      (bytesOf entries <+: content ∨ entries = [] ∨ (bytesOf entries).length + headerSize ≤ content.length) := by
  unfold iterate at ok
  cases skipped : skipTo start content with
  | error rc =>
    rw [skipped] at ok
    cases ok
  | ok rest =>
    rw [skipped] at ok
    obtain ⟨entries,tail,rfl,same,short⟩ := readEntriesSound ok
    refine ⟨entries,rfl,?_⟩
    rcases skipToSound skipped with rfl | rfl | le
    · exact .inl ⟨tail,same.symm⟩
    · refine .inr (.inl ?_)
      cases entries with
      | nil => rfl
      | cons entry others =>
        have lengths := congrArg List.length same
        rw [List.length_append,bytesOfCons,List.length_append,lengthBytes,List.length_nil] at lengths
        omega
    · have lengths := congrArg List.length same
      rw [List.length_append] at lengths
      exact .inr (.inr (by omega))

/-! Whole logs. -/

def Numbered (entries : List LogEntry) : Prop := ∀ (i : Nat) entry, entries[i]? = some entry → entry.lsn = i + 1

section
variable {entries : List LogEntry}

theorem Numbered.ofPrefix {part} (numbered : Numbered entries) (begins : part <+: entries) : Numbered part := by
  intro i entry found
  obtain ⟨rest,rfl⟩ := begins
  exact numbered i entry (List.getElem?_append_left (List.getElem?_eq_some_iff.mp found).1 ▸ found)

theorem Numbered.mem (numbered : Numbered entries) {entry} (inside : entry ∈ entries) :
    0 < entry.lsn ∧ entry.lsn ≤ entries.length := by
  obtain ⟨i,bound,rfl⟩ := List.mem_iff_getElem.mp inside
  have lsn := numbered i _ (List.getElem?_eq_getElem bound)
  omega

theorem Numbered.ascending (numbered : Numbered entries) : Ascending entries := by
  refine List.pairwise_iff_getElem.mpr fun i j boundI boundJ less => ?_
  have lsnI := numbered i _ (List.getElem?_eq_getElem boundI)
  have lsnJ := numbered j _ (List.getElem?_eq_getElem boundJ)
  omega

theorem Numbered.max (numbered : Numbered entries) : maxLsn entries = entries.length := by
  induction entries using List.reverseRecOn with
  | nil => rfl
  | append_singleton before last ih =>
    have lsn := numbered before.length last (by simp)
    have le := (ih (numbered.ofPrefix (List.prefix_append _ _))).le
    rw [maxLsnConcat,if_pos (by omega),lsn,List.length_append]
    simp

end

structure ValidLog (max : Int) (segs : List Segment) : Prop where
  files : Files max segs
  bases : ∀ seg ∈ segs, seg.base = []
  numbered : Numbered (written segs)
  begun : ∀ before (seg : Segment) after, segs = before ++ seg :: after → seg.lsn ≤ (written before).length + 1
  short : ∀ entry ∈ written segs, entry.payload.length ≤ maxPayloadSize
  bounded : ∀ entry ∈ written segs, entry.lsn < 2 ^ 31 - max

def Segment.cut (k : Nat) (seg : Segment) : Segment := { seg with base := (bytesOf seg.entries).take k, entries := [] }

def Replays (max : Int) (listing : Directory) (entries : List LogEntry) (handler : DiskLogHandler) : Prop :=
  (DiskLogHandler.started max 0 listing).replay collect 0 [] = (.ok handler,entries)

/-- Whatever is appended next, another restart delivers the entries and what was flushed since. -/
def Continues (max : Int) (entries : List LogEntry) (handler : DiskLogHandler) : Prop :=
  ∀ calls, (∀ entry ∈ appended calls handler, entry.lsn < 2 ^ 31 - max) →
    ∀ listing : Directory, listing.Perm (run calls handler).dir → ∃ again,
      Replays max listing (entries ++ (appended calls handler).filter
        fun entry => entry.lsn ≤ (run calls handler).buffer.flushedLsn) again

section
variable {max : Int} {before : List Segment} {last : Segment} {k : Nat} {listing : Directory}

theorem ValidLog.valid {segs} (log : ValidLog max segs) (positive : 0 < max)
    (inside : entry ∈ written segs) : entry.Valid where
  low := (log.numbered.mem inside).1
  high := by
    have bounded := log.bounded entry inside
    omega
  short := log.short entry inside

theorem writtenConcat (before : List Segment) (last : Segment) : written (before ++ [last]) = written before ++ last.entries := by
  simp [written]

theorem filesReplace {last other} (files : Files max (before ++ [last])) (same : other.lsn = last.lsn)
    (range : ∀ entry ∈ other.entries, last.lsn ≤ entry.lsn ∧ entry.lsn < last.lsn + max) : Files max (before ++ [other]) := by
  have apart := List.pairwise_append.mp files.apart
  have each : ∀ {P : Segment → Prop}, (∀ seg ∈ before ++ [last], P seg) → P other → ∀ seg ∈ before ++ [other], P seg := by
    intro P all here seg inside
    rcases List.mem_append.mp inside with old | new
    · exact all seg (List.mem_append_left _ old)
    · exact List.mem_singleton.mp new ▸ here
  constructor
  case apart =>
    refine List.pairwise_append.mpr ⟨apart.1,List.pairwise_singleton _ _,fun a member b new => ?_⟩
    rw [List.mem_singleton.mp new,same]
    exact apart.2.2 a member last (by simp)
  case low => exact each files.low (by rw [same]; exact files.low last (by simp))
  case high => exact each files.high (by rw [same]; exact files.high last (by simp))
  case within =>
    refine each files.within ?_
    rw [same]
    exact range

theorem iterateLast {seg} (files : Files max (before ++ [seg])) (positive : 0 < max)
    (bases : ∀ seg ∈ before, seg.base = []) (valid : ∀ entry ∈ written before, entry.Valid) (ascending : Ascending (written before))
    (listed : listing.Perm ((before ++ [seg]).map file)) (lsn : Int) :
    (DiskLogHandler.started max lsn listing).iterate collect 0 [] =
      iterate collect 0 (seg.base ++ bytesOf seg.entries) (written before) := by
  have all : (before ++ [seg]).filter (fun seg => (0 : Int) ≤ seg.lsn + max - 1) = before ++ [seg] := by
    refine List.filter_eq_self.mpr fun seg inside => decide_eq_true ?_
    have low := files.low seg inside
    omega
  rw [files.iterateFold positive listed,all,List.foldr_append]
  have loop : ∀ (part : List Segment) (kept : List LogEntry), (∀ seg ∈ part, seg.base = []) →
      (∀ entry ∈ written part, entry.Valid) → Ascending (written part) → ∀ rest : Prog (List LogEntry) RC Unit,
      part.foldr (fun seg rest => iterate collect 0 (seg.base ++ bytesOf seg.entries) >>= fun _ => rest) rest kept =
        rest (kept ++ written part) := by
    intro part
    induction part with
    | nil => simp [written]
    | cons first others ih =>
      intro kept bases valid ascending rest
      have whole : written (first :: others) = first.entries ++ written others := rfl
      obtain ⟨here,there,-⟩ := List.pairwise_append.mp ascending
      have validHere : ∀ entry ∈ first.entries, entry.Valid := fun entry inside => valid entry (List.mem_append_left _ inside)
      have run : iterate collect 0 (bytesOf first.entries ++ []) kept = (.ok (),kept ++ since 0 first.entries) :=
        iterateFile validHere here (by decide) kept
      have everything : since 0 first.entries = first.entries :=
        List.filter_eq_self.mpr fun entry inside => decide_eq_true (validHere entry inside).low.le
      rw [List.append_nil,everything] at run
      rw [List.foldr_cons,(List.forall_mem_cons.mp bases).1,List.nil_append,bindOk run,
        ih _ (List.forall_mem_cons.mp bases).2 (fun entry inside => valid entry (List.mem_append_right _ inside)) there,whole,
        List.append_assoc]
  rw [loop before [] bases valid ascending,List.nil_append,List.foldr_cons,List.foldr_nil,bindApply]
  rcases iterate collect 0 (seg.base ++ bytesOf seg.entries) (written before) with ⟨result,out⟩
  cases result <;> rfl

theorem notRepeated (front : Bytes) {part} (some : 0 < part.length) (short : part.length ≤ front.length) :
    ∃ byte, ¬ front ++ [byte] <+: part ++ (front ++ [byte]) := by
  have bound : front.length - part.length < front.length := by omega
  refine ⟨front[front.length - part.length] + 1,fun repeated => ?_⟩
  obtain ⟨rest,same⟩ := repeated
  have here := congrArg (fun bytes => bytes[front.length]?) same
  rw [List.append_assoc,List.getElem?_append_right (le_refl _),List.getElem?_append_right short,
    List.getElem?_append_left bound,List.getElem?_eq_getElem bound,Nat.sub_self] at here
  have equal : front[front.length - part.length] + 1 = front[front.length - part.length] := Option.some.inj here
  simp at equal

theorem tornMisread {entries kept} {entry : LogEntry} (short : part.length < headerSize)
    (differs : ¬ entry.bytes <+: part ++ entry.bytes) :
    iterate collect 0 (bytesOf entries ++ (part ++ entry.bytes)) kept ≠ (.ok (),kept ++ (entries ++ [entry])) := by
  intro ok
  obtain ⟨found,same,bytes⟩ := iterateSound ok
  obtain rfl := List.append_cancel_left same
  rw [bytesOfAppend,bytesOfCons,bytesOfNil,List.append_nil] at bytes
  rcases bytes with begins | none | long
  · exact differs ((List.prefix_append_right_inj _).mp begins)
  · exact List.append_ne_nil_of_right_ne_nil _ (List.cons_ne_nil _ _) none
  · simp only [List.length_append] at long
    omega

def delivered (before : List Segment) (last : Segment) (k : Nat) : List LogEntry := written before ++ complete k last.entries

theorem deliveredPrefix : delivered before last k <+: written (before ++ [last]) := by
  obtain ⟨rest,same,-⟩ := completeSplit k last.entries
  refine ⟨rest,?_⟩
  rw [writtenConcat,delivered,List.append_assoc,← same]

theorem cutLast {entry} (inside : entry ∈ complete k last.entries) : entry ∈ last.entries := by
  obtain ⟨rest,same,-⟩ := completeSplit k last.entries
  rw [same]
  exact List.mem_append_left _ inside

section
variable (log : ValidLog max (before ++ [last])) (positive : 0 < max)
  (listed : listing.Perm ((before ++ [last.cut k]).map file))
include log positive listed

theorem iterateCut (lsn : Int) : (DiskLogHandler.started max lsn listing).iterate collect 0 [] =
    iterate collect 0 (bytesOf (complete k last.entries) ++ torn k last.entries) (written before) := by
  have begins : written before <+: written (before ++ [last]) := writtenConcat before last ▸ List.prefix_append _ _
  have files : Files max (before ++ [last.cut k]) := filesReplace log.files rfl (by simp [cut])
  rw [iterateLast files positive (fun seg inside => log.bases seg (List.mem_append_left _ inside))
    (fun entry inside => log.valid positive (begins.subset inside)) (log.numbered.ofPrefix begins).ascending listed,← takeBytes]
  simp [cut]

theorem shortReplays (short : (torn k last.entries).length < headerSize) :
    Replays max listing (delivered before last k) (.started max (delivered before last k).length listing) := by
  have numbered := log.numbered.ofPrefix (deliveredPrefix (k := k))
  have valid : ∀ entry ∈ complete k last.entries, entry.Valid := fun entry inside =>
    log.valid positive (deliveredPrefix.subset (List.mem_append_right _ inside))
  have all : since 0 (complete k last.entries) = complete k last.entries :=
    List.filter_eq_self.mpr fun entry inside => decide_eq_true (valid entry inside).low.le
  have run := iterateCut log positive listed 0
  rw [iterateFile valid (List.pairwise_append.mp numbered.ascending).2.1 short,all] at run
  rw [Replays,replayCollect _ _ run]
  show (Except.ok (DiskLogHandler.started max (maxLsn (delivered before last k)) listing),delivered before last k) = _
  rw [numbered.max]

theorem longFails (long : ¬ (torn k last.entries).length < headerSize) {entries} {handler : DiskLogHandler} :
    ¬ Replays max listing entries handler := by
  intro ok
  obtain ⟨rest,same,cut⟩ := completeSplit k last.entries
  have valid : ∀ entry ∈ last.entries, entry.Valid := fun entry inside =>
    log.valid positive (by rw [writtenConcat]; exact List.mem_append_right _ inside)
  rcases cut with none | ⟨entry,more,n,rfl,part,less⟩
  · exact long (by rw [none]; decide)
  · have run := iterateCut log positive listed 0
    have length : (torn k last.entries).length = n := by
      rw [part,List.length_take]
      omega
    rw [part,iterateTorn (fun e inside => valid e (cutLast inside)) (valid entry (by rw [same]; simp))
      (by omega) less] at run
    rw [Replays,replayCollect _ _ run] at ok
    cases ok

theorem cleanContinues (small : max < 2 ^ 31) (none : torn k last.entries = []) :
    Continues max (delivered before last k) (.started max (delivered before last k).length listing) := by
  have numbered := log.numbered.ofPrefix (deliveredPrefix (k := k))
  have whole : delivered before last k = written (before ++ [{ last with entries := complete k last.entries }]) :=
    by rw [writtenConcat,delivered]
  have inside : ∀ entry ∈ delivered before last k, entry ∈ written (before ++ [last]) := fun _ member =>
    deliveredPrefix.subset member
  have well : LogDirectory max (delivered before last k).length listing (delivered before last k) := by
    refine ⟨before ++ [{ last with entries := complete k last.entries }],
      filesReplace log.files rfl fun entry member => log.files.within last (by simp) entry (cutLast member),
        fun seg member => ?_,?_,whole,numbered.ascending,
      fun entry member => ⟨log.valid positive (inside entry member),(numbered.mem member).2⟩⟩
    · rcases List.mem_append.mp member with old | new
      · refine ⟨log.bases seg (List.mem_append_left _ old),?_⟩
        obtain ⟨first,others,rfl⟩ := List.append_of_mem old
        have begun := log.begun first seg (others ++ [last]) (by simp)
        have le : (written first).length ≤ (delivered (first ++ seg :: others) last k).length := by
          simp only [delivered,written,List.flatMap_append,List.length_append]
          omega
        omega
      · rw [List.mem_singleton.mp new]
        refine ⟨log.bases last (by simp),?_⟩
        have begun := log.begun before last [] rfl
        have le : (written before).length ≤ (delivered before last k).length := by
          simp only [delivered,List.length_append]
          omega
        dsimp only
        omega
    · have file : (last.cut k).file = file { last with entries := complete k last.entries } := by
        rw [file,file,cut,takeBytes,none,log.bases last (by simp)]
        simp
      rw [List.map_append,List.map_cons,List.map_nil,← file]
      simpa using listed
  have bounded : ((delivered before last k).length : Int) + max < 2 ^ 31 := by
    rcases List.eq_nil_or_concat (delivered before last k) with empty | ⟨front,entry,same⟩
    · rw [empty]
      simpa using small
    · rw [List.concat_eq_append] at same
      have lsn := numbered front.length entry (by rw [same]; simp)
      have less := log.bounded entry (inside entry (by rw [same]; simp))
      rw [same,List.length_append]
      simp
      omega
  intro calls small again relisted
  obtain ⟨segs,writing,bases,grown,-,exactly⟩ := well.run positive (by omega) bounded calls small
  have read := writing.delivers positive bases relisted 0 0
  have all : since 0 (written segs) = written segs :=
    List.filter_eq_self.mpr fun entry member => decide_eq_true (writing.valid entry (List.mem_append_left _ member)).low.le
  rw [all,← exactly,List.filter_append,
    List.filter_eq_self.mpr fun entry member => decide_eq_true (writing.flushed entry (grown.subset member))] at read
  exact ⟨_,replayCollect _ _ read⟩

def oneEntry (byte : UInt8) : List LogCall := [.append 0 [byte],.thread,.thread]

theorem runOneEntry {lsn} (notNegative : 0 ≤ lsn) (fits : lsn + 1 < last.lsn + max) (byte : UInt8) :
    appended (oneEntry byte) (.started max lsn listing) = [⟨lsn + 1,0,[byte]⟩] ∧
    (run (oneEntry byte) (.started max lsn listing)).buffer.flushedLsn = lsn + 1 ∧
    (run (oneEntry byte) (.started max lsn listing)).dir =
      listing.append (fileName last.lsn) (LogEntry.bytes ⟨lsn + 1,0,[byte]⟩) := by
  have files : Files max (before ++ [last.cut k]) := filesReplace log.files rfl (by simp [cut])
  have manager : (DiskLogHandler.started max lsn listing).manager = ⟨max,(before ++ [last.cut k]).map key⟩ := by
    rw [← files.initFiles positive listed]
    rfl
  have high := log.files.high last (by simp)
  have there : listing.create (fileName last.lsn) = listing := by
    refine if_pos (List.mem_map.mpr ⟨(last.cut k).file,listed.mem_iff.mpr (by simp),rfl⟩)
  have opens : ((DiskLogHandler.started max lsn listing).append 0 [byte]).threadStep =
      .ok { (DiskLogHandler.started max lsn listing).append 0 [byte] with
        writer := ⟨some (fileName last.lsn),0,last.lsn + max - 1⟩ } := by
    have name : (last.cut k).key = (last.lsn,fileName last.lsn) := rfl
    have full : toInt32 (last.lsn + max - 1) = last.lsn + max - 1 := toInt32Small (by omega) (by omega)
    simp only [DiskLogHandler.threadStep,DiskLogHandler.append,manager]
    simp only [DiskLogHandler.started,LogFileWriter.closed,LogFileManager.lastFile,lastKey,name,LogFileWriter.openFile,full,
      there,true_or,if_true,reduceCtorEq,if_false]
  have notEmpty : ¬ maxPayloadSize < [byte].length := by simp [maxPayloadSize,headerSize]
  have writes : DiskLogHandler.threadStep { (DiskLogHandler.started max lsn listing).append 0 [byte] with
        writer := ⟨some (fileName last.lsn),0,last.lsn + max - 1⟩ } =
      .ok { DiskLogHandler.started max lsn listing with
        buffer := ⟨lsn + 1,lsn + 1,[]⟩
        writer := ⟨some (fileName last.lsn),toInt32 (lsn + 1),last.lsn + max - 1⟩
        dir := listing.append (fileName last.lsn) (LogEntry.bytes ⟨lsn + 1,0,[byte]⟩) } := by
    simp only [DiskLogHandler.threadStep,DiskLogHandler.append,DiskLogHandler.started,LogEntryBuffer.append,LogEntryBuffer.init,
      LogEntryBuffer.flushEntry,LogFileWriter.write,if_neg notEmpty]
    simp [show ¬ last.lsn + max - 1 < lsn + 1 by omega,show ¬ lsn + 1 ≤ 0 by omega,show 0 < lsn + 1 by omega]
  have run : run (oneEntry byte) (.started max lsn listing) = { DiskLogHandler.started max lsn listing with
        buffer := ⟨lsn + 1,lsn + 1,[]⟩
        writer := ⟨some (fileName last.lsn),toInt32 (lsn + 1),last.lsn + max - 1⟩
        dir := listing.append (fileName last.lsn) (LogEntry.bytes ⟨lsn + 1,0,[byte]⟩) } := by
    simp only [oneEntry,run,opens,writes]
  refine ⟨?_,by rw [run],by rw [run]⟩
  simp only [oneEntry,appended,opens,writes,if_neg notEmpty]
  rfl

theorem tornBreaks (short : (torn k last.entries).length < headerSize) (some : torn k last.entries ≠ []) :
    ¬ Continues max (delivered before last k) (.started max (delivered before last k).length listing) := by
  intro goesOn
  obtain ⟨rest,same,cut⟩ := completeSplit k last.entries
  obtain ⟨entry,more,n,rfl,part,-⟩ := cut.resolve_left some
  have next : entry.lsn = (delivered before last k).length + 1 := by
    refine log.numbered _ entry ?_
    rw [writtenConcat,same,← List.append_assoc]
    show (delivered before last k ++ entry :: more)[(delivered before last k).length]? = _
    simp
  have inside : entry ∈ last.entries := by
    rw [same]
    simp
  have fits := (log.files.within last (by simp) entry inside).2
  have less := log.bounded entry (by rw [writtenConcat]; exact List.mem_append_right _ inside)
  obtain ⟨byte,differs⟩ := notRepeated
    (ofInt64 (Int64.ofInt ((delivered before last k).length + 1)) ++ (ofInt32 (Int32.ofInt 1) ++ ofInt32 0))
    (List.length_pos_iff.mpr some) (by
      simp only [List.length_append,lengthOfInt64,lengthOfInt32]
      unfold headerSize at short
      omega)
  obtain ⟨appended,flushed,dir⟩ := runOneEntry log positive listed
    (Int.natCast_nonneg (delivered before last k).length) (by omega) byte
  obtain ⟨again,ok⟩ := goesOn (oneEntry byte) (by
    rw [appended]
    intro e only
    rw [List.mem_singleton.mp only]
    dsimp only
    omega) _ (.refl _)
  rw [appended,flushed,dir] at ok
  have files : Files max (before ++ [last.cut k]) := filesReplace log.files rfl (by simp [Segment.cut])
  have begins : written before <+: written (before ++ [last]) := writtenConcat before last ▸ List.prefix_append _ _
  generalize new : (⟨(delivered before last k).length + 1,0,[byte]⟩ : LogEntry) = e at ok
  have grown : Files max (before ++ [⟨last.lsn,(bytesOf last.entries).take k,[e]⟩]) := by
    refine filesReplace log.files rfl fun entry' only => ?_
    have lsn : e.lsn = entry.lsn := by rw [← new,next]
    rw [List.mem_singleton.mp only,lsn]
    exact log.files.within last (by simp) entry inside
  have perm : (listing.append (fileName last.lsn) e.bytes).Perm
      ((before ++ [(⟨last.lsn,(bytesOf last.entries).take k,[e]⟩ : Segment)]).map file) := by
    have moved : Directory.append (fileName last.lsn) e.bytes ((before ++ [last.cut k]).map file) =
        (before ++ [(⟨last.lsn,(bytesOf last.entries).take k,[e]⟩ : Segment)]).map file := appendFile files positive e
    rw [← moved]
    exact listed.map _
  have run := iterateLast grown positive (fun seg inside => log.bases seg (List.mem_append_left _ inside))
    (fun entry inside => log.valid positive (begins.subset inside)) (log.numbered.ofPrefix begins).ascending perm 0
  rw [takeBytes,List.append_assoc,bytesOfCons,bytesOfNil,List.append_nil] at run
  have kept : [e].filter (fun entry => entry.lsn ≤ ((delivered before last k).length : Int) + 1) = [e] := by
    rw [← new]
    simp
  rw [Replays,kept,delivered,List.append_assoc] at ok
  rcases read : iterate collect 0 (bytesOf (complete k last.entries) ++ (torn k last.entries ++ e.bytes))
    (written before) with ⟨result,out⟩
  rw [replayCollect _ _ (run.trans read)] at ok
  obtain ⟨value,rfl⟩ := Prod.mk.inj ok
  cases result with
  | error rc => cases value
  | ok _ =>
    refine tornMisread short ?_ read
    rw [← new]
    simpa [LogEntry.bytes] using differs

theorem cutLogReplayedIff (small : max < 2 ^ 31) :
    ((∃ handler, Replays max listing (delivered before last k) handler) ↔ (torn k last.entries).length < headerSize) ∧
    ((∃ handler, Replays max listing (delivered before last k) handler ∧ Continues max (delivered before last k) handler) ↔
      torn k last.entries = []) := by
  have unique : ∀ {handler}, (torn k last.entries).length < headerSize → Replays max listing (delivered before last k) handler →
      handler = .started max (delivered before last k).length listing := by
    intro handler short ok
    have known := shortReplays log positive listed short
    rw [Replays] at ok known
    rw [ok] at known
    exact Except.ok.inj (Prod.mk.inj known).1
  have first : (∃ handler, Replays max listing (delivered before last k) handler) ↔
      (torn k last.entries).length < headerSize := by
    constructor
    · rintro ⟨handler,ok⟩
      by_contra long
      exact longFails log positive listed long ok
    · intro short
      exact ⟨_,shortReplays log positive listed short⟩
  refine ⟨first,?_,fun none => ?_⟩
  · rintro ⟨handler,ok,goesOn⟩
    have short := first.mp ⟨handler,ok⟩
    by_contra some
    rw [unique short ok] at goesOn
    exact tornBreaks log positive listed short some goesOn
  · have short : (torn k last.entries).length < headerSize := by
      rw [none]
      decide
    exact ⟨_,shortReplays log positive listed short,cleanContinues log positive listed small none⟩

end

end

def twoEntries : Segment := ⟨0,[],[⟨1,0,[7]⟩,⟨2,3,[8]⟩]⟩

theorem twoValid : ValidLog 1000 ([] ++ [twoEntries]) := by
  constructor
  case files => exact ⟨by simp,by simp [twoEntries],by simp [twoEntries],by simp [twoEntries]⟩
  case bases => simp [twoEntries]
  case numbered =>
    rintro (_ | _ | i) entry found
    · cases found
      rfl
    · cases found
      rfl
    · simp [written,twoEntries] at found
  case begun =>
    intro before seg after same
    obtain ⟨rfl,rfl,rfl⟩ : before = [] ∧ seg = twoEntries ∧ after = [] := by
      simpa [List.append_eq_cons_iff,and_assoc,eq_comm] using same
    simp [twoEntries,written]
  case short => simp [written,twoEntries,maxPayloadSize,headerSize]
  case bounded => simp [written,twoEntries]

theorem cutBetween : ∃ handler, Replays 1000 [(fileName 0,(bytesOf twoEntries.entries).take 17)] [⟨1,0,[7]⟩] handler ∧
    Continues 1000 [⟨1,0,[7]⟩] handler := by
  have none : torn 17 twoEntries.entries = [] := by decide
  exact ((cutLogReplayedIff (k := 17) twoValid (by decide) (.of_eq (by simp [cut,file,twoEntries]))
    (by decide)).2.mpr none)

/-- Of the second entry the header was written, and its payload was not. -/
theorem cutPayload : (DiskLogHandler.started 1000 0 [(fileName 0,(bytesOf twoEntries.entries).take 33)]).replay collect 0 [] =
    (.error .ioerrRead,[⟨1,0,[7]⟩]) := by
  have valid : ∀ entry ∈ twoEntries.entries, entry.Valid := fun entry inside =>
    twoValid.valid (by decide) (by simpa [written] using inside)
  have files : [(fileName 0,(bytesOf twoEntries.entries).take 33)] = ([] ++ [twoEntries.cut 33]).map file := by
    simp [cut,file,twoEntries]
  have run := iterateCut (k := 33) twoValid (by decide) (.of_eq files) 0
  have part : torn 33 twoEntries.entries = (LogEntry.bytes ⟨2,3,[8]⟩).take 16 := by decide
  have whole : complete 33 twoEntries.entries = [⟨1,0,[7]⟩] := by decide
  rw [part,whole,iterateTorn (fun entry inside => valid entry (by simp_all [twoEntries])) (valid _ (by simp [twoEntries]))
    (by decide) (by decide)] at run
  exact replayCollect _ _ run

end MiniOb.Clog
