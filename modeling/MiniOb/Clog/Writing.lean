import Mathlib.Data.List.Basic
import MiniOb.Clog.Files

/-! Over every schedule of appends and of the writing thread, the files hold the entries in
their order, and a restart reads back what was flushed. -/
namespace MiniOb.Clog
open Prog List DiskLogHandler LogCall

def written (segs : List Segment) : List LogEntry := segs.flatMap Segment.entries

structure LogEntryBuffer.Above (buffer : LogEntryBuffer) (n : Int) : Prop where
  waiting : ∀ entry ∈ buffer.entries, n < entry.lsn
  coming : n ≤ buffer.currentLsn

structure Writing (max : Int) (segs : List Segment) (handler : DiskLogHandler) : Prop where
  files : Files max segs
  dir : handler.dir.Perm (segs.map Segment.file)
  manager : handler.manager = ⟨max,segs.map Segment.key⟩
  writer : ∀ name, handler.writer.filename = some name → ∃ before last, segs = before ++ [last] ∧
    name = fileName last.lsn ∧ handler.writer.endLsn = last.lsn + max - 1
  ascending : Ascending (written segs ++ handler.buffer.entries)
  valid : ∀ entry ∈ written segs ++ handler.buffer.entries, entry.Valid
  current : ∀ entry ∈ written segs ++ handler.buffer.entries, entry.lsn ≤ handler.buffer.currentLsn
  notNegative : 0 ≤ handler.buffer.currentLsn
  bounded : handler.buffer.currentLsn + max < 2 ^ 31
  flushed : ∀ entry ∈ written segs, entry.lsn ≤ handler.buffer.flushedLsn
  flushedAbove : handler.buffer.Above handler.buffer.flushedLsn
  lastAbove : handler.buffer.Above handler.writer.lastLsn
  segsAbove : ∀ seg ∈ segs, handler.buffer.Above (seg.lsn - 1)
  rc : handler.rc = .success ∨ handler.rc = .logFileFull ∧ ∃ entry rest name, handler.buffer.entries = entry :: rest ∧
    handler.writer.filename = some name ∧ handler.writer.endLsn < entry.lsn

structure Extends (segs later : List Segment) : Prop where
  origins : ∃ new : List Int, later.map Segment.origin = segs.map Segment.origin ++ new.map fun lsn => (lsn,[])
  grown : written segs <+: written later

theorem Extends.refl (segs : List Segment) : Extends segs segs := ⟨⟨[],by simp⟩,prefix_refl _⟩

theorem Extends.trans {a b c} (first : Extends a b) (second : Extends b c) : Extends a c := by
  obtain ⟨new,same⟩ := first.origins
  obtain ⟨more,again⟩ := second.origins
  exact ⟨⟨new ++ more,by rw [again,same,map_append,append_assoc]⟩,first.grown.trans second.grown⟩

section
variable {max : Int} {segs : List Segment} {handler : DiskLogHandler}

def LogEntryBuffer.push (moduleId : Int32) (payload : Bytes) (buffer : LogEntryBuffer) : LogEntryBuffer :=
  { buffer with
    currentLsn := buffer.currentLsn + 1
    entries := buffer.entries ++ [⟨buffer.currentLsn + 1,moduleId,payload⟩] }

variable {n : Int} {before : List Segment} {last : Segment} {next : DiskLogHandler} {listing : Directory}

theorem LogEntryBuffer.Above.push {buffer : LogEntryBuffer} (above : buffer.Above n) (moduleId : Int32)
    (payload : Bytes) : (buffer.push moduleId payload).Above n where
  waiting entry inside := by
    have coming := above.coming
    rcases mem_append.mp inside with old | new
    · exact above.waiting entry old
    · rw [mem_singleton.mp new]
      exact Int.lt_add_one_of_le coming
  coming := above.coming.trans (Int.le_add_one (le_refl _))

theorem Writing.append (writing : Writing max segs handler) (moduleId : Int32) (payload : Bytes)
    (small : payload.length ≤ maxPayloadSize) (room : handler.buffer.currentLsn + 1 + max < 2 ^ 31) (positive : 0 < max) :
    Writing max segs { handler with buffer := handler.buffer.push moduleId payload } := by
  have notNegative := writing.notNegative
  have split : ∀ {P : LogEntry → Prop}, (∀ entry ∈ written segs ++ handler.buffer.entries, P entry) →
      P ⟨handler.buffer.currentLsn + 1,moduleId,payload⟩ →
      ∀ entry ∈ written segs ++ (handler.buffer.push moduleId payload).entries, P entry := by
    intro P old new entry inside
    rw [LogEntryBuffer.push,← append_assoc,mem_append,mem_singleton] at inside
    rcases inside with before | rfl
    · exact old entry before
    · exact new
  constructor
  case files => exact writing.files
  case dir => exact writing.dir
  case manager => exact writing.manager
  case writer => exact writing.writer
  case ascending =>
    dsimp only [LogEntryBuffer.push]
    rw [← append_assoc]
    refine pairwise_append.mpr ⟨writing.ascending,pairwise_singleton _ _,fun a inside b new => ?_⟩
    rw [mem_singleton.mp new]
    exact Int.lt_add_one_of_le (writing.current a inside)
  case valid =>
    refine split writing.valid ⟨?_,?_,small⟩
    · dsimp only
      omega
    · dsimp only
      omega
  case current => exact split (fun entry inside => (writing.current entry inside).trans (Int.le_add_one (le_refl _))) (le_refl _)
  case notNegative =>
    dsimp only [LogEntryBuffer.push]
    omega
  case bounded => exact room
  case flushed => exact writing.flushed
  case flushedAbove => exact writing.flushedAbove.push moduleId payload
  case lastAbove => exact writing.lastAbove.push moduleId payload
  case segsAbove => exact fun seg inside => (writing.segsAbove seg inside).push moduleId payload
  case rc =>
    refine writing.rc.imp_right ?_
    rintro ⟨full,entry,rest,name,first,opened,greater⟩
    refine ⟨full,entry,rest ++ [⟨handler.buffer.currentLsn + 1,moduleId,payload⟩],name,?_,opened,greater⟩
    simp [LogEntryBuffer.push,first]

theorem toInt32Small (low : -2 ^ 31 ≤ n) (high : n < 2 ^ 31) : toInt32 n = n := Int32.toInt_ofInt_of_le low high

theorem Writing.newFile (writing : Writing max segs handler) (positive : 0 < max) {lsn} (low : 0 ≤ lsn)
    (apart : ∀ seg ∈ segs, seg.lsn + max ≤ lsn) (above : handler.buffer.Above (lsn - 1)) :
    Writing max (segs ++ [⟨lsn,[],[]⟩]) { handler with
      manager := ⟨max,LogFileManager.emplace lsn (fileName lsn) (segs.map Segment.key)⟩
      writer := handler.writer.openFile (fileName lsn) (lsn + max - 1)
      dir := handler.dir.create (fileName lsn)
      rc := .success } := by
  have bounded := writing.bounded
  have coming := above.coming
  have same : written (segs ++ [⟨lsn,[],[]⟩]) = written segs := by simp [written]
  have high : lsn + max ≤ 2 ^ 31 := by omega
  have extended : Files max (segs ++ [⟨lsn,[],[]⟩]) := by
    refine ⟨pairwise_append.mpr ⟨writing.files.apart,pairwise_singleton _ _,fun a inside b new => ?_⟩,?_,?_,?_⟩
    · rw [mem_singleton.mp new]
      exact apart a inside
    all_goals
      intro seg inside
      rcases mem_append.mp inside with old | new
    · exact writing.files.low seg old
    · rw [mem_singleton.mp new]; exact low
    · exact writing.files.high seg old
    · rw [mem_singleton.mp new]; exact high
    · exact writing.files.within seg old
    · rw [mem_singleton.mp new]; simp
  have names := extended.names positive
  constructor
  case files => exact extended
  case dir =>
    have fresh : fileName lsn ∉ handler.dir.map Prod.fst := by
      intro inside
      rw [(writing.dir.map Prod.fst).mem_iff,map_map] at inside
      rw [map_append,nodup_append] at names
      exact names.2.2 _ inside _ (by simp) rfl
    dsimp only [Directory.create]
    rw [if_neg fresh,map_append]
    exact writing.dir.append_right _
  case manager =>
    have greater : ∀ file ∈ segs.map Segment.key, file.1 < lsn := by
      intro file inside
      obtain ⟨seg,member,rfl⟩ := mem_map.mp inside
      have le := apart seg member
      show seg.lsn < lsn
      omega
    rw [LogFileManager.emplaceLast greater,map_append]
    rfl
  case writer =>
    rintro name ⟨⟩
    exact ⟨segs,⟨lsn,[],[]⟩,rfl,rfl,toInt32Small (by omega) (by omega)⟩
  case ascending => rw [same]; exact writing.ascending
  case valid => rw [same]; exact writing.valid
  case current => rw [same]; exact writing.current
  case notNegative => exact writing.notNegative
  case bounded => exact writing.bounded
  case flushed => rw [same]; exact writing.flushed
  case flushedAbove => exact writing.flushedAbove
  case lastAbove => exact writing.lastAbove
  case segsAbove =>
    intro seg inside
    rcases mem_append.mp inside with old | new
    · exact writing.segsAbove seg old
    · rw [mem_singleton.mp new]
      exact above
  case rc => exact .inl rfl

theorem Writing.reopen (writing : Writing max segs handler) (positive : 0 < max) (split : segs = before ++ [last]) :
    Writing max segs { handler with
      writer := handler.writer.openFile (fileName last.lsn) (last.lsn + max - 1)
      dir := handler.dir.create (fileName last.lsn)
      rc := .success } := by
  have inside : last ∈ segs := by simp [split]
  have low := writing.files.low last inside
  have high := writing.files.high last inside
  constructor
  case dir =>
    have present : fileName last.lsn ∈ handler.dir.map Prod.fst := by
      rw [(writing.dir.map Prod.fst).mem_iff,map_map]
      exact mem_map.mpr ⟨last,inside,rfl⟩
    dsimp only [Directory.create]
    rw [if_pos present]
    exact writing.dir
  case writer =>
    rintro name ⟨⟩
    exact ⟨before,last,split,rfl,toInt32Small (by omega) (by omega)⟩
  case rc => exact .inl rfl
  case files => exact writing.files
  case manager => exact writing.manager
  case ascending => exact writing.ascending
  case valid => exact writing.valid
  case current => exact writing.current
  case notNegative => exact writing.notNegative
  case bounded => exact writing.bounded
  case flushed => exact writing.flushed
  case flushedAbove => exact writing.flushedAbove
  case lastAbove => exact writing.lastAbove
  case segsAbove => exact writing.segsAbove

theorem appendFile (files : Files max (before ++ [last])) (positive : 0 < max) (entry : LogEntry) :
    Directory.append (fileName last.lsn) entry.bytes ((before ++ [last]).map Segment.file) =
      (before ++ [{ last with entries := last.entries ++ [entry] }]).map Segment.file := by
  have names := files.names positive
  rw [map_append,nodup_append] at names
  unfold Directory.append
  rw [map_map,map_append,map_append]
  congr 1
  · refine map_congr_left fun seg inside => ?_
    have other : fileName seg.lsn ≠ fileName last.lsn :=
      names.2.2 _ (mem_map.mpr ⟨seg,inside,rfl⟩) _ (by simp)
    simp [Segment.file,other]
  · simp [Segment.file,bytesOfAppend]

theorem Writing.write (writing : Writing max segs handler) (positive : 0 < max)
    (split : segs = before ++ [last]) {entry rest} (first : handler.buffer.entries = entry :: rest) (fits : entry.lsn < last.lsn + max) :
    Writing max (before ++ [{ last with entries := last.entries ++ [entry] }]) { handler with
      buffer := { handler.buffer with flushedLsn := entry.lsn, entries := rest }
      writer := { handler.writer with lastLsn := toInt32 entry.lsn }
      dir := handler.dir.append (fileName last.lsn) entry.bytes
      rc := .success } := by
  have inside : last ∈ segs := by simp [split]
  have member : entry ∈ handler.buffer.entries := by simp [first]
  have later : ∀ e ∈ rest, e ∈ handler.buffer.entries := fun e member => by simp [first,member]
  have start := (writing.segsAbove last inside).waiting entry member
  have same : written (before ++ [{ last with entries := last.entries ++ [entry] }]) ++ rest =
      written segs ++ handler.buffer.entries := by simp [written,split,first]
  have valid := writing.valid entry (by simp [first])
  have small : toInt32 entry.lsn = entry.lsn := toInt32Small (by have := valid.low; omega) valid.high
  have ascending := writing.ascending
  rw [first] at ascending
  obtain ⟨-,ordered,across⟩ := pairwise_append.mp ascending
  have next := (pairwise_cons.mp ordered).1
  have above : LogEntryBuffer.Above { handler.buffer with flushedLsn := entry.lsn, entries := rest } entry.lsn :=
    ⟨next,writing.current entry (by simp [first])⟩
  have wasLast : last.lsn ∈ segs.map Segment.lsn := mem_map.mpr ⟨last,inside,rfl⟩
  have lsns : ∀ seg ∈ before ++ [{ last with entries := last.entries ++ [entry] }], seg.lsn ∈ segs.map Segment.lsn := by
    intro seg member
    rcases mem_append.mp member with old | new
    · exact mem_map.mpr ⟨seg,by simp [split,old],rfl⟩
    · rw [mem_singleton.mp new]
      exact wasLast
  have of : ∀ {P : Int → Prop}, (∀ seg ∈ segs, P seg.lsn) →
      ∀ seg ∈ before ++ [{ last with entries := last.entries ++ [entry] }], P seg.lsn := by
    intro P all seg member
    obtain ⟨old,oldInside,sameLsn⟩ := mem_map.mp (lsns seg member)
    rw [← sameLsn]
    exact all old oldInside
  have written' : written (before ++ [{ last with entries := last.entries ++ [entry] }]) = written segs ++ [entry] := by
    simp [written,split]
  constructor
  case files =>
    refine ⟨?_,of writing.files.low,of (P := fun lsn => lsn + max ≤ 2 ^ 31) writing.files.high,?_⟩
    · have apart := writing.files.apart
      rw [split] at apart
      obtain ⟨others,-,between⟩ := pairwise_append.mp apart
      refine pairwise_append.mpr ⟨others,pairwise_singleton _ _,fun a member b new => ?_⟩
      rw [mem_singleton.mp new]
      exact between a member last (by simp)
    · intro seg member e inEntries
      rcases mem_append.mp member with old | new
      · exact writing.files.within seg (by simp [split,old]) e inEntries
      · rw [mem_singleton.mp new] at inEntries ⊢
        rcases mem_append.mp inEntries with old | new
        · exact writing.files.within last inside e old
        · rw [mem_singleton.mp new]
          exact ⟨by dsimp only; omega,fits⟩
  case dir =>
    rw [← appendFile (split ▸ writing.files) positive]
    exact (split ▸ writing.dir).map _
  case manager =>
    rw [writing.manager,split]
    simp [Segment.key]
  case writer =>
    intro name found
    obtain ⟨before',last',split',rfl,ends⟩ := writing.writer name found
    rw [split] at split'
    obtain ⟨rfl,sameLast⟩ := append_inj' split' rfl
    cases sameLast
    exact ⟨before,_,rfl,rfl,ends⟩
  case ascending => exact same ▸ writing.ascending
  case valid => exact same ▸ writing.valid
  case current => exact same ▸ writing.current
  case notNegative => exact writing.notNegative
  case bounded => exact writing.bounded
  case flushed =>
    rw [written']
    intro e inWritten
    rcases mem_append.mp inWritten with old | new
    · exact (across e old entry (by simp)).le
    · rw [mem_singleton.mp new]
  case flushedAbove => exact above
  case lastAbove =>
    rw [small]
    exact above
  case segsAbove =>
    exact of (P := fun lsn => LogEntryBuffer.Above { handler.buffer with flushedLsn := entry.lsn, entries := rest } (lsn - 1))
      fun seg member => ⟨fun e inRest => (writing.segsAbove seg member).waiting e (later e inRest),
        (writing.segsAbove seg member).coming⟩
  case rc => exact .inl rfl

theorem lastKey (before : List Segment) (last : Segment) : ((before ++ [last]).map Segment.key).getLast? = some last.key := by
  simp

section
variable (writing : Writing max segs handler) (positive : 0 < max)
include writing positive

theorem Writing.openStep (closed : handler.writer.filename = none ∨ handler.rc = .logFileFull) :
    ∃ later next, handler.threadStep = .ok next ∧ Writing max later next ∧ Extends segs later ∧
      written later = written segs ∧ next.buffer = handler.buffer := by
  have fresh : ∀ {lsn : Int}, Extends segs (segs ++ [⟨lsn,[],[]⟩]) ∧ written (segs ++ [⟨lsn,[],[]⟩]) = written segs := by
    intro lsn
    have same : written (segs ++ [⟨lsn,[],[]⟩]) = written segs := by simp [written]
    exact ⟨⟨⟨[lsn],by simp [Segment.origin]⟩,same ▸ prefix_refl _⟩,same⟩
  unfold threadStep
  rw [if_pos closed]
  by_cases full : handler.rc = .logFileFull
  · -- the entry in front lies behind the last file
    obtain ⟨-,entry,rest,name,first,opened,greater⟩ := writing.rc.resolve_left (by rw [full]; simp)
    obtain ⟨before,last,split,-,ends⟩ := writing.writer name opened
    have inside : last ∈ segs := by simp [split]
    have low := writing.files.low last inside
    have apart : ∀ seg ∈ segs, seg.lsn + max ≤ last.lsn + max := by
      intro seg member
      rw [split] at member
      rcases mem_append.mp member with old | new
      · have between := (pairwise_append.mp (split ▸ writing.files.apart)).2.2 seg old last (by simp)
        omega
      · rw [mem_singleton.mp new]
    have ascending := writing.ascending
    rw [first] at ascending
    have next := (pairwise_cons.mp (pairwise_append.mp ascending).2.1).1
    have above : handler.buffer.Above (last.lsn + max - 1) := by
      refine ⟨fun e member => ?_,?_⟩
      · rw [first] at member
        rcases mem_cons.mp member with rfl | later
        · omega
        · have less := next e later
          omega
      · have le := writing.current entry (by simp [first])
        omega
    have result := writing.newFile positive (by omega) apart above
    refine ⟨_,_,?_,result,fresh.1,fresh.2,rfl⟩
    simp only [if_pos full,LogFileManager.nextFile,writing.manager]
    rw [split,lastKey]
    rfl
  · simp only [if_neg full,LogFileManager.lastFile,writing.manager]
    rcases eq_nil_or_concat segs with none | ⟨before,last,split⟩
    · have notNegative := writing.notNegative
      have above : handler.buffer.Above (0 - 1) := by
        refine ⟨fun e member => ?_,by omega⟩
        have low := (writing.valid e (by simp [member])).low
        omega
      have result := writing.newFile positive (le_refl 0) (by simp [none]) above
      refine ⟨_,_,?_,result,fresh.1,fresh.2,rfl⟩
      rw [none]
      rfl
    · have result := writing.reopen positive (by simpa using split)
      refine ⟨segs,_,?_,result,.refl _,rfl,rfl⟩
      rw [concat_eq_append] at split
      rw [split,lastKey]
      simp only [Except.ok.injEq,mk.injEq]
      exact ⟨trivial,by rw [writing.manager,split],rfl,rfl,trivial⟩

theorem Writing.flushStep (opened : ¬ (handler.writer.filename = none ∨ handler.rc = .logFileFull))
    (ok : handler.threadStep = .ok next) :
    ∃ later, Writing max later next ∧ Extends segs later ∧
      written later ++ next.buffer.entries = written segs ++ handler.buffer.entries := by
  obtain ⟨someFile,notFull⟩ := not_or.mp opened
  obtain ⟨name,isOpen⟩ := Option.ne_none_iff_exists'.mp someFile
  obtain ⟨before,last,split,rfl,ends⟩ := writing.writer name isOpen
  unfold threadStep at ok
  rw [if_neg opened] at ok
  unfold LogEntryBuffer.flushEntry at ok
  cases first : handler.buffer.entries with
  | nil =>
    rw [first] at ok
    cases ok
    refine ⟨segs,?_,.refl _,by rw [first]⟩
    have success := writing.rc.resolve_right fun full => notFull full.1
    rw [← success]
    exact writing
  | cons entry rest =>
    rw [first] at ok
    dsimp only at ok
    have greater := writing.lastAbove.waiting entry (by simp [first])
    by_cases assertion : 0 < entry.lsn ∧ entry.payload ≠ []
    · rw [if_pos assertion] at ok
      unfold LogFileWriter.write at ok
      by_cases behind : handler.writer.endLsn < entry.lsn
      · -- the file is full and the entry stays in front
        rw [if_pos behind] at ok
        cases ok
        refine ⟨segs,{ writing with rc := .inr ⟨rfl,entry,rest,_,first,isOpen,behind⟩ },.refl _,by rw [first]⟩
      · rw [if_neg behind,isOpen] at ok
        dsimp only at ok
        rw [if_neg (not_le.mpr greater)] at ok
        cases ok
        have kept := writing.write positive split first (by omega)
        simp only [isOpen] at kept
        refine ⟨_,kept,⟨⟨[],by simp [Segment.origin,split]⟩,⟨[entry],?_⟩⟩,?_⟩
        all_goals simp [written,split]
    · rw [if_neg assertion] at ok
      cases ok

theorem Writing.threadStep (ok : handler.threadStep = .ok next) :
    ∃ later, Writing max later next ∧ Extends segs later ∧
      written later ++ next.buffer.entries = written segs ++ handler.buffer.entries := by
  by_cases closed : handler.writer.filename = none ∨ handler.rc = .logFileFull
  · obtain ⟨later,found,run,kept,grown,same,buffer⟩ := writing.openStep positive closed
    rw [run] at ok
    cases ok
    exact ⟨later,kept,grown,by rw [same,buffer]⟩
  · exact writing.flushStep positive closed ok

theorem Writing.run (calls : List LogCall)
    (bounded : ∀ entry ∈ appended calls handler, entry.lsn < 2 ^ 31 - max) :
    ∃ later, Writing max later (run calls handler) ∧ Extends segs later ∧
      written later ++ (run calls handler).buffer.entries =
        written segs ++ handler.buffer.entries ++ appended calls handler := by
  induction calls generalizing segs handler with
  | nil => exact ⟨segs,writing,.refl _,by simp [run,appended]⟩
  | cons call rest ih =>
    cases call with
    | append moduleId payload =>
      simp only [run,appended] at bounded ⊢
      by_cases large : maxPayloadSize < payload.length
      · -- the entry is refused
        have same : handler.append moduleId payload = handler := by simp [DiskLogHandler.append,LogEntryBuffer.append,large]
        rw [same,if_pos large] at bounded ⊢
        exact ih writing bounded
      · have pushed : handler.append moduleId payload = { handler with buffer := handler.buffer.push moduleId payload } := by
          simp [DiskLogHandler.append,LogEntryBuffer.append,large,LogEntryBuffer.push]
        rw [pushed,if_neg large] at bounded ⊢
        obtain ⟨here,others⟩ := forall_mem_cons.mp bounded
        have room : handler.buffer.currentLsn + 1 + max < 2 ^ 31 := by
          dsimp only at here
          omega
        obtain ⟨later,kept,grown,same⟩ := ih (writing.append moduleId payload (not_lt.mp large) room positive) others
        refine ⟨later,kept,grown,?_⟩
        rw [same]
        simp [LogEntryBuffer.push]
    | thread =>
      simp only [run,appended] at bounded ⊢
      cases step : handler.threadStep with
      | ok next =>
        rw [step] at bounded
        obtain ⟨mid,keptMid,extendsMid,sameMid⟩ := writing.threadStep positive step
        obtain ⟨later,kept,grown,same⟩ := ih keptMid bounded
        exact ⟨later,kept,extendsMid.trans grown,by rw [same,sameMid]⟩
      | error exit => exact ⟨segs,writing,.refl _,by simp⟩

end

/-! Reading the files back. -/

theorem lookupOfMem {α β : Type} [BEq α] [LawfulBEq α] {l : List (α × β)} (distinct : (l.map Prod.fst).Nodup) {a} {b}
    (inside : (a,b) ∈ l) : l.lookup a = some b := by
  induction l with
  | nil => cases inside
  | cons pair rest ih =>
    obtain ⟨c,d⟩ := pair
    rw [map_cons,nodup_cons] at distinct
    rw [lookup_cons]
    rcases mem_cons.mp inside with same | later
    · cases same
      simp
    · have other : a ≠ c := by
        rintro rfl
        exact distinct.1 (mem_map.mpr ⟨_,later,rfl⟩)
      rw [beq_false_of_ne other]
      exact ih distinct.2 later

theorem Files.content (files : Files max segs) (positive : 0 < max) {dir : Directory} (perm : dir.Perm (segs.map Segment.file))
    {seg : Segment} (inside : seg ∈ segs) : dir.content (fileName seg.lsn) = seg.base ++ bytesOf seg.entries := by
  have distinct : (dir.map Prod.fst).Nodup := by
    rw [(perm.map Prod.fst).nodup_iff,map_map]
    exact files.names positive
  have member : (fileName seg.lsn,seg.base ++ bytesOf seg.entries) ∈ dir :=
    perm.mem_iff.mpr (mem_map.mpr ⟨seg,inside,rfl⟩)
  rw [Directory.content,lookupOfMem distinct member]
  rfl

theorem Files.iterateFold {σ : Type} (files : Files max segs) (positive : 0 < max)
    (listed : listing.Perm (segs.map Segment.file)) (lsn start : Int) (consumer : LogEntry → Prog σ RC Unit) :
    (started max lsn listing).iterate consumer start =
      (segs.filter fun seg => start ≤ seg.lsn + max - 1).foldr
        (fun seg rest => LogFileReader.iterate consumer start (seg.base ++ bytesOf seg.entries) >>= fun _ => rest) (pure ()) := by
  have chosen : (DiskLogHandler.started max lsn listing).manager.listFiles start =
      (segs.filter fun seg => start ≤ seg.lsn + max - 1).map fun seg => fileName seg.lsn := by
    rw [LogFileManager.listFiles,started,files.initFiles positive listed,filter_map,map_map]
    rfl
  rw [DiskLogHandler.iterate,chosen,foldr_map]
  refine foldr_ext _ _ _ fun seg inside rest => ?_
  have content := files.content positive listed (mem_filter.mp inside).1
  exact congrArg (fun bytes => LogFileReader.iterate consumer start bytes >>= fun _ => rest) content

theorem Files.iterate (files : Files max segs) (positive : 0 < max)
    (listed : listing.Perm (segs.map Segment.file)) (lsn : Int) {start} (got : Segment → List LogEntry)
    (reads : ∀ seg ∈ segs, start ≤ seg.lsn + max - 1 → ∀ kept,
      LogFileReader.iterate collect start (seg.base ++ bytesOf seg.entries) kept = (.ok (),kept ++ got seg))
    (none : ∀ seg ∈ segs, ¬ start ≤ seg.lsn + max - 1 → got seg = []) (kept : List LogEntry) :
    (started max lsn listing).iterate collect start kept = (.ok (),kept ++ segs.flatMap got) := by
  rw [files.iterateFold positive listed]
  clear files listed
  induction segs generalizing kept with
  | nil => simp
  | cons seg rest ih =>
    obtain ⟨here,others⟩ := forall_mem_cons.mp reads
    obtain ⟨noneHere,noneOthers⟩ := forall_mem_cons.mp none
    by_cases taken : start ≤ seg.lsn + max - 1
    · rw [filter_cons_of_pos (by simpa using taken),foldr_cons,bindOk (here taken kept),ih others noneOthers]
      simp
    · rw [filter_cons_of_neg (by simpa using taken),ih others noneOthers,flatMap_cons,noneHere taken,nil_append]

theorem sinceAppend (start : Int) (a b : List LogEntry) : since start (a ++ b) = since start a ++ since start b :=
  filter_append ..

theorem sinceWritten (start : Int) (segs : List Segment) :
    segs.flatMap (fun seg => since start seg.entries) = since start (written segs) := by
  induction segs with
  | nil => rfl
  | cons seg rest ih =>
    have whole : written (seg :: rest) = seg.entries ++ written rest := rfl
    rw [flatMap_cons,ih,whole,sinceAppend]

end

/-- A directory as a handler leaves it: the entries of each file lie in the range its name
gives, and no number above `lsn` has been given out. -/
def LogDirectory (max lsn : Int) (dir : Directory) (entries : List LogEntry) : Prop :=
  ∃ segs, Files max segs ∧ (∀ seg ∈ segs, seg.base = [] ∧ seg.lsn ≤ lsn + 1) ∧ dir.Perm (segs.map Segment.file) ∧
    entries = written segs ∧ Ascending entries ∧ ∀ entry ∈ entries, entry.Valid ∧ entry.lsn ≤ lsn

theorem emptyDirectory (max lsn : Int) : LogDirectory max lsn [] [] :=
  ⟨[],⟨.nil,by simp,by simp,by simp⟩,by simp,.refl _,rfl,.nil,by simp⟩

section
variable {max lsn : Int} {dir : Directory} {old : List LogEntry}

theorem LogDirectory.writing (well : LogDirectory max lsn dir old) (positive : 0 < max) (notNegative : 0 ≤ lsn)
    (bounded : lsn + max < 2 ^ 31) :
    ∃ segs, Writing max segs (.started max lsn dir) ∧ old = written segs ∧ ∀ seg ∈ segs, seg.base = [] := by
  obtain ⟨segs,files,bases,perm,rfl,ascending,valid⟩ := well
  refine ⟨segs,?_,rfl,fun seg inside => (bases seg inside).1⟩
  have above : ∀ {n : Int}, n ≤ lsn → (LogEntryBuffer.init lsn).Above n := fun le => ⟨by simp [LogEntryBuffer.init],le⟩
  have none : written segs ++ (started max lsn dir).buffer.entries = written segs := append_nil _
  constructor
  case files => exact files
  case dir => exact perm
  case manager =>
    rw [← files.initFiles positive perm]
    rfl
  case writer => rintro name ⟨⟩
  case ascending => rwa [none]
  case valid => rw [none]; exact fun entry inside => (valid entry inside).1
  case current => rw [none]; exact fun entry inside => (valid entry inside).2
  case notNegative => exact notNegative
  case bounded => exact bounded
  case flushed => exact fun entry inside => (valid entry inside).2
  case flushedAbove => exact above (le_refl lsn)
  case lastAbove => exact above notNegative
  case segsAbove => exact fun seg inside => above (by have := (bases seg inside).2; omega)
  case rc => exact .inl rfl

theorem Extends.bases {segs later} (grown : Extends segs later) (none : ∀ seg ∈ segs, seg.base = []) :
    ∀ seg ∈ later, seg.base = [] := by
  obtain ⟨new,same⟩ := grown.origins
  intro seg inside
  have member : seg.origin ∈ later.map Segment.origin := mem_map.mpr ⟨seg,inside,rfl⟩
  rw [same,mem_append] at member
  rcases member with old | fresh
  · obtain ⟨other,otherInside,equal⟩ := mem_map.mp old
    exact (congrArg Prod.snd equal).symm.trans (none other otherInside)
  · obtain ⟨n,-,equal⟩ := mem_map.mp fresh
    exact (congrArg Prod.snd equal).symm

theorem Writing.delivers {segs handler} (writing : Writing max segs handler) (positive : 0 < max)
    (bases : ∀ seg ∈ segs, seg.base = []) {listing} (listed : listing.Perm handler.dir) (lsn start : Int) :
    (started max lsn listing).iterate collect start [] = (.ok (),since start (written segs)) := by
  have ascending := (pairwise_append.mp writing.ascending).1
  have part : ∀ seg ∈ segs, seg.entries.Sublist (written segs) := fun seg inside =>
    sublist_flatten_of_mem (mem_map.mpr ⟨seg,inside,rfl⟩)
  rw [writing.files.iterate positive (listed.trans writing.dir) lsn (fun seg => since start seg.entries) ?_ ?_ [],
    sinceWritten]
  · rfl
  · intro seg inside _ kept
    rw [bases seg inside,nil_append,← append_nil (bytesOf seg.entries)]
    refine iterateFile (fun entry member => ?_) (ascending.sublist (part seg inside)) (by decide) kept
    exact writing.valid entry (mem_append_left _ ((part seg inside).subset member))
  · intro seg inside early
    refine filter_eq_nil_iff.mpr fun entry member => ?_
    have high := (writing.files.within seg inside entry member).2
    simp only [decide_eq_true_eq]
    omega

theorem LogDirectory.run (well : LogDirectory max lsn dir old) (positive : 0 < max) (notNegative : 0 ≤ lsn)
    (started : lsn + max < 2 ^ 31) (calls : List LogCall)
    (bounded : ∀ entry ∈ appended calls (.started max lsn dir), entry.lsn < 2 ^ 31 - max) :
    ∃ segs, Writing max segs (run calls (.started max lsn dir)) ∧ (∀ seg ∈ segs, seg.base = []) ∧
      old <+: written segs ∧
      written segs ++ (run calls (.started max lsn dir)).buffer.entries = old ++ appended calls (.started max lsn dir) ∧
      (old ++ appended calls (.started max lsn dir)).filter
        (fun entry => entry.lsn ≤ (run calls (.started max lsn dir)).buffer.flushedLsn) = written segs := by
  obtain ⟨segs,writing,rfl,bases⟩ := well.writing positive notNegative started
  obtain ⟨later,kept,grown,same⟩ := writing.run positive calls bounded
  have none : (DiskLogHandler.started max lsn dir).buffer.entries = [] := rfl
  rw [none,append_nil] at same
  refine ⟨later,kept,grown.bases bases,grown.grown,same,?_⟩
  rw [← same,filter_append,filter_eq_self.mpr fun entry inside => decide_eq_true (kept.flushed entry inside),
    filter_eq_nil_iff.mpr fun entry inside => ?_,append_nil]
  simpa only [decide_eq_true_eq,not_le] using kept.flushedAbove.waiting entry inside

end

end MiniOb.Clog
