import MiniOb.Lib.Bytes
import MiniOb.Lib.Prog
import MiniOb.Buffer.FileHeader

/-! The log of page allocations and its replay over header pages of any age. -/
namespace MiniOb.Buffer
open Prog List Function Option Bytes DiskBufferPool

inductive BufferPoolOperation where
  | allocate
  | deallocate
  deriving DecidableEq, Repr

def BufferPoolOperation.typeId : BufferPoolOperation → Int32
  | allocate => 0
  | deallocate => 1

structure BufferPoolLogEntry where
  bufferPoolId : Int32
  operationType : Int32
  pageNum : PageNum
  deriving DecidableEq, Repr

namespace BufferPoolLogEntry

def bytes (log : BufferPoolLogEntry) : Bytes :=
  ofInt32 log.bufferPoolId ++ ofInt32 log.operationType ++ ofInt32 log.pageNum

def ofBytes (payload : Bytes) : Option BufferPoolLogEntry := do
  let (bufferPoolId,rest) ← readInt32 payload
  let (operationType,rest) ← readInt32 rest
  let (pageNum,rest) ← readInt32 rest
  if rest = [] then some ⟨bufferPoolId,operationType,pageNum⟩ else none

theorem ofBytesBytes (log : BufferPoolLogEntry) : ofBytes log.bytes = some log := by
  have last : readInt32 (ofInt32 log.pageNum) = some (log.pageNum,[]) := by
    rw [← append_nil (ofInt32 log.pageNum),readInt32Append]
  simp [ofBytes,bytes,readInt32Append,last]

end BufferPoolLogEntry

structure PoolLogEntry where
  lsn : LSN
  payload : Bytes
  deriving DecidableEq, Repr

def PoolLogEntry.of (lsn : LSN) (id : Int32) (operation : BufferPoolOperation) (page : Nat) : PoolLogEntry :=
  ⟨lsn,BufferPoolLogEntry.bytes ⟨id,operation.typeId,Int32.ofNat page⟩⟩

abbrev BufferPools := Int32 → Option DiskBufferPool

def getBufferPool (id : Int32) : Prog BufferPools RC DiskBufferPool := do
  match ← read fun pools => pools id with
  | some bp => pure bp
  | none => exit .internal

def onPool (id : Int32) (result : Except RC Unit × DiskBufferPool) : Prog BufferPools RC Unit := fun pools =>
  (result.1,update pools id (some result.2))

def replay (entry : PoolLogEntry) : Prog BufferPools RC Unit :=
  match BufferPoolLogEntry.ofBytes entry.payload with
  | none => exit .invalidArgument
  | some log => do
    let bp ← getBufferPool log.bufferPoolId
    if log.operationType = BufferPoolOperation.allocate.typeId then
      onPool log.bufferPoolId (bp.redoAllocatePage entry.lsn (natOf log.pageNum))
    else if log.operationType = BufferPoolOperation.deallocate.typeId then
      onPool log.bufferPoolId (bp.redoDeallocatePage entry.lsn (natOf log.pageNum))
    else exit .internal

def replayAll : List PoolLogEntry → Prog BufferPools RC Unit
  | [] => pure ()
  | entry :: rest => do
    replay entry
    replayAll rest

structure Server where
  pools : BufferPools
  current : LSN

def Server.Ok (s : Server) : Prop := ∀ id bp, s.pools id = some bp → HeaderOk bp.fileHeader ∧ bp.lsn ≤ s.current

inductive LiveStep : Server → PoolLogEntry → Server → Prop where
  | allocatePage {s : Server} {id : Int32} {bp bp' : DiskBufferPool} {lsn : LSN} {page : Nat} (opened : s.pools id = some bp)
      (newer : s.current < lsn) (ok : bp.allocatePage (some lsn) .success = (.ok page,bp')) :
      LiveStep s (.of lsn id .allocate page) ⟨update s.pools id (some bp'),lsn⟩
  | disposePage {s : Server} {id : Int32} {bp bp' : DiskBufferPool} {lsn : LSN} {page : Nat} (opened : s.pools id = some bp)
      (newer : s.current < lsn) (allocated : bp.fileHeader.bitmap page = true)
      (ok : bp.disposePage (some lsn) page = (.ok (),bp')) :
      LiveStep s (.of lsn id .deallocate page) ⟨update s.pools id (some bp'),lsn⟩

inductive Live : Server → List PoolLogEntry → Server → Prop where
  | done (s : Server) : Live s [] s
  | step {s t u : Server} {entry : PoolLogEntry} {rest : List PoolLogEntry} (first : LiveStep s entry t) (next : Live t rest u) :
      Live s (entry :: rest) u

def DiskBufferPool.reload (bp : DiskBufferPool) : DiskBufferPool := { bp with dirty := false }

/-- Header pages as a restart may find them: each flushed at some point of the live run, or
at some point of an earlier replay that need not have come to its end. -/
inductive Image (s u : Server) (log : List PoolLogEntry) : BufferPools → Prop where
  | flushed {image : BufferPools} (points : ∀ id, ∃ done rest m, log = done ++ rest ∧ Live s done m ∧ Live m rest u ∧
      image id = (m.pools id).map reload) : Image s u log image
  | replayed {before image : BufferPools} (earlier : Image s u log before) (points : ∀ id, ∃ done rest, log = done ++ rest ∧
      image id = ((replayAll done before).2 id).map reload) : Image s u log image

def redo : BufferPoolOperation → LSN → Nat → DiskBufferPool → Except RC Unit × DiskBufferPool
  | .allocate,lsn,page,bp => bp.redoAllocatePage lsn page
  | .deallocate,lsn,page,bp => bp.redoDeallocatePage lsn page

variable {page : Nat} {lsn : LSN} {id : Int32} {operation : BufferPoolOperation} {bp bp' : DiskBufferPool} {s t : Server}
  {log : List PoolLogEntry}

theorem natOfPage (small : page < maxPageNum) : natOf (Int32.ofNat page) = page := by
  have most : maxPageNum < 2 ^ 31 := by decide
  exact natOfOfNat (by omega)

theorem replayOf {pools} (small : page < maxPageNum) (opened : pools id = some bp) :
    replay (.of lsn id operation page) pools =
      ((redo operation lsn page bp).1,update pools id (some (redo operation lsn page bp).2)) := by
  cases operation <;>
    simp [replay,PoolLogEntry.of,BufferPoolLogEntry.ofBytesBytes,getBufferPool,bindApply,opened,onPool,redo,natOfPage small,
      BufferPoolOperation.typeId]

/-- Redo takes every header that equals the live one before the call to the live one after
it. The LSN follows, except where a page of the file is used again. -/
def Redone (operation : BufferPoolOperation) (lsn : LSN) (page : Nat) (bp bp' : DiskBufferPool) : Prop :=
  ∀ old : DiskBufferPool, old.fileHeader = bp.fileHeader → old.lsn < lsn →
    ∃ new, redo operation lsn page old = (.ok (),new) ∧ new.fileHeader = bp'.fileHeader ∧
      (new.lsn = lsn ∨ new.lsn = old.lsn ∧ operation = .allocate ∧ page < old.fileHeader.pageCount ∧ new = old.setBit page)

theorem redoneAllocate (ok : HeaderOk bp.fileHeader) (run : bp.allocatePage (some lsn) .success = (.ok page,bp')) :
    HeaderOk bp'.fileHeader ∧ bp'.lsn = lsn ∧ page < maxPageNum ∧ Redone .allocate lsn page bp bp' := by
  have kept := (allocateStep ok (some lsn) .success).1
  rw [run] at kept
  refine ⟨kept,?_⟩
  unfold allocatePage at run
  split at run
  · rename_i found
    cases run
    obtain ⟨less,clear⟩ := BPFileHeader.freePageClear found
    refine ⟨rfl,less.trans_le ok.fits,?_⟩
    intro old same older
    rw [← same] at less clear
    refine ⟨old.setBit page,?_,by simp [setBit,setLsn,same],.inr ⟨rfl,rfl,less,rfl⟩⟩
    simp [redo,redoAllocatePage,not_le.mpr older,less,clear]
  · split at run
    · cases run
    · rename_i room
      cases run
      refine ⟨rfl,by omega,?_⟩
      intro old same older
      refine ⟨((old.setBit bp.fileHeader.pageCount).extend).setLsn lsn,?_,?_,.inl rfl⟩
      · simp [redo,redoAllocatePage,not_le.mpr older,same,room]
      · simp [DiskBufferPool.setBit,DiskBufferPool.setLsn,DiskBufferPool.extend,same]

theorem redoneDispose (ok : HeaderOk bp.fileHeader)
    (allocated : bp.fileHeader.bitmap page = true) (run : bp.disposePage (some lsn) page = (.ok (),bp')) :
    HeaderOk bp'.fileHeader ∧ bp'.lsn = lsn ∧ page < maxPageNum ∧ Redone .deallocate lsn page bp bp' := by
  have inside := ok.inside allocated
  unfold disposePage at run
  split at run
  · cases run
  · rename_i other
    cases run
    refine ⟨ok.clearBit other allocated,rfl,inside.trans_le ok.fits,?_⟩
    intro old same older
    refine ⟨(old.clearBit page).setLsn lsn,?_,?_,.inl rfl⟩
    · simp [redo,redoDeallocatePage,not_le.mpr older,same,not_le.mpr inside,allocated]
    · simp [clearBit,setLsn,same]

theorem liveStepFacts {entry} (ok : s.Ok) (step : LiveStep s entry t) :
    t.Ok ∧ s.current < entry.lsn ∧ t.current = entry.lsn ∧
    ∃ id bp bp' operation page, entry = .of entry.lsn id operation page ∧ s.pools id = some bp ∧
      t.pools = update s.pools id (some bp') ∧ bp'.lsn = entry.lsn ∧ page < maxPageNum ∧
      Redone operation entry.lsn page bp bp' := by
  have opened : ∀ {id : Int32} {bp' : DiskBufferPool} {lsn : LSN}, s.current < lsn → HeaderOk bp'.fileHeader → bp'.lsn = lsn →
      Server.Ok ⟨update s.pools id (some bp'),lsn⟩ := by
    intro id bp' lsn newer good last i b found
    dsimp only at found ⊢
    by_cases same : i = id
    · subst same
      rw [update_self] at found
      cases found
      exact ⟨good,last.le⟩
    · rw [update_of_ne same] at found
      obtain ⟨header,older⟩ := ok i b found
      exact ⟨header,older.trans newer.le⟩
  cases step with
  | allocatePage found newer run =>
    obtain ⟨good,last,small,redone⟩ := redoneAllocate (ok _ _ found).1 run
    exact ⟨opened newer good last,newer,rfl,_,_,_,_,_,rfl,found,rfl,last,small,redone⟩
  | disposePage found newer allocated run =>
    obtain ⟨good,last,small,redone⟩ := redoneDispose (ok _ _ found).1 allocated run
    exact ⟨opened newer good last,newer,rfl,_,_,_,_,_,rfl,found,rfl,last,small,redone⟩

theorem decodedOf (lsn : LSN) (i : Int32) (operation : BufferPoolOperation) (page : Nat) :
    BufferPoolLogEntry.ofBytes (PoolLogEntry.of lsn i operation page).payload = some ⟨i,operation.typeId,Int32.ofNat page⟩ :=
  BufferPoolLogEntry.ofBytesBytes _

theorem liveStepOf (ok : s.Ok) (small : page < maxPageNum) (step : LiveStep s (.of lsn id operation page) t) :
    s.current < lsn ∧ t.current = lsn ∧ ∃ bp bp', s.pools id = some bp ∧
      t.pools = update s.pools id (some bp') ∧ bp'.lsn = lsn ∧ Redone operation lsn page bp bp' := by
  obtain ⟨-,newer,last,i,bp,bp',operation',page',form,opened,pools,stamped,small',redone⟩ := liveStepFacts ok step
  have same := decodedOf lsn id operation page
  rw [form,decodedOf,some.injEq,BufferPoolLogEntry.mk.injEq] at same
  obtain ⟨rfl,kind,number⟩ := same
  have samePage : page' = page := by
    rw [← natOfPage small,← natOfPage small',number]
  have sameKind : operation' = operation := by
    cases operation <;> cases operation' <;> first | rfl | cases kind
  subst samePage sameKind
  exact ⟨newer,last,bp,bp',opened,pools,stamped,redone⟩

theorem liveOk (ok : s.Ok) (live : Live s log t) : t.Ok := by
  induction live with
  | done s => exact ok
  | step first next ih => exact ih (liveStepFacts ok first).1

theorem liveLsn {b} (ok : s.Ok) (live : Live s log t)
    (found : s.pools id = some b) : ∃ bp, t.pools id = some bp ∧ b.lsn ≤ bp.lsn := by
  induction live generalizing b with
  | done s => exact ⟨b,found,le_refl _⟩
  | @step s t u entry rest first next ih =>
    obtain ⟨okT,newer,-,i,bp,bp',operation,page,-,opened,pools,last,-⟩ := liveStepFacts ok first
    by_cases same : i = id
    · subst same
      obtain ⟨final,atU,le⟩ := ih okT (b := bp') (by rw [pools,update_self])
      rw [opened] at found
      cases found
      have older := (ok _ _ opened).2
      exact ⟨final,atU,older.trans (newer.le.trans (last.ge.trans le))⟩
    · exact ih okT (by rw [pools,update_of_ne (Ne.symm same),found])

theorem liveCurrent (ok : s.Ok) (live : Live s log t) :
    s.current ≤ t.current ∧ ∀ entry ∈ log, entry.lsn ≤ t.current := by
  induction live with
  | done s => exact ⟨le_refl _,by simp⟩
  | step first next ih =>
    obtain ⟨okT,newer,last,-⟩ := liveStepFacts ok first
    obtain ⟨le,all⟩ := ih okT
    refine ⟨newer.le.trans (last.ge.trans le),fun entry inside => ?_⟩
    rcases mem_cons.mp inside with rfl | later
    · exact last.ge.trans le
    · exact all entry later

/-- Replaying the entry on this header does nothing: it is not newer than the header, or its
page is already in use. -/
def Covered (id : Int32) (bp : DiskBufferPool) (entry : PoolLogEntry) : Prop :=
  ∀ log, BufferPoolLogEntry.ofBytes entry.payload = some log → log.bufferPoolId = id →
    entry.lsn ≤ bp.lsn ∨ log.operationType = BufferPoolOperation.allocate.typeId ∧
      natOf log.pageNum < bp.fileHeader.pageCount ∧ bp.fileHeader.bitmap (natOf log.pageNum) = true

/-- The header of a pool is the one the live run had after at least `n` entries; the entries
before are covered, although the LSN may lie behind them. -/
def Caught (s u : Server) (log : List PoolLogEntry) (id : Int32) (n : Nat) (now : Option DiskBufferPool) : Prop :=
  ∃ done rest m, log = done ++ rest ∧ n ≤ done.length ∧ Live s done m ∧ Live m rest u ∧
    now.map fileHeader = (m.pools id).map fileHeader ∧
    ∀ bp, now = some bp → bp.lsn ≤ m.current ∧ ∀ entry ∈ done, Covered id bp entry

section
variable {s u : Server} {log : List PoolLogEntry} {id : Int32}

theorem liveAppend {a b m t} (first : Live s a m) (second : Live m b t) : Live s (a ++ b) t := by
  induction first with
  | done s => exact second
  | step step next ih => exact .step step (ih second)

variable {bp : DiskBufferPool} {n page : Nat} {now : Option DiskBufferPool} {α : Type} {front back : List PoolLogEntry}
  {entry : PoolLogEntry} {lsn : LSN} {operation : BufferPoolOperation} {i : Int32} {pools : BufferPools}

theorem liveCovered {done m} (ok : s.Ok) (live : Live s done m)
    (found : m.pools id = some bp) : ∀ entry ∈ done, Covered id bp entry := by
  induction live with
  | done s => simp
  | @step s t m entry rest first next ih =>
    obtain ⟨okT,-,-,i,b,b',operation,page,form,-,pools,last,-⟩ := liveStepFacts ok first
    intro e inside
    rcases mem_cons.mp inside with rfl | later
    · intro log decoded same
      rw [form,PoolLogEntry.of,BufferPoolLogEntry.ofBytesBytes] at decoded
      cases decoded
      subst same
      obtain ⟨bp',atM,le⟩ := liveLsn okT next (by rw [pools,update_self] : t.pools i = some b')
      rw [found] at atM
      cases atM
      exact .inl (last.ge.trans le)
    · exact ih okT found e later

theorem caughtReload (caught : Caught s u log id n now) : Caught s u log id 0 (now.map reload) := by
  obtain ⟨done,rest,m,split,-,first,second,header,covered⟩ := caught
  refine ⟨done,rest,m,split,Nat.zero_le _,first,second,?_,?_⟩
  · rw [← header,Option.map_map]
    rfl
  · intro bp found
    obtain ⟨b,atB,rfl⟩ := map_eq_some_iff.mp found
    exact covered b atB

theorem splitBehind {front back done rest : List α} (same : front ++ a :: back = done ++ rest)
    (reached : front.length ≤ done.length) :
    done = front ∧ rest = a :: back ∨ ∃ more, done = front ++ a :: more ∧ back = more ++ rest := by
  rcases append_eq_append_iff.mp same with ⟨x,longer,tail⟩ | ⟨x,shorter,tail⟩
  · cases x with
    | nil => exact .inl ⟨by simpa using longer,by simpa using tail.symm⟩
    | cons b x =>
      rw [cons_append,cons.injEq] at tail
      obtain ⟨rfl,tail⟩ := tail
      exact .inr ⟨x,longer,tail⟩
  · have none : x = [] := by
      rw [shorter,length_append] at reached
      exact length_eq_zero_iff.mp (by omega)
    subst none
    exact .inl ⟨by simpa using shorter.symm,by simpa using tail⟩

theorem atEnd {all done rest : List α} (split : all = done ++ rest) (reached : all.length ≤ done.length) :
    done = all ∧ rest = [] := by
  have lengths := congrArg length split
  rw [length_append] at lengths
  have none : rest = [] := length_eq_zero_iff.mp (by omega)
  exact ⟨by rw [split,none,append_nil],none⟩

theorem liveEntry (ok : s.Ok) (live : Live s (front ++ entry :: back) u) :
    ∃ i operation page, entry = .of entry.lsn i operation page ∧ page < maxPageNum ∧ (s.pools i).isSome := by
  induction front generalizing s with
  | nil =>
    cases live with
    | step step next =>
      obtain ⟨-,-,-,i,bp,-,operation,page,form,opened,-,-,small,-⟩ := liveStepFacts ok step
      exact ⟨i,operation,page,form,small,by rw [opened]; rfl⟩
  | cons e front ih =>
    cases live with
    | step begin next =>
      obtain ⟨okT,-,-,j,b,b',-,-,-,opened,pools,-⟩ := liveStepFacts ok begin
      obtain ⟨i,operation,page,form,small,found⟩ := ih okT next
      refine ⟨i,operation,page,form,small,?_⟩
      by_cases same : i = j
      · rw [same,opened]
        rfl
      · rwa [pools,update_of_ne same] at found

theorem coveredSkips (small : page < maxPageNum) (covered : Covered id bp (.of lsn id operation page)) :
    redo operation lsn page bp = (.ok (),bp) := by
  rcases covered _ (decodedOf ..) rfl with skipped | ⟨kind,inside,set⟩
  · cases operation <;> exact if_pos skipped
  · rw [natOfPage small] at inside set
    cases operation with
    | allocate =>
      simp only [redo,redoAllocatePage]
      rw [if_pos inside,if_pos set,ite_self]
    | deallocate => cases kind

theorem caughtOther (ok : s.Ok) (small : page < maxPageNum) (other : id ≠ i)
    (caught : Caught s u (front ++ .of lsn i operation page :: back) id front.length now) :
    Caught s u (front ++ .of lsn i operation page :: back) id (front.length + 1) now := by
  obtain ⟨done,rest,m,split,reached,first,second,header,covered⟩ := caught
  rcases splitBehind split reached with ⟨rfl,rfl⟩ | ⟨more,rfl,rfl⟩
  · cases second with
    | @step _ t _ _ _ step next =>
      obtain ⟨newer,last,b,b',-,pools,-⟩ := liveStepOf (liveOk ok first) small step
      refine ⟨done ++ [.of lsn i operation page],back,t,by simp,by simp,liveAppend first (.step step (.done _)),next,?_,?_⟩
      · rw [header,pools,update_of_ne other]
      · intro bp found
        obtain ⟨older,all⟩ := covered bp found
        refine ⟨older.trans (newer.le.trans last.ge),fun entry inside => ?_⟩
        rcases mem_append.mp inside with earlier | last
        · exact all entry earlier
        · rw [mem_singleton.mp last]
          intro log decoded same
          rw [decodedOf] at decoded
          cases decoded
          exact absurd same.symm other
  · exact ⟨_,rest,m,split,by simp,first,second,header,covered⟩

theorem caughtOwn (ok : s.Ok) (small : page < maxPageNum)
    (caught : Caught s u (front ++ .of lsn id operation page :: back) id front.length (some bp)) :
    ∃ new, redo operation lsn page bp = (.ok (),new) ∧
      Caught s u (front ++ .of lsn id operation page :: back) id (front.length + 1) (some new) := by
  obtain ⟨done,rest,m,split,reached,first,second,header,covered⟩ := caught
  obtain ⟨older,all⟩ := covered bp rfl
  rcases splitBehind split reached with ⟨rfl,rfl⟩ | ⟨more,rfl,rfl⟩
  · cases second with
    | @step _ t _ _ _ step next =>
      obtain ⟨newer,last,live,live',opened,pools,-,redone⟩ := liveStepOf (liveOk ok first) small step
      rw [opened,map_some,map_some,some.injEq] at header
      obtain ⟨new,run,headerNew,stamp⟩ := redone bp header (older.trans_lt newer)
      refine ⟨new,run,done ++ [.of lsn id operation page],back,t,by simp,by simp,liveAppend first (.step step (.done _)),next,
        by rw [pools,update_self,map_some,map_some,headerNew],?_⟩
      rintro _ ⟨⟩
      have current := (liveCurrent ok first).2
      rcases stamp with stamp | ⟨stamp,rfl,inside,rfl⟩
      · -- the LSN has come as far as the entry
        refine ⟨stamp.le.trans last.ge,fun entry member log _ _ => .inl ?_⟩
        rw [stamp]
        rcases mem_append.mp member with earlier | last
        · exact (current entry earlier).trans newer.le
        · rw [mem_singleton.mp last]
          exact le_refl _
      · refine ⟨older.trans (newer.le.trans last.ge),fun entry member log decoded same => ?_⟩
        rcases mem_append.mp member with earlier | last
        · rcases all entry earlier log decoded same with skipped | ⟨kind,less,set⟩
          · exact .inl skipped
          · refine .inr ⟨kind,less,?_⟩
            simp only [setBit,BPFileHeader.setBit,update_apply]
            split
            · rfl
            · exact set
        · rw [mem_singleton.mp last,decodedOf] at decoded
          cases decoded
          refine .inr ⟨rfl,?_,?_⟩
          · rw [natOfPage small]
            exact inside
          · rw [natOfPage small]
            exact update_self ..
  · -- the header is ahead of the entry
    exact ⟨bp,coveredSkips small (all _ (by simp)),_,rest,m,split,by simp,first,second,header,
      fun b found => by cases found; exact ⟨older,all⟩⟩

theorem caughtOpen (ok : s.Ok)
    (found : (s.pools i).isSome) (caught : Caught s u (front ++ back) i n (pools i)) : ∃ bp, pools i = some bp := by
  obtain ⟨done,rest,m,-,-,first,-,header,-⟩ := caught
  obtain ⟨b,atStart⟩ := isSome_iff_exists.mp found
  obtain ⟨b',atM,-⟩ := liveLsn ok first atStart
  rw [atM] at header
  obtain ⟨bp,opened,-⟩ := map_eq_some_iff.mp header
  exact ⟨bp,opened⟩

theorem replayStep (ok : s.Ok) (live : Live s (front ++ entry :: back) u)
    (caught : ∀ id, Caught s u (front ++ entry :: back) id front.length (pools id)) :
    ∃ after, replay entry pools = (.ok (),after) ∧
      ∀ id, Caught s u (front ++ entry :: back) id (front.length + 1) (after id) := by
  obtain ⟨i,operation,page,form,small,found⟩ := liveEntry ok live
  obtain ⟨bp,opened⟩ := caughtOpen ok found (caught i)
  rw [form] at caught ⊢
  obtain ⟨new,run,own⟩ := caughtOwn ok small (opened ▸ caught i)
  refine ⟨update pools i (some new),by rw [replayOf small opened,run],fun id => ?_⟩
  by_cases same : id = i
  · subst same
    rw [update_self]
    exact own
  · rw [update_of_ne same]
    exact caughtOther ok small same (caught id)

theorem replayRun (front mid back : List PoolLogEntry) (ok : s.Ok) (live : Live s (front ++ (mid ++ back)) u)
    (caught : ∀ id, Caught s u (front ++ (mid ++ back)) id front.length (pools id)) :
    ∃ after, replayAll mid pools = (.ok (),after) ∧
      ∀ id, Caught s u (front ++ (mid ++ back)) id (front.length + mid.length) (after id) := by
  induction mid generalizing front pools with
  | nil => exact ⟨pools,rfl,caught⟩
  | cons entry mid ih =>
    rw [cons_append] at live caught ⊢
    obtain ⟨next,step,caughtNext⟩ := replayStep ok live caught
    have whole : front ++ entry :: (mid ++ back) = (front ++ [entry]) ++ (mid ++ back) := by simp
    rw [whole] at live caughtNext ⊢
    obtain ⟨after,run,caughtAfter⟩ := ih _ live (by simpa using caughtNext)
    refine ⟨after,by rw [replayAll,bindOk step,run],fun id => ?_⟩
    have final := caughtAfter id
    rwa [length_append,length_singleton,Nat.add_assoc,Nat.add_comm 1] at final

theorem imageCaught {image} (ok : s.Ok) (live : Live s log u) (taken : Image s u log image) (id : Int32) :
    Caught s u log id 0 (image id) := by
  induction taken generalizing id with
  | flushed points =>
    obtain ⟨done,rest,m,split,first,second,same⟩ := points id
    rw [same]
    refine caughtReload (n := 0) ⟨done,rest,m,split,Nat.zero_le _,first,second,rfl,fun bp found => ?_⟩
    exact ⟨(liveOk ok first id bp found).2,liveCovered ok first found⟩
  | replayed earlier points ih =>
    obtain ⟨done,rest,split,same⟩ := points id
    subst split
    obtain ⟨after,run,caught⟩ := replayRun [] done rest ok live ih
    rw [same,run]
    exact caughtReload (caught id)

theorem replayNothing (front back : List PoolLogEntry) (ok : s.Ok) (live : Live s (front ++ back) u)
    (caught : ∀ id, Caught s u (front ++ back) id (front ++ back).length (pools id)) :
    replayAll back pools = (.ok (),pools) := by
  induction back generalizing front with
  | nil => rfl
  | cons entry back ih =>
    obtain ⟨i,operation,page,form,small,found⟩ := liveEntry ok live
    obtain ⟨bp,opened⟩ := caughtOpen ok found (caught i)
    have skips : redo operation entry.lsn page bp = (.ok (),bp) := by
      obtain ⟨done,rest,m,split,reached,-,-,-,covered⟩ := caught i
      have whole : done = front ++ entry :: back := (atEnd split reached).1
      have all := (covered bp opened).2 entry (by rw [whole]; simp)
      rw [form] at all
      exact coveredSkips small all
    have step : replay entry pools = (.ok (),pools) := by
      rw [form,replayOf small opened,skips,← opened,update_eq_self]
    have shape : front ++ entry :: back = (front ++ [entry]) ++ back := by simp
    rw [shape] at live caught
    rw [replayAll,bindOk step,ih _ live caught]

end

theorem headersReplayed {s u : Server} {log : List PoolLogEntry} {image : BufferPools} (ok : s.Ok) (live : Live s log u)
    (taken : Image s u log image) :
    ∃ after, replayAll log image = (.ok (),after) ∧
      (∀ id, (after id).map fileHeader = (u.pools id).map fileHeader) ∧
      replayAll log after = (.ok (),after) := by
  obtain ⟨after,run,caught⟩ := replayRun [] log [] ok (by simpa using live) (by simpa using imageCaught ok live taken)
  simp only [nil_append,append_nil,length_nil,Nat.zero_add] at caught
  refine ⟨after,run,fun id => ?_,replayNothing [] log ok live caught⟩
  obtain ⟨done,rest,m,split,reached,-,second,header,-⟩ := caught id
  rw [(atEnd split reached).2] at second
  cases second with
  | done => exact header

def newServer : Server := ⟨fun id => if id = 1 then some (.created 1) else none,0⟩

def reuseLog : List PoolLogEntry := [.of 1 1 .allocate 1,.of 2 1 .deallocate 1,.of 3 1 .allocate 1]

theorem newServerOk : newServer.Ok := by
  intro id bp found
  simp only [newServer] at found
  split at found
  · cases found
    exact ⟨HeaderOk.created 1,le_refl _⟩
  · cases found

theorem reuseLive : ∃ u, Live newServer reuseLog u :=
  ⟨_,.step (.allocatePage rfl (by decide) rfl)
    (.step (.disposePage rfl (by decide) rfl rfl) (.step (.allocatePage rfl (by decide) rfl) (.done _)))⟩

theorem reuseReplayed : newServer.Ok ∧ ∃ u after, Live newServer reuseLog u ∧
    replayAll reuseLog (fun id => (newServer.pools id).map reload) = (.ok (),after) ∧
    (∀ id, (after id).map fileHeader = (u.pools id).map fileHeader) ∧
    replayAll reuseLog after = (.ok (),after) := by
  obtain ⟨u,live⟩ := reuseLive
  obtain ⟨after,result⟩ := headersReplayed newServerOk live
    (.flushed fun id => ⟨[],reuseLog,newServer,rfl,.done _,live,rfl⟩)
  exact ⟨newServerOk,u,after,live,result⟩

end MiniOb.Buffer
