import MiniOb.Buffer.PoolClose
import MiniOb.Clog.DiskLogHandler
import MiniOb.Lib.Runs

/-! The log and the pages that leave the buffer pool: what is flushed when, and how far the log is written by then
(`disk_buffer_pool.cpp`, `disk_log_handler.cpp`). One caller at a time uses the pools, while the log is written or stopped. -/
namespace MiniOb.Buffer
open List Option Pools

def Frame.checked (frame : Frame) : Page := { frame.page with checkSum := crc32 frame.page.data }

/-! Which frames a call flushes, one after the other. -/
namespace Pools

def evicted (id : FrameId) (pools : Pools) : List Frame := match pools.manager.alloc id with
  | some _ => []
  | none => pools.manager.victim.toList.filter Frame.dirty

def purged (id : FrameId) (pools : Pools) : List Frame :=
  (pools.manager.find id).toList.filter fun frame => frame.pinCount = 1 ∧ frame.dirty = true

def gotten (order : Order) (id : FrameId) (pools : Pools) : List Frame := match pools.manager.find id with
  | some _ => []
  | none => pools.evicted id ++ match pools.allocateFrame order id with
    | none => []
    | some framed => match framed.loadPage id with
      | some _ => []
      | none => framed.purged id

def extended (lsn : Int64) (pool : Int32) (bp : DiskBufferPool) (framed : Pools) : Pools :=
  let id : FrameId := ⟨pool,Int32.ofNat bp.fileHeader.pageCount⟩
  let grown := framed.writeFrame (headerId pool) (((bp.setBit bp.fileHeader.pageCount).extend).content lsn)
  { grown with manager := grown.manager.update id fun frame => { frame with page := Content.zero.page 0 } }

def allocated (order : Order) (lsn : Int64) (grown : Bool) (pool : Int32) (pools : Pools) : List Frame :=
  match pools.manager.find (headerId pool) with
  | none => []
  | some header =>
    let bp := header.page.content.pool
    match bp.freePage with
    | some page =>
      let id : FrameId := ⟨pool,Int32.ofNat page⟩
      ((pools.writeFrame (headerId pool) ((bp.setBit page).content lsn)).growOver grown id).gotten order id
    | none =>
      if maxPageNum ≤ bp.fileHeader.pageCount then []
      else
        let id : FrameId := ⟨pool,Int32.ofNat bp.fileHeader.pageCount⟩
        pools.evicted id ++ match pools.allocateFrame order id with
          | none => []
          | some framed => ((extended lsn pool bp framed).manager.find id).toList

def flushedAll (order : Order) : List FrameId → Pools → List Frame
  | [],_ => []
  | id :: rest,pools => (pools.manager.find id).toList ++ flushedAll order rest (pools.flushPage order id)

def purgedAll (order : Order) : List FrameId → Pools → List Frame
  | [],_ => []
  | id :: rest,pools => pools.purged id ++ purgedAll order rest (pools.purgeFrame order id)

end Pools

inductive FlushCall where
  | poolCall (call : PoolCall)
  | closeFile (pool : Int32)

namespace FlushCall

def flushed (order : Order) (pools : Pools) : FlushCall → List Frame
  | poolCall (.allocatePage pool lsn grown) => pools.allocated order lsn grown pool
  | poolCall (.getThisPage id grown) => (pools.growOver grown id).gotten order id
  | poolCall (.modify _ _) => []
  | poolCall (.unpin _) => []
  | poolCall (.flushPage id) => if 0 < pools.held id then (pools.manager.find id).toList else []
  | poolCall (.flushAllPages pool) => pools.flushedAll order (pools.poolIds pool)
  | poolCall (.purgePage id) => match pools.manager.get id with
    | some manager => { pools with manager := manager }.purged id
    | none => []
  | closeFile pool =>
    let unpinned := { pools with manager := pools.manager.update (headerId pool) fun frame =>
      { frame with pinCount := frame.pinCount - 1 } }
    { unpinned with manager := unpinned.manager.pinAll pool }.purgedAll order (unpinned.poolIds pool)

def apply (order : Order) (pools : Pools) : FlushCall → Option Pools
  | poolCall call => (call.apply order pools).map Prod.snd
  | closeFile pool => some (pools.closeFile order pool)

def logs (pools : Pools) : FlushCall → Bool
  | poolCall (.allocatePage pool _ _) => match pools.manager.find (headerId pool) with
    | none => false
    | some header => header.page.content.pool.freePage.isSome || header.page.content.pool.fileHeader.pageCount < maxPageNum
  | poolCall (.modify id _) => 0 < pools.held id ∧ id.pageNum ≠ 0
  | _ => false

def withLsn (lsn : Int) : FlushCall → FlushCall
  | poolCall (.allocatePage pool _ grown) => poolCall (.allocatePage pool (Int64.ofInt lsn) grown)
  | poolCall (.modify id content) => poolCall (.modify id { content with lsn := Int64.ofInt lsn })
  | call => call

end FlushCall

/-! The log. -/

structure LogState where
  currentLsn : Int
  flushedLsn : Int
  running : Bool

/-- What becomes of the log while a caller waits: so many entries are written, and it may be stopped. -/
structure Meanwhile where
  entries : Nat
  stopped : Bool

namespace LogState

def advance (meanwhile : Meanwhile) (log : LogState) : LogState :=
  { log with
    flushedLsn := max log.flushedLsn (min (log.flushedLsn + meanwhile.entries) log.currentLsn)
    running := log.running && !meanwhile.stopped }

/-- None when the wait does not end. -/
def waitLsn (lsn : Int) (meanwhile : Meanwhile) (log : LogState) : Option (RC × LogState) :=
  let after := log.advance meanwhile
  if lsn ≤ after.flushedLsn then some (.success,after)
  else if after.running = true then none
  else some (.internal,after)

def append (log : LogState) : LogState := { log with currentLsn := log.currentLsn + 1 }

end LogState

structure Departure where
  lsn : Int
  flushedLsn : Int

def storedLsns (writes : List Write) : List Int := writes.filterMap fun
  | .page _ bytes => (readPage bytes).map fun page => page.lsn.toInt
  | _ => none

structure Leaving where
  dblwr : DiskDoubleWriteBuffer
  log : LogState
  departures : List Departure

namespace Leaving

def store (writes : List Write) (s : Leaving) : Leaving :=
  { s with departures := s.departures ++ (storedLsns writes).map fun lsn => ⟨lsn,s.log.flushedLsn⟩ }

/-- `flush_page_internal`: what the wait returns is dropped. -/
def flush (order : Order) (meanwhile : Meanwhile) (frame : Frame) (s : Leaving) : Option Leaving :=
  (s.log.waitLsn frame.page.lsn.toInt meanwhile).map fun answer =>
    let (writes,dblwr) := s.dblwr.addPage order frame.id frame.checked
    store writes ⟨dblwr,answer.2,s.departures ++ [⟨frame.page.lsn.toInt,answer.2.flushedLsn⟩]⟩

def flushEach (order : Order) : List Meanwhile → List Frame → Leaving → Option Leaving
  | _,[],s => some s
  | waits,frame :: rest,s => (s.flush order (waits.headD ⟨0,false⟩) frame).bind fun t => flushEach order waits.tail rest t

end Leaving

structure Wal where
  pools : Pools
  log : LogState
  departures : List Departure

inductive WalStep where
  | call (order : Order) (call : FlushCall) (waits : List Meanwhile)
  | log (meanwhile : Meanwhile)

namespace Wal

def logAt (call : FlushCall) (s : Wal) : LogState := if call.logs s.pools then s.log.append else s.log

def leaving (call : FlushCall) (s : Wal) : Leaving := ⟨s.pools.dblwr,s.logAt call,s.departures⟩

def cleared (call : FlushCall) (s : Leaving) : Leaving := match call with
  | .closeFile pool => s.store (s.dblwr.clearPages pool).1
  | _ => s

def step (s : Wal) : WalStep → Option Wal
  | .call order call waits => do
    let logged := call.withLsn (s.log.currentLsn + 1)
    let pools ← logged.apply order s.pools
    let left ← (s.leaving call).flushEach order waits (logged.flushed order s.pools)
    some ⟨pools,left.log,(cleared call left).departures⟩
  | .log meanwhile => some { s with log := s.log.advance meanwhile }

def LogFirst (s : Wal) : Prop := ∀ departure ∈ s.departures, departure.lsn ≤ departure.flushedLsn

end Wal

/-! ### The flushes of a call are those of the pools -/

def DiskDoubleWriteBuffer.addFrames (order : Order) (frames : List Frame) (dblwr : DiskDoubleWriteBuffer) : DiskDoubleWriteBuffer :=
  frames.foldl (fun dblwr frame => (dblwr.addPage order frame.id frame.checked).2) dblwr

namespace Pools
variable {order : Order} {id : FrameId} {pools : Pools}

theorem addFramesAppend (first second : List Frame) (dblwr : DiskDoubleWriteBuffer) :
    dblwr.addFrames order (first ++ second) = (dblwr.addFrames order first).addFrames order second := foldl_append

theorem freeFrameDblwr : (pools.freeFrame id).dblwr = pools.dblwr := by
  unfold freeFrame
  split
  · rfl
  · rfl

theorem flushDirtyDblwr (frame : Frame) :
    (pools.flushDirty order frame).dblwr = pools.dblwr.addFrames order ([frame].filter Frame.dirty) := by
  unfold flushDirty
  cases dirty : frame.dirty with
  | true =>
    rw [if_pos rfl,filter_cons_of_pos dirty]
    rfl
  | false =>
    rw [if_neg (by decide),filter_cons_of_neg (by simp [dirty])]
    rfl

theorem allocateFrameDblwr (ran : pools.allocateFrame order id = some framed) :
    framed.dblwr = pools.dblwr.addFrames order (pools.evicted id) := by
  unfold allocateFrame at ran
  unfold evicted
  cases allocated : pools.manager.alloc id with
  | some manager =>
    rw [allocated] at ran
    cases ran
    rfl
  | none =>
    rw [allocated] at ran
    cases picked : pools.manager.victim with
    | none =>
      rw [picked] at ran
      cases ran
    | some frame =>
      rw [picked] at ran
      obtain ⟨manager,_,rfl⟩ := map_eq_some_iff.mp ran
      rw [freeFrameDblwr,flushDirtyDblwr]
      rfl

theorem purgeFrameDblwr : (pools.purgeFrame order id).dblwr = pools.dblwr.addFrames order (pools.purged id) := by
  unfold purgeFrame purged
  cases pools.manager.find id with
  | none => rfl
  | some frame =>
    dsimp only
    split
    · rename_i pinned
      simp [pinned]
      rfl
    · rename_i single
      rw [freeFrameDblwr,flushDirtyDblwr]
      have same : [frame].filter (fun frame => frame.pinCount = 1 ∧ frame.dirty = true) = [frame].filter Frame.dirty := by
        cases dirty : frame.dirty with
        | true => simp [not_not.mp single,dirty]
        | false => simp [dirty]
      rw [toList_some,same]

theorem flushPageDblwr : (pools.flushPage order id).dblwr = pools.dblwr.addFrames order (pools.manager.find id).toList := by
  unfold flushPage
  cases pools.manager.find id with
  | none => rfl
  | some frame => rfl

theorem growOverDblwr (grown : Bool) : (pools.growOver grown id).dblwr = pools.dblwr := by
  unfold growOver
  split
  · rfl
  · rfl

theorem getDblwr {answer after} (ran : pools.getThisPage order id = some (answer,after)) :
    after.dblwr = pools.dblwr.addFrames order (pools.gotten order id) := by
  unfold getThisPage at ran
  unfold gotten
  cases found : pools.manager.find id with
  | some frame =>
    rw [found,BPFrameManager.getFound found] at ran
    cases ran
    rfl
  | none =>
    rw [found,BPFrameManager.getNone found] at ran
    obtain ⟨framed,took,same⟩ := map_eq_some_iff.mp ran
    rw [took,addFramesAppend,← allocateFrameDblwr took]
    dsimp only
    cases loaded : framed.loadPage id with
    | some page =>
      rw [loaded] at same
      cases same
      rfl
    | none =>
      rw [loaded] at same
      cases same
      exact purgeFrameDblwr

theorem allocatePageDblwr {lsn grown pool answer after}
    (ran : pools.allocatePage order lsn grown pool = some (answer,after)) :
    after.dblwr = pools.dblwr.addFrames order (pools.allocated order lsn grown pool) := by
  unfold allocatePage at ran
  unfold allocated
  cases found : pools.manager.find (headerId pool) with
  | none =>
    rw [found] at ran
    cases ran
  | some header =>
    rw [found] at ran
    dsimp only at ran ⊢
    cases free : header.page.content.pool.freePage with
    | some page =>
      rw [free] at ran
      rw [getDblwr ran,growOverDblwr]
      rfl
    | none =>
      rw [free] at ran
      dsimp only at ran ⊢
      split at ran
      · rename_i full
        rw [if_pos full]
        cases ran
        rfl
      · rename_i room
        rw [if_neg room]
        obtain ⟨framed,took,same⟩ := map_eq_some_iff.mp ran
        rw [took,addFramesAppend,← allocateFrameDblwr took]
        unfold extended
        dsimp only
        split at same
        · rename_i absent
          rw [absent]
          cases same
          rfl
        · rename_i frame here
          rw [here]
          cases same
          rfl

theorem flushedAllDblwr (ids : List FrameId) :
    (ids.foldl (fun pools id => pools.flushPage order id) pools).dblwr = pools.dblwr.addFrames order (pools.flushedAll order ids) := by
  induction ids generalizing pools with
  | nil => rfl
  | cons id rest ih => rw [foldl_cons,ih,flushedAll,addFramesAppend,flushPageDblwr]

theorem purgedAllDblwr (ids : List FrameId) :
    (ids.foldl (fun pools id => pools.purgeFrame order id) pools).dblwr = pools.dblwr.addFrames order (pools.purgedAll order ids) := by
  induction ids generalizing pools with
  | nil => rfl
  | cons id rest ih => rw [foldl_cons,ih,purgedAll,addFramesAppend,purgeFrameDblwr]

end Pools

namespace FlushCall

def clearedBuffer (dblwr : DiskDoubleWriteBuffer) : FlushCall → DiskDoubleWriteBuffer
  | closeFile pool => (dblwr.clearPages pool).2
  | _ => dblwr

theorem applyDblwr {order} {call : FlushCall} {pools after} (ran : call.apply order pools = some after) :
    after.dblwr = call.clearedBuffer (pools.dblwr.addFrames order (call.flushed order pools)) := by
  cases call with
  | closeFile pool =>
    cases ran
    unfold Pools.closeFile clearedBuffer flushed Pools.purgeAllPages
    dsimp only
    rw [purgedAllDblwr]
  | poolCall call =>
    obtain ⟨⟨answer,same⟩,applied,rfl⟩ := map_eq_some_iff.mp ran
    cases call with
    | allocatePage pool lsn grown =>
      unfold PoolCall.apply at applied
      dsimp only at applied
      split at applied
      · obtain ⟨pair,allocated,both⟩ := map_eq_some_iff.mp applied
        cases both
        exact allocatePageDblwr allocated
      · cases applied
    | getThisPage id grown =>
      obtain ⟨pair,got,both⟩ := map_eq_some_iff.mp applied
      cases both
      rw [getDblwr got,growOverDblwr]
      rfl
    | modify id content =>
      cases applied
      split
      · rfl
      · rfl
    | unpin id =>
      cases applied
      split
      · rfl
      · rfl
    | flushPage id =>
      cases applied
      unfold flushed clearedBuffer
      dsimp only
      split
      · exact flushPageDblwr
      · rfl
    | flushAllPages pool =>
      cases applied
      exact flushedAllDblwr _
    | purgePage id =>
      cases applied
      unfold purgePage flushed clearedBuffer
      dsimp only
      cases pools.manager.get id with
      | some manager => exact purgeFrameDblwr
      | none => rfl

end FlushCall

/-! ### Waiting for the log -/

namespace LogState
variable {log : LogState}

theorem advanceLe (meanwhile : Meanwhile) : log.flushedLsn ≤ (log.advance meanwhile).flushedLsn := by
  show log.flushedLsn ≤ max _ _
  omega

theorem waitAfter (ended : log.waitLsn lsn meanwhile = some answer) : answer.2 = log.advance meanwhile := by
  unfold waitLsn at ended
  dsimp only at ended
  split at ended
  · cases ended
    rfl
  · split at ended
    · cases ended
    · cases ended
      rfl

/-- An entry up to `lsn` is neither written already nor among those that are written meanwhile. -/
def Unwritten (lsn : Int) (meanwhile : Meanwhile) (log : LogState) : Prop :=
  log.flushedLsn < lsn ∧ (log.currentLsn < lsn ∨ log.flushedLsn + meanwhile.entries < lsn)

def Stopped (meanwhile : Meanwhile) (log : LogState) : Prop := log.running = false ∨ meanwhile.stopped = true

/-- The log is not stopped while an entry up to `lsn` is unwritten. -/
def Outlasts (lsn : Int) (meanwhile : Meanwhile) (log : LogState) : Prop :=
  log.Stopped meanwhile → ¬log.Unwritten lsn meanwhile

theorem outlastsIff (ended : log.waitLsn lsn meanwhile = some answer) :
    log.Outlasts lsn meanwhile ↔ lsn ≤ answer.2.flushedLsn := by
  have reached : lsn ≤ (log.advance meanwhile).flushedLsn ↔ ¬log.Unwritten lsn meanwhile := by
    unfold Unwritten
    show lsn ≤ max _ (min _ _) ↔ _
    omega
  rw [waitAfter ended,reached]
  refine ⟨fun outlasts unwritten => ?_,fun written _ => written⟩
  -- the wait has ended short of the entry, so the log does not run
  unfold waitLsn at ended
  dsimp only at ended
  rw [if_neg fun before => reached.mp before unwritten] at ended
  split at ended
  · cases ended
  · rename_i still
    refine outlasts ?_ unwritten
    unfold Stopped
    simpa [advance,imp_iff_not_or] using still

/-- The waits before the frames are flushed, one after the other. -/
def OutlastsAll : List Meanwhile → List Frame → LogState → Prop
  | _,[],_ => True
  | waits,frame :: rest,log => log.Outlasts frame.page.lsn.toInt (waits.headD ⟨0,false⟩) ∧
      OutlastsAll waits.tail rest (log.advance (waits.headD ⟨0,false⟩))

def ofHandler (running : Bool) (handler : Clog.DiskLogHandler) : LogState :=
  ⟨handler.buffer.currentLsn,handler.buffer.flushedLsn,running⟩

structure Waiting (buffer : Clog.LogEntryBuffer) : Prop where
  count : buffer.currentLsn = buffer.flushedLsn + buffer.entries.length
  numbered : ∀ (i : Nat) entry, buffer.entries[i]? = some entry → entry.lsn = buffer.flushedLsn + i + 1

theorem handlerAppends (waiting : Waiting handler.buffer) (running : Bool) (moduleId : Int32)
    (fits : payload.length ≤ Clog.maxPayloadSize) :
    Waiting (handler.append moduleId payload).buffer ∧
      ofHandler running (handler.append moduleId payload) = (ofHandler running handler).append := by
  have entries : (handler.append moduleId payload).buffer = { handler.buffer with
      currentLsn := handler.buffer.currentLsn + 1
      entries := handler.buffer.entries ++ [⟨handler.buffer.currentLsn + 1,moduleId,payload⟩] } := by
    unfold Clog.DiskLogHandler.append Clog.LogEntryBuffer.append
    rw [if_neg (Nat.not_lt.mpr fits)]
  rw [ofHandler,entries]
  refine ⟨⟨?_,fun i entry found => ?_⟩,rfl⟩
  · have count := waiting.count
    show handler.buffer.currentLsn + 1 = handler.buffer.flushedLsn + ((handler.buffer.entries ++ [_]).length : Nat)
    rw [length_append,length_singleton]
    omega
  · rcases Nat.lt_or_ge i handler.buffer.entries.length with old | new
    · exact waiting.numbered i entry (List.getElem?_append_left old ▸ found)
    · rw [List.getElem?_append_right new] at found
      obtain ⟨bound,rfl⟩ := List.getElem?_eq_some_iff.mp found
      have count := waiting.count
      simp at bound ⊢
      omega

theorem threadAdvances {handler next} (waiting : Waiting handler.buffer) (running : Bool)
    (ran : handler.threadStep = .ok next) :
    Waiting next.buffer ∧ ∃ entries, ofHandler running next = (ofHandler running handler).advance ⟨entries,false⟩ := by
  have idle : ofHandler running handler = (ofHandler running handler).advance ⟨0,false⟩ := by
    simp [ofHandler,advance]
  unfold Clog.DiskLogHandler.threadStep at ran
  split at ran
  · cases ran
    exact ⟨waiting,0,idle⟩
  · unfold Clog.LogEntryBuffer.flushEntry at ran
    cases here : handler.buffer.entries with
    | nil =>
      rw [here] at ran
      cases ran
      exact ⟨waiting,0,idle⟩
    | cons entry rest =>
      rw [here] at ran
      dsimp only at ran
      split at ran
      · rename_i found
        split at found
        · split at found
          · cases found
            cases ran
            have first := waiting.numbered 0 entry (by rw [here]; rfl)
            have count := waiting.count
            rw [here,length_cons] at count
            refine ⟨⟨?_,fun i later inside => ?_⟩,1,?_⟩
            · show handler.buffer.currentLsn = entry.lsn + rest.length
              omega
            · have lsn := waiting.numbered (i + 1) later (by rw [here]; exact inside)
              show later.lsn = entry.lsn + i + 1
              omega
            · simp only [ofHandler,advance,mk.injEq,Bool.not_false,Bool.and_true,and_true,true_and]
              omega
          · cases found
            cases ran
            exact ⟨waiting,0,idle⟩
        · cases found
      · cases ran

open Clog.LogCall

theorem runWaiting (calls : List Clog.LogCall) (waiting : Waiting handler.buffer) : Waiting (run calls handler).buffer := by
  induction calls generalizing handler with
  | nil => exact waiting
  | cons call rest ih =>
    cases call with
    | append moduleId payload =>
      rw [run]
      by_cases long : Clog.maxPayloadSize < payload.length
      · rw [Clog.DiskLogHandler.append,Clog.LogEntryBuffer.append,if_pos long]
        exact ih waiting
      · exact ih (handlerAppends waiting true moduleId (Nat.not_lt.mp long)).1
    | thread =>
      rw [run]
      cases ran : handler.threadStep with
      | error exit => exact waiting
      | ok next => exact ih (threadAdvances waiting true ran).1

theorem lsnsWithoutGap (calls max lsn listing) :
    Waiting (run calls (.started max lsn listing)).buffer :=
  runWaiting calls ⟨(Int.add_zero lsn).symm,fun i entry found => by cases found⟩

end LogState

def DiskDoubleWriteBuffer.Covered (flushedLsn : Int) (dblwr : DiskDoubleWriteBuffer) : Prop :=
  ∀ page ∈ dblwr.pages, page.page.lsn.toInt ≤ flushedLsn

section
variable {dblwr : DiskDoubleWriteBuffer} {flushedLsn : Int} {order : Order}

theorem DiskDoubleWriteBuffer.Covered.mono (covered : dblwr.Covered flushedLsn) (le : flushedLsn ≤ later) :
    dblwr.Covered later := fun page inside => (covered page inside).trans le

theorem storedAppend (first second : List Write) : storedLsns (first ++ second) = storedLsns first ++ storedLsns second :=
  filterMap_append

theorem storedFlush (covered : dblwr.Covered flushedLsn) : ∀ lsn ∈ storedLsns (dblwr.flushPage order).1, lsn ≤ flushedLsn := by
  intro lsn inside
  obtain ⟨write,written,found⟩ := mem_filterMap.mp inside
  obtain ⟨page,walked,made⟩ := mem_flatMap.mp written
  have member : page ∈ dblwr.pages := (order.2 _).mem_iff.mp walked
  rcases mem_append.mp made with home | slot
  · unfold DiskDoubleWriteBuffer.writePage at home
    split at home
    · obtain rfl := mem_singleton.mp home
      simp only [readPageBytes,map_some] at found
      cases found
      exact covered page member
    · cases home
  · obtain rfl := mem_singleton.mp slot
    cases found

theorem addCovered (covered : dblwr.Covered flushedLsn) (key : DoubleWritePageKey) (logged : page.lsn.toInt ≤ flushedLsn) :
    (∀ lsn ∈ storedLsns (dblwr.addPage order key page).1, lsn ≤ flushedLsn) ∧ (dblwr.addPage order key page).2.Covered flushedLsn := by
  unfold DiskDoubleWriteBuffer.addPage
  cases found : dblwr.find key with
  | some old =>
    refine ⟨fun lsn inside => (by cases inside),fun other inside => ?_⟩
    obtain ⟨before,member,image⟩ := mem_map.mp inside
    split at image
    · subst image
      exact logged
    · subst image
      exact covered _ member
  | none =>
    have added : ∀ count, DiskDoubleWriteBuffer.Covered flushedLsn
        { dblwr with pageCnt := count, pages := dblwr.pages ++ [⟨key,dblwr.pages.length,true,page⟩] } := by
      intro count other inside
      rcases mem_append.mp inside with old | new
      · exact covered other old
      · obtain rfl := mem_singleton.mp new
        exact logged
    dsimp only
    split
    · refine ⟨fun lsn inside => ?_,fun other inside => (by cases inside)⟩
      rw [storedAppend] at inside
      rcases mem_append.mp inside with lead | flushed
      · split at lead
        · cases lead
        · cases lead
      · exact storedFlush (added _) lsn flushed
    · refine ⟨fun lsn inside => ?_,added _⟩
      split at inside
      · cases inside
      · cases inside

theorem clearCovered (covered : dblwr.Covered flushedLsn) (pool : Int32) :
    (∀ lsn ∈ storedLsns (dblwr.clearPages pool).1, lsn ≤ flushedLsn) ∧ (dblwr.clearPages pool).2.Covered flushedLsn := by
  refine ⟨fun lsn inside => ?_,fun page inside => covered page (mem_filter.mp inside).1⟩
  obtain ⟨write,written,found⟩ := mem_filterMap.mp inside
  obtain ⟨page,sorted,made⟩ := mem_flatMap.mp written
  have member : page ∈ dblwr.pages := (mem_filter.mp (mem_mergeSort.mp sorted)).1
  rcases mem_pair.mp made with rfl | rfl
  · simp only [readPageBytes,map_some] at found
    cases found
    exact covered page member
  · cases found

end

namespace Leaving
variable {order : Order} {meanwhile : Meanwhile} {frame : Frame} {s t : Leaving}

def AllLogged (s : Leaving) : Prop := ∀ departure ∈ s.departures, departure.lsn ≤ departure.flushedLsn

theorem storeLogged (logged : s.AllLogged) (stored : ∀ lsn ∈ storedLsns writes, lsn ≤ s.log.flushedLsn) :
    (s.store writes).AllLogged := by
  intro departure inside
  rcases mem_append.mp inside with before | now
  · exact logged departure before
  · obtain ⟨lsn,member,rfl⟩ := mem_map.mp now
    exact stored lsn member

theorem flushCases (ran : s.flush order meanwhile frame = some t) :
    t.dblwr = s.dblwr.addFrames order [frame] ∧ t.log = s.log.advance meanwhile ∧ (∀ d ∈ s.departures, d ∈ t.departures) ∧
    (s.log.Outlasts frame.page.lsn.toInt meanwhile → s.dblwr.Covered s.log.flushedLsn → s.AllLogged →
      t.dblwr.Covered t.log.flushedLsn ∧ t.AllLogged) ∧
    (¬s.log.Outlasts frame.page.lsn.toInt meanwhile → ¬t.AllLogged) := by
  obtain ⟨answer,ended,rfl⟩ := map_eq_some_iff.mp ran
  have after := LogState.waitAfter ended
  have waits := LogState.outlastsIff ended
  refine ⟨rfl,after,fun d inside => ?_,fun waited covered logged => ?_,fun failed => ?_⟩
  · exact mem_append_left _ (mem_append_left _ inside)
  · have reached := waits.mp waited
    have later : s.dblwr.Covered answer.2.flushedLsn := covered.mono (after ▸ s.log.advanceLe meanwhile)
    have both : (∀ lsn ∈ storedLsns (s.dblwr.addPage order frame.id frame.checked).1, lsn ≤ answer.2.flushedLsn) ∧
        (s.dblwr.addPage order frame.id frame.checked).2.Covered answer.2.flushedLsn := addCovered later frame.id reached
    obtain ⟨stored,kept⟩ := both
    refine ⟨kept,storeLogged (fun d inside => ?_) stored⟩
    rcases mem_append.mp inside with before | now
    · exact logged d before
    · obtain rfl := mem_singleton.mp now
      exact reached
  · intro logged
    refine failed (waits.mpr (logged ⟨frame.page.lsn.toInt,answer.2.flushedLsn⟩ ?_))
    exact mem_append_left _ (mem_append_right _ (mem_singleton_self _))

theorem flushEachCases (ran : s.flushEach order waits frames = some t) :
    t.dblwr = s.dblwr.addFrames order frames ∧ s.log.flushedLsn ≤ t.log.flushedLsn ∧ (∀ d ∈ s.departures, d ∈ t.departures) ∧
    (s.log.OutlastsAll waits frames → s.dblwr.Covered s.log.flushedLsn → s.AllLogged →
      t.dblwr.Covered t.log.flushedLsn ∧ t.AllLogged) ∧
    (¬s.log.OutlastsAll waits frames → ¬t.AllLogged) := by
  induction frames generalizing s waits with
  | nil =>
    cases ran
    exact ⟨rfl,le_refl _,fun _ inside => inside,fun _ covered logged => ⟨covered,logged⟩,fun not => absurd trivial not⟩
  | cons frame rest ih =>
    obtain ⟨mid,first,later⟩ := bind_eq_some_iff.mp ran
    obtain ⟨buffer,log,grown,fine,bad⟩ := flushCases first
    obtain ⟨bufferLater,logLater,grownLater,fineLater,badLater⟩ := ih later
    refine ⟨?_,?_,fun d inside => grownLater d (grown d inside),fun waited covered logged => ?_,fun failed logged => ?_⟩
    · rw [bufferLater,buffer]
      rfl
    · exact (log ▸ s.log.advanceLe _).trans logLater
    · obtain ⟨coveredMid,loggedMid⟩ := fine waited.1 covered logged
      exact fineLater (log ▸ waited.2) coveredMid loggedMid
    · by_cases one : s.log.Outlasts frame.page.lsn.toInt (waits.headD ⟨0,false⟩)
      · exact badLater (fun others => failed ⟨one,log ▸ others⟩) logged
      · exact bad one fun d inside => logged d (grownLater d inside)

end Leaving

namespace Wal
variable {s t : Wal}

def Waits (s : Wal) : WalStep → Prop
  | .call order call waits =>
    (s.logAt call).OutlastsAll waits ((call.withLsn (s.log.currentLsn + 1)).flushed order s.pools)
  | .log _ => True

structure Inv (s : Wal) : Prop where
  covered : s.pools.dblwr.Covered s.log.flushedLsn
  logFirst : s.LogFirst

theorem logAtFlushed (call : FlushCall) : (s.logAt call).flushedLsn = s.log.flushedLsn := by
  unfold logAt
  split
  · rfl
  · rfl

theorem clearedWithLsn (call : FlushCall) (lsn : Int) (dblwr : DiskDoubleWriteBuffer) :
    (call.withLsn lsn).clearedBuffer dblwr = call.clearedBuffer dblwr := by
  cases call with
  | closeFile pool => rfl
  | poolCall call =>
    cases call with
    | _ => rfl

theorem callCases {waits : List Meanwhile} (ran : s.step (.call order call waits) = some t) :
    ∃ left, (s.leaving call).flushEach order waits ((call.withLsn (s.log.currentLsn + 1)).flushed order s.pools) = some left ∧
      t.log = left.log ∧ t.departures = (cleared call left).departures ∧ t.pools.dblwr = call.clearedBuffer left.dblwr := by
  obtain ⟨pools,applied,rest⟩ := bind_eq_some_iff.mp ran
  obtain ⟨left,flushed,same⟩ := bind_eq_some_iff.mp rest
  cases same
  refine ⟨left,flushed,rfl,rfl,?_⟩
  rw [FlushCall.applyDblwr applied,clearedWithLsn,(Leaving.flushEachCases flushed).1]
  rfl

theorem clearedCases (call : FlushCall) (left : Leaving) (covered : left.dblwr.Covered left.log.flushedLsn) (logged : left.AllLogged) :
    (call.clearedBuffer left.dblwr).Covered left.log.flushedLsn ∧ (cleared call left).AllLogged := by
  cases call with
  | closeFile pool =>
    obtain ⟨stored,kept⟩ := clearCovered covered pool
    exact ⟨kept,Leaving.storeLogged logged stored⟩
  | poolCall call => exact ⟨covered,logged⟩

theorem clearedGrows (call : FlushCall) (left : Leaving) : ∀ d ∈ left.departures, d ∈ (cleared call left).departures := by
  intro d inside
  cases call with
  | closeFile pool => exact mem_append_left _ inside
  | poolCall call => exact inside

theorem stepKeeps (step : WalStep) (inv : s.Inv) (ran : s.step step = some t) (waits : s.Waits step) : t.Inv := by
  cases step with
  | log meanwhile =>
    cases ran
    exact ⟨inv.covered.mono (s.log.advanceLe meanwhile),inv.logFirst⟩
  | call order call meanwhile =>
    obtain ⟨left,flushed,log,departures,buffer⟩ := callCases ran
    obtain ⟨_,_,_,fine,_⟩ := Leaving.flushEachCases flushed
    have start : (s.leaving call).dblwr.Covered (s.leaving call).log.flushedLsn := by
      show s.pools.dblwr.Covered (s.logAt call).flushedLsn
      rw [logAtFlushed]
      exact inv.covered
    obtain ⟨covered,logged⟩ := fine waits start inv.logFirst
    obtain ⟨kept,all⟩ := clearedCases call left covered logged
    refine ⟨by rw [buffer,log]; exact kept,fun d inside => ?_⟩
    rw [departures] at inside
    exact all d inside

theorem stepBreaks (step : WalStep) (ran : s.step step = some t) (fails : ¬s.Waits step) : ¬t.LogFirst := by
  cases step with
  | log meanwhile => exact absurd trivial fails
  | call order call meanwhile =>
    obtain ⟨left,flushed,_,departures,_⟩ := callCases ran
    obtain ⟨_,_,_,_,bad⟩ := Leaving.flushEachCases flushed
    intro logged
    refine bad fails fun d inside => logged d ?_
    rw [departures]
    exact clearedGrows call left d inside

theorem logFirstIff (inv : s.Inv) (run : List WalStep) :
    (∀ t ∈ Runs.reached Wal.step run s, t.LogFirst) ↔ Runs.Along Wal.step Waits run s :=
  Runs.holdsIff (fun _ inv => inv.logFirst) (fun _ step _ inv ran waits => stepKeeps step inv ran waits)
    (fun _ step _ _ ran fails => stepBreaks step ran fails) run inv

def onePage : Wal where
  pools := ⟨[1],⟨[⟨⟨1,1⟩,1,false,Content.zero.page 0⟩],[]⟩,⟨16,0,[]⟩,⟨[],fun _ => [],fun _ => []⟩,fun _ => 1⟩
  log := ⟨0,0,true⟩
  departures := []

theorem onePageInv : onePage.Inv := ⟨fun _ inside => absurd inside not_mem_nil,fun _ inside => absurd inside not_mem_nil⟩

def changing (meanwhile : Meanwhile) : List WalStep :=
  [.call inOrder (.poolCall (.modify ⟨1,1⟩ Content.zero)) [],.call inOrder (.poolCall (.flushPage ⟨1,1⟩)) [meanwhile]]

/-- The log is stopped during the wait, and the entry of the page was written before. -/
theorem writtenMeanwhile : onePage.Inv ∧ ∀ t ∈ Runs.reached Wal.step (changing ⟨1,true⟩) onePage, t.LogFirst := by
  refine ⟨onePageInv,(logFirstIff onePageInv (changing ⟨1,true⟩)).mpr fun t first => ⟨trivial,fun u second => ⟨?_,trivial⟩⟩⟩
  cases first
  refine ⟨?_,trivial⟩
  rintro _ ⟨_,late | late⟩
  · exact absurd late (by decide : ¬(1 : Int) < 1)
  · exact absurd late (by decide : ¬(0 + 1 : Int) < 1)

theorem stoppedMeanwhile : ∃ t ∈ Runs.reached Wal.step (changing ⟨0,true⟩) onePage,
    t.departures = [⟨1,0⟩] ∧ t.pools.dblwr.pages.map (fun page => page.page.lsn) = [1] ∧ ¬t.LogFirst := by
  refine ⟨_,mem_cons_of_mem _ (mem_cons_of_mem _ mem_cons_self),rfl,rfl,fun logged => ?_⟩
  have early : (1 : Int) ≤ 0 := logged ⟨1,0⟩ (mem_singleton_self _)
  exact absurd early (by decide)

end Wal

end MiniOb.Buffer
