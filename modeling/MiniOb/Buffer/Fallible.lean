import MiniOb.Buffer.PoolClose

/-! The calls of a buffer pool when a flush may fail. Where none does, they are those of `BufferPool`. -/
namespace MiniOb.Buffer
open List BPFrameManager

/-- What a failed `add_page` leaves of the double-write buffer and the disk, anything, and its code. -/
structure Failure where
  rc : RC
  dblwr : DiskDoubleWriteBuffer
  disk : Disk
  failed : rc ≠ .success

structure Fallible where
  pools : Pools
  flushes : List (Option Failure)

namespace Pools

/-- The checksum is set and the frame stays dirty. -/
def failFlush (failure : Failure) (frame : Frame) (pools : Pools) : Pools :=
  { pools with
    manager := pools.manager.update frame.id fun frame => { frame with page := { frame.page with checkSum := crc32 frame.page.data } }
    dblwr := failure.dblwr
    disk := failure.disk }

def unpinFrame (id : FrameId) (pools : Pools) : Pools :=
  { pools with manager := pools.manager.update id fun frame => { frame with pinCount := frame.pinCount - 1 } }

end Pools

namespace Fallible

def next (fallible : Fallible) : Option Failure := fallible.flushes.headD none

def flushPageInternal (order : Order) (frame : Frame) (fallible : Fallible) : RC × Fallible :=
  match fallible.next with
  | some failure => (failure.rc,⟨fallible.pools.failFlush failure frame,fallible.flushes.tail⟩)
  | none => (.success,⟨fallible.pools.flushPageInternal order frame,fallible.flushes.tail⟩)

/-- The frame that `purge_frames` picks is flushed again and again until that succeeds. None when every
frame is pinned: the loop never ends. -/
def allocateFrame (order : Order) (id : FrameId) : List (Option Failure) → Pools → Option Fallible
  | [],pools => (pools.allocateFrame order id).map fun pools => ⟨pools,[]⟩
  | outcome :: rest,pools =>
    match pools.manager.alloc id,pools.manager.victim,outcome with
    | none,some frame,some failure =>
      if frame.dirty then allocateFrame order id rest (pools.failFlush failure frame)
      else (pools.allocateFrame order id).map fun pools => ⟨pools,outcome :: rest⟩
    | none,some frame,none =>
      (pools.allocateFrame order id).map fun pools => ⟨pools,if frame.dirty then rest else outcome :: rest⟩
    | _,_,_ => (pools.allocateFrame order id).map fun pools => ⟨pools,outcome :: rest⟩

def purgeFrame (order : Order) (id : FrameId) (fallible : Fallible) : RC × Fallible :=
  match fallible.pools.manager.find id with
  | none => (.success,fallible)
  | some frame =>
    if frame.pinCount ≠ 1 then (.lockedUnlock,fallible)
    else if frame.dirty then
      let (rc,flushed) := fallible.flushPageInternal order frame
      if rc ≠ .success then (rc,flushed) else (.success,{ flushed with pools := flushed.pools.freeFrame id })
    else (.success,{ fallible with pools := fallible.pools.freeFrame id })

def getThisPage (order : Order) (id : FrameId) (fallible : Fallible) : Option (Pools.Answer × Fallible) :=
  match fallible.pools.manager.find id,fallible.pools.manager.get id with
  | some frame,some manager =>
    some (.ok (id,frame.page.content),{ fallible with pools := { fallible.pools with manager := manager }.hold id })
  | _,_ =>
    (allocateFrame order id fallible.flushes fallible.pools).map fun framed => match framed.pools.loadPage id with
      | some page =>
        (.ok (id,page.content),{ framed with pools :=
          { framed.pools with manager := framed.pools.manager.update id fun frame => { frame with page := page } }.hold id })
      | none => (.error .ioerrRead,(framed.purgeFrame order id).2)

/-- The header page before `allocate_page` goes on to `get_this_page`, and that page. -/
def reusing (lsn : Int64) (grown : Bool) (pool : Int32) (bp : DiskBufferPool) (page : Nat) (pools : Pools) : Pools :=
  (pools.writeFrame (Pools.headerId pool) ((bp.setBit page).content lsn)).growOver grown ⟨pool,Int32.ofNat page⟩

/-- A page the file is extended by is given out even where it could not be flushed. -/
def allocatePage (order : Order) (lsn : Int64) (grown : Bool) (pool : Int32) (fallible : Fallible) : Option (Pools.Answer × Fallible) :=
  match fallible.pools.manager.find (Pools.headerId pool) with
  | none => none
  | some header =>
    let bp := header.page.content.pool
    match bp.freePage with
    | some page =>
      { fallible with pools := reusing lsn grown pool bp page fallible.pools }.getThisPage order ⟨pool,Int32.ofNat page⟩
    | none =>
      if maxPageNum ≤ bp.fileHeader.pageCount then some (.error .bufferpoolNobuf,fallible)
      else
        let id : FrameId := ⟨pool,Int32.ofNat bp.fileHeader.pageCount⟩
        (allocateFrame order id fallible.flushes fallible.pools).map fun framed =>
          let extended := framed.pools.writeFrame (Pools.headerId pool) (((bp.setBit bp.fileHeader.pageCount).extend).content lsn)
          let cleared := { extended with manager := extended.manager.update id fun frame =>
            { frame with page := Content.zero.page 0 } }
          match cleared.manager.find id with
          | none => (.error .internal,{ framed with pools := cleared })
          | some frame =>
            let flushed := ({ framed with pools := cleared }.flushPageInternal order frame).2
            (.ok (id,Content.zero),{ flushed with pools := flushed.pools.hold id })

def flushPage (order : Order) (id : FrameId) (fallible : Fallible) : RC × Fallible :=
  match fallible.pools.manager.find id with
  | some frame => fallible.flushPageInternal order frame
  | none => (.success,fallible)

def flushEach (order : Order) : List FrameId → Fallible → RC × Fallible
  | [],fallible => (.success,fallible)
  | id :: rest,fallible =>
    let (rc,flushed) := fallible.flushPage order id
    let unpinned := { flushed with pools := flushed.pools.unpinFrame id }
    if rc ≠ .success then (rc,unpinned) else flushEach order rest unpinned

def findList (pool : Int32) (fallible : Fallible) : Fallible :=
  { fallible with pools := { fallible.pools with manager := fallible.pools.manager.pinAll pool } }

def flushAllPages (order : Order) (pool : Int32) (fallible : Fallible) : RC × Fallible :=
  flushEach order (fallible.pools.poolIds pool) (fallible.findList pool)

def purgePage (order : Order) (id : FrameId) (fallible : Fallible) : RC × Fallible :=
  match fallible.pools.manager.get id with
  | some manager => { fallible with pools := { fallible.pools with manager := manager } }.purgeFrame order id
  | none => (.success,fallible)

/-- What `purge_frame` returns is dropped. -/
def purgeAllPages (order : Order) (pool : Int32) (fallible : Fallible) : RC × Fallible :=
  (.success,(fallible.pools.poolIds pool).foldl (fun fallible id => (fallible.purgeFrame order id).2) (fallible.findList pool))

def checkAllPagesUnpinned (pool : Int32) (fallible : Fallible) : RC × Fallible :=
  let listed := fallible.findList pool
  (.success,{ listed with pools := (fallible.pools.poolIds pool).foldl (fun pools id => pools.unpinFrame id) listed.pools })

end Fallible

inductive PinCall where
  | poolCall (call : PoolCall)
  | purgeAllPages (pool : Int32)
  | checkAllPagesUnpinned (pool : Int32)

namespace PinCall

/-- None for a call that never returns, and for one on a pool that is not open. -/
def apply (order : Order) (fallible : Fallible) : PinCall → Option Fallible
  | poolCall (.allocatePage pool lsn grown) =>
    if pool ∈ fallible.pools.opened then (fallible.allocatePage order lsn grown pool).map Prod.snd else none
  | poolCall (.getThisPage id grown) =>
    ({ fallible with pools := fallible.pools.growOver grown id }.getThisPage order id).map Prod.snd
  | poolCall (.modify id content) =>
    some (if 0 < fallible.pools.held id ∧ id.pageNum ≠ 0 then { fallible with pools := fallible.pools.writeFrame id content }
      else fallible)
  | poolCall (.unpin id) => some (if 0 < fallible.pools.held id then { fallible with pools := fallible.pools.unpin id } else fallible)
  | poolCall (.flushPage id) => some (if 0 < fallible.pools.held id then (fallible.flushPage order id).2 else fallible)
  | poolCall (.flushAllPages pool) => some (fallible.flushAllPages order pool).2
  | poolCall (.purgePage id) => some (fallible.purgePage order id).2
  | purgeAllPages pool => if pool ∈ fallible.pools.opened then some (fallible.purgeAllPages order pool).2 else none
  | checkAllPagesUnpinned pool => some (fallible.checkAllPagesUnpinned pool).2

end PinCall

namespace Fallible
open Pools

variable (order : Order) (pools : Pools)

theorem allocateFrameNone (id : FrameId) :
    allocateFrame order id [] pools = (pools.allocateFrame order id).map fun pools => ⟨pools,[]⟩ := rfl

theorem purgeFrameNone (id : FrameId) : (purgeFrame order id ⟨pools,[]⟩).2 = ⟨pools.purgeFrame order id,[]⟩ := by
  unfold purgeFrame Pools.purgeFrame
  cases pools.manager.find id with
  | none => rfl
  | some frame =>
    dsimp only
    split
    · rfl
    · unfold flushDirty
      split
      · rfl
      · rfl

theorem getNone (id : FrameId) :
    getThisPage order id ⟨pools,[]⟩ = (pools.getThisPage order id).map fun r => (r.1,⟨r.2,[]⟩) := by
  unfold getThisPage Pools.getThisPage
  cases found : pools.manager.find id with
  | some frame =>
    rw [getFound found]
    rfl
  | none =>
    dsimp only
    rw [allocateFrameNone,Option.map_map,Option.map_map]
    congr 1
    funext framed
    dsimp only [Function.comp]
    cases framed.loadPage id with
    | some page => rfl
    | none => exact congrArg (Prod.mk _) (purgeFrameNone order framed id)

theorem allocatePageNone (lsn : Int64) (grown : Bool) (pool : Int32) :
    allocatePage order lsn grown pool ⟨pools,[]⟩ = (pools.allocatePage order lsn grown pool).map fun r => (r.1,⟨r.2,[]⟩) := by
  unfold allocatePage Pools.allocatePage
  cases pools.manager.find (headerId pool) with
  | none => rfl
  | some header =>
    dsimp only
    cases header.page.content.pool.freePage with
    | some page => exact getNone order _ _
    | none =>
      dsimp only
      split
      · rfl
      · rw [allocateFrameNone,Option.map_map,Option.map_map]
        congr 1
        funext framed
        dsimp only [Function.comp]
        split
        · simp only [*]
        · simp only [*]
          rfl

def pinFrame (id : FrameId) (pools : Pools) : Pools :=
  { pools with manager := pools.manager.update id fun frame => { frame with pinCount := frame.pinCount + 1 } }

theorem unpinPinned (id : FrameId) : (pinFrame id pools).unpinFrame id = pools := by
  have frames : ((pools.manager.frames.map fun frame => if frame.id = id then { frame with pinCount := frame.pinCount + 1 } else frame).map
      fun frame => if frame.id = id then { frame with pinCount := frame.pinCount - 1 } else frame) = pools.manager.frames := by
    rw [map_map]
    refine (map_congr_left fun frame _ => ?_).trans (map_id _)
    by_cases same : frame.id = id
    · subst same
      simp
    · simp [same]
  unfold pinFrame unpinFrame update
  rw [frames]

theorem flushPinned (id other : FrameId) : (pinFrame other pools).flushPage order id = pinFrame other (pools.flushPage order id) := by
  have ids : ∀ frame : Frame, Frame.id { frame with pinCount := frame.pinCount + 1 } = frame.id := fun _ => rfl
  have swap : ∀ (page : Page) (key : FrameId),
      ((pools.manager.update other fun frame => { frame with pinCount := frame.pinCount + 1 }).update key
        fun frame => { frame with dirty := false, page := page }) =
      (pools.manager.update key fun frame => { frame with dirty := false, page := page }).update other
        fun frame => { frame with pinCount := frame.pinCount + 1 } := by
    intro page key
    unfold update
    rw [map_map,map_map]
    congr 1
    refine map_congr_left fun frame _ => ?_
    by_cases here : frame.id = key
    · subst here
      by_cases there : frame.id = other
      · simp [there]
      · simp [there]
    · by_cases there : frame.id = other
      · subst there
        simp [here]
      · simp [here,there]
  unfold Pools.flushPage pinFrame
  rw [findUpdate ids]
  by_cases same : id = other
  · subst same
    rw [if_pos rfl]
    cases pools.manager.find id with
    | none => rfl
    | some frame =>
      dsimp only [Option.map_some,Pools.flushPageInternal]
      rw [swap]
  · rw [if_neg same]
    cases pools.manager.find id with
    | none => rfl
    | some frame =>
      dsimp only [Pools.flushPageInternal]
      rw [swap]

theorem flushPinnedList (id : FrameId) (ids : List FrameId) :
    (ids.foldr pinFrame pools).flushPage order id = ids.foldr pinFrame (pools.flushPage order id) := by
  induction ids with
  | nil => rfl
  | cons other rest ih => rw [foldr_cons,flushPinned,ih,foldr_cons]

theorem flushEachNone (ids : List FrameId) :
    (flushEach order ids ⟨ids.foldr pinFrame pools,[]⟩).2 = ⟨ids.foldl (fun pools id => pools.flushPage order id) pools,[]⟩ := by
  induction ids generalizing pools with
  | nil => rfl
  | cons id rest ih =>
    have flush : ∀ pools : Pools, flushPage order id ⟨pools,[]⟩ = (.success,⟨pools.flushPage order id,[]⟩) := by
      intro pools
      unfold flushPage Pools.flushPage
      cases pools.manager.find id with
      | none => rfl
      | some frame => rfl
    rw [flushEach,flush]
    dsimp only
    rw [if_neg (by decide),foldr_cons,flushPinned,unpinPinned,flushPinnedList,ih,foldl_cons]

theorem pinFrames {ids : List FrameId} (unique : ids.Nodup) :
    ids.foldr pinFrame pools = { pools with manager := { pools.manager with frames := pools.manager.frames.map fun frame =>
      if frame.id ∈ ids then { frame with pinCount := frame.pinCount + 1 } else frame } } := by
  induction ids with
  | nil => simp
  | cons id rest ih =>
    obtain ⟨fresh,unique⟩ := nodup_cons.mp unique
    rw [foldr_cons,ih unique]
    unfold pinFrame update
    rw [map_map]
    congr 2
    refine map_congr_left fun frame _ => ?_
    by_cases here : frame.id = id
    · subst here
      simp [fresh]
    · by_cases later : frame.id ∈ rest
      · simp [here,later]
      · simp [here,later]

theorem findListNone (distinct : (pools.manager.frames.map Frame.id).Nodup) (pool : Int32) :
    findList pool ⟨pools,[]⟩ = ⟨(pools.poolIds pool).foldr pinFrame pools,[]⟩ := by
  have unique : (pools.poolIds pool).Nodup := distinct.sublist (filter_sublist.map _)
  rw [pinFrames pools unique]
  unfold findList pinAll
  dsimp only
  congr 3
  refine map_congr_left fun frame inside => ?_
  have own : frame.id ∈ pools.poolIds pool ↔ frame.id.bufferPoolId = pool := by
    constructor
    · intro listed
      obtain ⟨other,member,same⟩ := mem_map.mp listed
      rw [← same]
      simpa using (mem_filter.mp member).2
    · intro own
      exact mem_map_of_mem (mem_filter.mpr ⟨inside,by simpa using own⟩)
  by_cases here : frame.id.bufferPoolId = pool
  · rw [if_pos here,if_pos (own.mpr here)]
  · rw [if_neg here,if_neg fun listed => here (own.mp listed)]

theorem flushAllNone (distinct : (pools.manager.frames.map Frame.id).Nodup) (pool : Int32) :
    (flushAllPages order pool ⟨pools,[]⟩).2 = ⟨pools.flushAllPages order pool,[]⟩ := by
  rw [flushAllPages,findListNone pools distinct]
  exact flushEachNone order pools _

end Fallible

open Fallible in
theorem PinCall.applyNone (order : Order) (pools : Pools) (distinct : (pools.manager.frames.map Frame.id).Nodup) (call : PoolCall) :
    (PinCall.poolCall call).apply order ⟨pools,[]⟩ = (call.apply order pools).map fun r => ⟨r.2,[]⟩ := by
  cases call with
  | allocatePage pool lsn grown =>
    rw [apply,PoolCall.apply]
    split
    · rw [allocatePageNone,Option.map_map,Option.map_map]
      rfl
    · rfl
  | getThisPage id grown =>
    rw [apply,PoolCall.apply]
    rw [Fallible.getNone,Option.map_map,Option.map_map]
    rfl
  | modify id content =>
    rw [apply,PoolCall.apply]
    split
    · rfl
    · rfl
  | unpin id =>
    rw [apply,PoolCall.apply]
    split
    · rfl
    · rfl
  | flushPage id =>
    rw [apply,PoolCall.apply]
    split
    · unfold Fallible.flushPage Pools.flushPage
      cases pools.manager.find id with
      | none => rfl
      | some frame => rfl
    · rfl
  | flushAllPages pool =>
    rw [apply,flushAllNone order pools distinct]
    rfl
  | purgePage id =>
    rw [apply,PoolCall.apply]
    unfold Fallible.purgePage Pools.purgePage
    cases pools.manager.get id with
    | none => rfl
    | some manager => exact congrArg some (purgeFrameNone order _ id)

end MiniOb.Buffer
