import MiniOb.Buffer.BufferPool
import MiniOb.Buffer.TornWrites

/-! A buffer pool is a store of pages: what a call hands out is what was last written to the page,
wherever its copies are. -/
namespace MiniOb.Buffer
open DiskDoubleWriteBuffer BPFrameManager List Function Content

structure PageStore where
  memory : FrameId → Option Content
  held : FrameId → Nat

namespace PageStore

def write (id : FrameId) (content : Content) (store : PageStore) : PageStore :=
  { store with memory := update store.memory id (some content) }

def hold (id : FrameId) (store : PageStore) : PageStore := { store with held := update store.held id (store.held id + 1) }

theorem writeHere (store : PageStore) (id : FrameId) (content : Content) : (store.write id content).memory id = some content :=
  update_self ..

def growOver (grown : Bool) (id : FrameId) (store : PageStore) : PageStore :=
  if grown ∧ store.memory id = none then store.write id .zero else store

def getThisPage (id : FrameId) (store : PageStore) : Pools.Answer × PageStore :=
  match store.memory id with
  | some content => (.ok (id,content),store.hold id)
  | none => (.error .ioerrRead,store)

def allocatePage (lsn : Int64) (grown : Bool) (pool : Int32) (store : PageStore) : Option (Pools.Answer × PageStore) :=
  (store.memory (Pools.headerId pool)).map fun header =>
    let bp := header.pool
    match bp.freePage with
    | some page =>
      let id : FrameId := ⟨pool,Int32.ofNat page⟩
      ((store.write (Pools.headerId pool) ((bp.setBit page).content lsn)).growOver grown id).getThisPage id
    | none =>
      if maxPageNum ≤ bp.fileHeader.pageCount then (.error .bufferpoolNobuf,store)
      else
        let id : FrameId := ⟨pool,Int32.ofNat bp.fileHeader.pageCount⟩
        (.ok (id,.zero),((store.write (Pools.headerId pool) (((bp.setBit bp.fileHeader.pageCount).extend).content lsn)).write id
          .zero).hold id)

def apply (store : PageStore) : PoolCall → Option (Option Pools.Answer × PageStore)
  | .allocatePage pool lsn grown => (store.allocatePage lsn grown pool).map fun r => (some r.1,r.2)
  | .getThisPage id grown => some (some ((store.growOver grown id).getThisPage id).1,((store.growOver grown id).getThisPage id).2)
  | .modify id content => some (none,if 0 < store.held id ∧ id.pageNum ≠ 0 then store.write id content else store)
  | .unpin id => some (none,if 0 < store.held id then
      { store with held := update store.held id (store.held id - 1) } else store)
  | .flushPage _ => some (none,store)
  | .flushAllPages _ => some (none,store)
  | .purgePage _ => some (none,store)

def run : List (Order × PoolCall) → PageStore → Option (List (Option Pools.Answer) × PageStore)
  | [],store => some ([],store)
  | (_,call) :: rest,store => do
    let (answer,next) ← store.apply call
    let (answers,last) ← run rest next
    some (answer :: answers,last)

end PageStore

/-! The frames by their ids. -/
namespace BPFrameManager
variable {manager next : BPFrameManager} {id : FrameId}

variable {f : Frame → Frame} {frame : Frame}

theorem findUpdate (keeps : ∀ frame, (f frame).id = frame.id) (other : FrameId) :
    (manager.update id f).find other = if other = id then (manager.find id).map f else manager.find other := by
  have step : ∀ frame : Frame, (if frame.id = id then f frame else frame).id = frame.id := by
    intro frame
    split
    · exact keeps frame
    · rfl
  simp only [find,update,find?_map,comp_def,step]
  split
  · rename_i same
    subst same
    cases found : manager.frames.find? fun frame => frame.id = other with
    | none => rfl
    | some frame =>
      have key : frame.id = other := by simpa using find?_some found
      simp [key]
  · rename_i different
    cases found : manager.frames.find? fun frame => frame.id = other with
    | none => rfl
    | some frame =>
      have key : frame.id = other := by simpa using find?_some found
      simp [key,different]

theorem updateIds (keeps : ∀ frame, (f frame).id = frame.id) :
    (manager.update id f).frames.map Frame.id = manager.frames.map Frame.id := by
  rw [update,map_map]
  refine map_congr_left fun frame _ => ?_
  simp only [comp]
  split
  · exact keeps frame
  · rfl

theorem findFilter (other : FrameId) :
    (manager.frames.filter fun frame => frame.id ≠ id).find? (fun frame => frame.id = other) =
      if other = id then none else manager.find other := by
  rw [find?_filter]
  split
  · rename_i same
    subst same
    rw [find?_eq_none]
    intro frame _
    simp
  · rename_i different
    congr 1
    funext frame
    by_cases key : frame.id = other
    · simp [key,different]
    · simp [key]

theorem victimMem (picked : manager.victim = some frame) : frame ∈ manager.frames ∧ frame.pinCount = 0 :=
  ⟨mem_reverse.mp (mem_of_find?_eq_some picked),by simpa using find?_some picked⟩

theorem findId (found : manager.find id = some frame) : frame.id = id := by
  simpa using find?_some found

theorem findFree (other : FrameId) :
    (manager.free frame).find other = if other = frame.id then none else manager.find other := findFilter other

theorem getFound (found : manager.find id = some frame) : manager.get id = some { manager with
      frames := { frame with pinCount := frame.pinCount + 1 } :: manager.frames.filter fun other => other.id ≠ id } := by
  rw [get,found]
  rfl

theorem getNone (absent : manager.find id = none) : manager.get id = none := by
  rw [get,absent]
  rfl

theorem findGet (found : manager.find id = some frame) (ok : manager.get id = some next) (other : FrameId) :
    next.find other = if other = id then some { frame with pinCount := frame.pinCount + 1 } else manager.find other := by
  rw [getFound found] at ok
  cases ok
  have key := findId found
  rw [find,find?_cons]
  by_cases same : other = id
  · subst same
    simp [key]
  · have different : ¬ frame.id = other := fun equal => same (equal.symm.trans key)
    simp only [different,decide_false,if_neg same]
    rw [findFilter,if_neg same]

theorem idsGet (found : manager.find id = some frame) (ok : manager.get id = some next)
    (distinct : (manager.frames.map Frame.id).Nodup) : (next.frames.map Frame.id).Nodup := by
  rw [getFound found] at ok
  cases ok
  rw [map_cons,nodup_cons]
  refine ⟨fun inside => ?_,distinct.sublist (filter_sublist.map _)⟩
  obtain ⟨other,member,same⟩ := mem_map.mp inside
  have different := (mem_filter.mp member).2
  simp [same,findId found] at different

theorem findCons {frees} (key : frame.id = id) (other : FrameId) :
    find other ⟨frame :: manager.frames,frees⟩ = if other = id then some frame else manager.find other := by
  rw [find,find?_cons]
  by_cases same : other = id
  · simp [key,same]
  · have different : ¬ frame.id = other := fun equal => same (equal.symm.trans key)
    simp only [different,decide_false,if_neg same]
    rfl

theorem idsCons (key : frame.id = id) (absent : manager.find id = none)
    (distinct : (manager.frames.map Frame.id).Nodup) : ((frame :: manager.frames).map Frame.id).Nodup := by
  rw [map_cons,nodup_cons]
  refine ⟨fun inside => ?_,distinct⟩
  obtain ⟨other,member,same⟩ := mem_map.mp inside
  have no := find?_eq_none.mp absent other member
  simp [same,key] at no

theorem findOfMem (distinct : (manager.frames.map Frame.id).Nodup) (inside : frame ∈ manager.frames) :
    manager.find frame.id = some frame := by
  cases found : manager.find frame.id with
  | none =>
    have no := find?_eq_none.mp found frame inside
    simp at no
  | some other =>
    have member := mem_of_find?_eq_some found
    rw [inj_on_of_nodup_map distinct member inside (findId found)]

end BPFrameManager

/-! The copies below the frames. -/

structure DblwrOk (dblwr : DiskDoubleWriteBuffer) : Prop where
  keys : Distinct dblwr.pages
  valid : ∀ page ∈ dblwr.pages, page.valid = true

def lower (dblwr : DiskDoubleWriteBuffer) (disk : Disk) (id : FrameId) : Option Content :=
  match dblwr.find id with
  | some page => some page.page.content
  | none => (readPage (disk.data id)).map Page.content

section
variable {dblwr : DiskDoubleWriteBuffer} {disk : Disk} {id : FrameId}

variable {page old : DoubleWritePage}

theorem lowerFound (found : dblwr.find id = some page) : lower dblwr disk id = some page.page.content := by
  rw [lower,found]

theorem lowerNone (absent : dblwr.find id = none) : lower dblwr disk id = (readPage (disk.data id)).map Page.content := by
  rw [lower,absent]

theorem lowerHole (hole : readPage (disk.data id) = none) (other : FrameId) :
    lower dblwr (disk.write (.page id (zero.page 0).bytes)) other =
      if other = id ∧ lower dblwr disk id = none then some .zero else lower dblwr disk other := by
  cases found : dblwr.find other with
  | some page =>
    rw [lowerFound found,lowerFound found,if_neg]
    rintro ⟨rfl,none⟩
    rw [lowerFound found] at none
    cases none
  | none =>
    rw [lowerNone found,lowerNone found]
    by_cases same : other = id
    · subst same
      rw [if_pos ⟨rfl,by rw [lowerNone found,hole]; rfl⟩,Disk.write]
      dsimp only
      rw [update_self,readPageBytes]
      rfl
    · rw [if_neg (same ·.1),Disk.write]
      dsimp only
      rw [update_of_ne same]

theorem replaceOk (ok : DblwrOk dblwr) (found : dblwr.find id = some old) (page : Page) :
    DblwrOk { dblwr with pages := dblwr.pages.map fun other => if other.key = id then { old with page := page } else other } := by
  obtain ⟨inside,key⟩ := findSome found
  refine ⟨?_,fun other member => ?_⟩
  · exact replacedDistinct key page ok.keys
  · obtain ⟨q,before,rfl⟩ := mem_map.mp member
    split
    · exact ok.valid old inside
    · exact ok.valid q before

theorem lowerReplace (found : dblwr.find id = some old) (page : Page) (disk : Disk) (other : FrameId) :
    lower { dblwr with pages := dblwr.pages.map fun other => if other.key = id then { old with page := page } else other } disk other =
      if other = id then some page.content else lower dblwr disk other := by
  obtain ⟨-,key⟩ := findSome found
  have find : DiskDoubleWriteBuffer.find other { dblwr with
      pages := dblwr.pages.map fun other => if other.key = id then { old with page := page } else other } =
      (dblwr.find other).map fun q => if q.key = id then { old with page := page } else q := by
    simp only [DiskDoubleWriteBuffer.find,find?_map,comp_def,keyReplaced key]
  by_cases same : other = id
  · subst same
    rw [if_pos rfl,lower,find,found,Option.map_some,if_pos key]
  · rw [if_neg same,lower,find]
    cases q : dblwr.find other with
    | none => rw [lowerNone q,Option.map_none]
    | some r =>
      have different : r.key ≠ id := (findSome q).2 ▸ same
      rw [lowerFound q,Option.map_some,if_neg different]

theorem appendOk (ok : DblwrOk dblwr) (absent : dblwr.find id = none) (pageIndex pageCnt : Nat) (page : Page) :
    DblwrOk { dblwr with pageCnt := pageCnt, pages := dblwr.pages ++ [⟨id,pageIndex,true,page⟩] } := by
  constructor
  · exact freshDistinct absent ok.keys _ rfl
  · intro q inside
    rcases mem_append.mp inside with old | new
    · exact ok.valid q old
    · rw [mem_singleton.mp new]

theorem lowerAppend (absent : dblwr.find id = none) (pageIndex pageCnt : Nat) (page : Page) (disk : Disk) (other : FrameId) :
    lower { dblwr with pageCnt := pageCnt, pages := dblwr.pages ++ [⟨id,pageIndex,true,page⟩] } disk other =
      if other = id then some page.content else lower dblwr disk other := by
  have find : DiskDoubleWriteBuffer.find other { dblwr with
      pageCnt := pageCnt, pages := dblwr.pages ++ [⟨id,pageIndex,true,page⟩] } =
      (dblwr.find other).or (if other = id then some ⟨id,pageIndex,true,page⟩ else none) := by
    rw [DiskDoubleWriteBuffer.find,find?_append]
    congr 1
    by_cases same : other = id
    · simp [same]
    · simp [same,Ne.symm same]
  rw [lower,find]
  by_cases same : other = id
  · subst same
    rw [absent,if_pos rfl,if_pos rfl]
    rfl
  · rw [if_neg same,if_neg same]
    cases q : dblwr.find other with
    | none => rw [lowerNone q,Option.or_none]
    | some r => rw [lowerFound q,Option.some_or]

variable (disk) in
theorem lowerFlush (ok : DblwrOk dblwr) (order : Order) : DblwrOk (dblwr.flushPage order).2 ∧
      ∀ other, lower (dblwr.flushPage order).2 (disk.writeAll (dblwr.flushPage order).1) other = lower dblwr disk other := by
  refine ⟨⟨nodup_nil,fun page inside => by cases inside⟩,fun other => ?_⟩
  have perm := order.2 dblwr.pages
  obtain ⟨written,kept⟩ := flushPageData ((perm.map DoubleWritePage.key).nodup_iff.mpr ok.keys) disk
  have empty : (dblwr.flushPage order).2.find other = none := rfl
  rw [lowerNone empty]
  cases found : dblwr.find other with
  | some page =>
    obtain ⟨inside,rfl⟩ := findSome found
    rw [lowerFound found,flushPage]
    rw [written page (perm.mem_iff.mpr inside) (ok.valid page inside),readPageBytes]
    rfl
  | none =>
    rw [lowerNone found,flushPage]
    rw [kept other fun page inside _ => findNone found page (perm.mem_iff.mp inside)]

theorem lowerData {disk'} (same : disk'.data = disk.data) (other : FrameId) : lower dblwr disk' other = lower dblwr disk other := by
  rw [lower,lower,same]

variable (disk id) in
theorem lowerAdd (ok : DblwrOk dblwr) (order : Order) (page : Page) : DblwrOk (dblwr.addPage order id page).2 ∧
      ∀ other, lower (dblwr.addPage order id page).2 (disk.writeAll (dblwr.addPage order id page).1) other =
        if other = id then some page.content else lower dblwr disk other := by
  cases found : dblwr.find id with
  | some old =>
    rw [addFoundPage found]
    exact ⟨replaceOk ok found page,fun other => (lowerData rfl other).trans (lowerReplace found page disk other)⟩
  | none =>
    have data : ∀ c : Prop, [Decidable c] → ∀ bytes, (disk.writeAll (writePageInternal ⟨id,dblwr.pages.length,true,page⟩ ::
        if c then [.header bytes] else [])).data = disk.data := by
      intro c _ bytes
      split <;> rfl
    have added := appendOk ok found dblwr.pages.length (max dblwr.pageCnt (dblwr.pages.length + 1)) page
    have lowers := fun other =>
      (lowerData (data (dblwr.pageCnt < dblwr.pages.length + 1) (headerBytes (dblwr.pages.length + 1))) other).trans
      (lowerAppend found dblwr.pages.length (max dblwr.pageCnt (dblwr.pages.length + 1)) page disk other)
    simp only [addPage,found]
    split
    · obtain ⟨flushed,same⟩ := lowerFlush (disk.writeAll (writePageInternal ⟨id,dblwr.pages.length,true,page⟩ ::
        if dblwr.pageCnt < dblwr.pages.length + 1 then [.header (headerBytes (dblwr.pages.length + 1))] else [])) added order
      refine ⟨flushed,fun other => ?_⟩
      rw [Disk.writeAll,foldl_append]
      exact (same other).trans (lowers other)
    · exact ⟨added,lowers⟩

end

namespace Pools

def current (pools : Pools) (id : FrameId) : Option Content :=
  match pools.manager.find id with
  | some frame => some frame.page.content
  | none => lower pools.dblwr pools.disk id

def pins (pools : Pools) (id : FrameId) : Nat := ((pools.manager.find id).map Frame.pinCount).getD 0

end Pools

def needed (opened : List Int32) (store : PageStore) (id : FrameId) : Nat :=
  store.held id + if id.pageNum = 0 ∧ id.bufferPoolId ∈ opened then 1 else 0

structure Refines (opened : List Int32) (pools : Pools) (store : PageStore) : Prop where
  sameOpened : pools.opened = opened
  distinct : (pools.manager.frames.map Frame.id).Nodup
  frees : ∀ frame ∈ pools.manager.frees, frame.dirty = false
  dblwr : DblwrOk pools.dblwr
  clean : ∀ id frame, pools.manager.find id = some frame → frame.dirty = false →
    lower pools.dblwr pools.disk id = some frame.page.content
  same : ∀ id, pools.current id = store.memory id
  held : pools.held = store.held
  pinned : ∀ id, needed opened store id ≤ pools.pins id

namespace Refines
variable {opened : List Int32} {pools : Pools} {store : PageStore} {id : FrameId} {frame : Frame}

theorem currentFound (found : pools.manager.find id = some frame) : pools.current id = some frame.page.content := by
  rw [Pools.current,found]

theorem currentNone (absent : pools.manager.find id = none) : pools.current id = lower pools.dblwr pools.disk id := by
  rw [Pools.current,absent]

theorem pinsFound (found : pools.manager.find id = some frame) : pools.pins id = frame.pinCount := by
  rw [Pools.pins,found]
  rfl

theorem pinsNone (absent : pools.manager.find id = none) : pools.pins id = 0 := by
  rw [Pools.pins,absent]
  rfl

variable {manager : BPFrameManager} {order : Order} {next : Pools}

section
variable (refines : Refines opened pools store)
include refines

theorem memoryFound (found : pools.manager.find id = some frame) : store.memory id = some frame.page.content :=
  (refines.same id).symm.trans (currentFound found)

theorem pinnedFound (found : pools.manager.find id = some frame) : needed opened store id ≤ frame.pinCount :=
  (refines.pinned id).trans (pinsFound found).le

theorem neededNone (absent : pools.manager.find id = none) : needed opened store id ≤ 0 :=
  (refines.pinned id).trans (pinsNone absent).le

theorem findHeld (some : 0 < needed opened store id) :
    ∃ frame, pools.manager.find id = .some frame ∧ needed opened store id ≤ frame.pinCount := by
  cases found : pools.manager.find id with
  | none => exact absurd (refines.neededNone found) some.not_ge
  | some frame => exact ⟨frame,rfl,refines.pinnedFound found⟩

theorem ofFrame {held dblwr disk} (ok : DblwrOk dblwr) (id : FrameId)
    (new : Frame) (store' : PageStore) (distinct : (manager.frames.map Frame.id).Nodup) (frees : ∀ f ∈ manager.frees, f.dirty = false)
    (find : ∀ other, manager.find other = if other = id then some new else pools.manager.find other)
    (clean : new.dirty = false → lower dblwr disk id = some new.page.content)
    (lowers : ∀ other, other ≠ id → lower dblwr disk other = lower pools.dblwr pools.disk other)
    (memory : store'.memory = update store.memory id (some new.page.content)) (sameHeld : held = store'.held)
    (others : ∀ other, other ≠ id → store'.held other = store.held other) (pinned : needed opened store' id ≤ new.pinCount) :
    Refines opened { pools with manager := manager, held := held, dblwr := dblwr, disk := disk } store' := by
  constructor
  case sameOpened => exact refines.sameOpened
  case distinct => exact distinct
  case frees => exact frees
  case dblwr => exact ok
  case clean =>
    intro other frame found
    rw [find] at found
    split at found
    · rename_i same
      cases found
      rw [same]
      exact clean
    · rename_i different
      rw [lowers other different]
      exact refines.clean other frame found
  case same =>
    intro other
    rw [memory,Pools.current]
    rw [find]
    by_cases same : other = id
    · rw [if_pos same,same,update_self]
    · rw [if_neg same,update_of_ne same,lowers other same]
      exact refines.same other
  case held => exact sameHeld
  case pinned =>
    intro other
    rw [Pools.pins]
    rw [find]
    by_cases same : other = id
    · rw [if_pos same,same]
      exact pinned
    · rw [if_neg same,needed,others other same]
      exact refines.pinned other

theorem ofFind (distinct : (manager.frames.map Frame.id).Nodup)
    (frees : ∀ f ∈ manager.frees, f.dirty = false) (find : ∀ other, manager.find other = pools.manager.find other) :
    Refines opened { pools with manager := manager } store := by
  constructor
  case sameOpened => exact refines.sameOpened
  case distinct => exact distinct
  case frees => exact frees
  case dblwr => exact refines.dblwr
  case clean =>
    intro other frame found
    exact refines.clean other frame ((find other).symm.trans found)
  case same =>
    intro other
    rw [Pools.current]
    rw [find]
    exact refines.same other
  case held => exact refines.held
  case pinned =>
    intro other
    rw [Pools.pins]
    rw [find]
    exact refines.pinned other

theorem flushInternal (found : pools.manager.find id = some frame) (order : Order) :
    Refines opened (pools.flushPageInternal order frame) store ∧
      ∀ other, (pools.flushPageInternal order frame).manager.find other = if other = id then
        some { frame with dirty := false, page := { frame.page with checkSum := crc32 frame.page.data } }
        else pools.manager.find other := by
  obtain rfl := findId found
  have keeps : ∀ f : Frame, Frame.id { f with dirty := false, page := { frame.page with checkSum := crc32 frame.page.data } } = f.id :=
    fun _ => rfl
  have find : ∀ other, (pools.flushPageInternal order frame).manager.find other = if other = frame.id then
      some { frame with dirty := false, page := { frame.page with checkSum := crc32 frame.page.data } }
      else pools.manager.find other := by
    intro other
    rw [Pools.flushPageInternal]
    rw [findUpdate keeps,found]
    rfl
  obtain ⟨ok,lowers⟩ := lowerAdd pools.disk frame.id refines.dblwr order
    { frame.page with checkSum := crc32 frame.page.data }
  have pinned := refines.pinnedFound found
  refine ⟨refines.ofFrame ok frame.id _ store ?_ refines.frees find (fun _ => (lowers frame.id).trans (if_pos rfl))
    (fun other different => (lowers other).trans (if_neg different)) ?_ refines.held (fun _ _ => rfl) ?_,find⟩
  · rw [updateIds keeps]
    exact refines.distinct
  · show store.memory = update store.memory _ (some frame.page.content)
    rw [← refines.memoryFound found,update_eq_self]
  · exact pinned

theorem evict (found : pools.manager.find id = some frame) (unneeded : needed opened store id = 0) (order : Order) :
    Refines opened ((pools.flushDirty order frame).freeFrame id) store ∧
      ∀ other, ((pools.flushDirty order frame).freeFrame id).manager.find other =
        if other = id then none else pools.manager.find other := by
  obtain ⟨mid,frame',refines',found',clean',others,shape⟩ : ∃ mid frame', Refines opened mid store ∧
      mid.manager.find id = some frame' ∧ frame'.dirty = false ∧
      (∀ other, other ≠ id → mid.manager.find other = pools.manager.find other) ∧ pools.flushDirty order frame = mid := by
    cases dirty : frame.dirty with
    | true =>
      obtain ⟨flushed,now⟩ := refines.flushInternal found order
      refine ⟨_,_,flushed,(now id).trans (if_pos rfl),rfl,fun other different => ?_,by rw [Pools.flushDirty,if_pos dirty]⟩
      rw [now,if_neg different]
    | false => exact ⟨_,_,refines,found,dirty,fun _ _ => rfl,by rw [Pools.flushDirty,if_neg (by rw [dirty]; decide)]⟩
  have key := findId found'
  have freed : mid.freeFrame id = { mid with manager := mid.manager.free frame' } := by rw [Pools.freeFrame,found']
  have find : ∀ other, (mid.manager.free frame').find other = if other = id then none else mid.manager.find other := by
    intro other
    rw [findFree,key]
  rw [shape,freed]
  refine ⟨?_,fun other => ?_⟩
  case refine_2 =>
    rw [find]
    by_cases same : other = id
    · rw [if_pos same,if_pos same]
    · rw [if_neg same,if_neg same,others other same]
  constructor
  case sameOpened => exact refines'.sameOpened
  case distinct => exact refines'.distinct.sublist (filter_sublist.map _)
  case frees =>
    intro f inside
    rcases mem_append.mp inside with old | new
    · exact refines'.frees f old
    · rw [mem_singleton.mp new]
      exact clean'
  case dblwr => exact refines'.dblwr
  case clean =>
    intro other f isFound
    rw [find] at isFound
    split at isFound
    · cases isFound
    · exact refines'.clean other f isFound
  case same =>
    intro other
    rw [← refines'.same other,Pools.current]
    rw [find]
    by_cases same : other = id
    · rw [if_pos same,same,currentFound found']
      exact refines'.clean id frame' found' clean'
    · rw [if_neg same]
      rfl
  case held => exact refines'.held
  case pinned =>
    intro other
    rw [Pools.pins]
    rw [find]
    by_cases same : other = id
    · rw [same,unneeded]
      exact Nat.zero_le _
    · rw [if_neg same]
      exact refines'.pinned other

theorem allocate (absent : pools.manager.find id = none) (ok : pools.allocateFrame order id = some next) :
    ∃ mid frame rest, Refines opened mid store ∧ mid.manager.find id = none ∧ mid.manager.frees = frame :: rest ∧
      next = { mid with manager := ⟨{ frame with id := id, pinCount := 1 } :: mid.manager.frames,rest⟩ } := by
  have take : ∀ mid : Pools, mid.manager.find id = none → ∀ manager, mid.manager.alloc id = some manager →
      ∃ frame rest, mid.manager.frees = frame :: rest ∧
        manager = ⟨{ frame with id := id, pinCount := 1 } :: mid.manager.frames,rest⟩ := by
    intro mid none manager allocated
    rw [alloc,getNone none] at allocated
    cases queue : mid.manager.frees with
    | nil => simp [queue] at allocated
    | cons frame rest =>
      simp only [queue,Option.some.injEq] at allocated
      exact ⟨frame,rest,rfl,allocated.symm⟩
  unfold Pools.allocateFrame at ok
  cases first : pools.manager.alloc id with
  | some manager =>
    rw [first] at ok
    cases ok
    obtain ⟨frame,rest,queue,rfl⟩ := take pools absent manager first
    exact ⟨pools,frame,rest,refines,absent,queue,rfl⟩
  | none =>
    rw [first] at ok
    cases picked : pools.manager.victim with
    | none =>
      rw [picked] at ok
      cases ok
    | some victim =>
      rw [picked] at ok
      obtain ⟨member,unpinned⟩ := victimMem picked
      have found := findOfMem refines.distinct member
      have unneeded : needed opened store victim.id = 0 := Nat.le_zero.mp (unpinned ▸ refines.pinnedFound found)
      obtain ⟨purged,now⟩ := refines.evict found unneeded order
      obtain ⟨manager,allocated,rfl⟩ := Option.map_eq_some_iff.mp ok
      have stillAbsent : ((pools.flushDirty order victim).freeFrame victim.id).manager.find id = none := by
        rw [now]
        split
        · rfl
        · exact absent
      obtain ⟨frame,rest,queue,rfl⟩ := take _ stillAbsent manager allocated
      exact ⟨_,frame,rest,purged,stillAbsent,queue,rfl⟩

theorem grow (grown : Bool) (id : FrameId) : Refines opened (pools.growOver grown id) (store.growOver grown id) := by
  unfold Pools.growOver PageStore.growOver
  by_cases hole : grown = true ∧ readPage (pools.disk.data id) = none
  · rw [if_pos hole]
    have below : ∀ other, lower pools.dblwr _ other = _ := lowerHole hole.2
    have memory : ∀ other, Pools.current { pools with disk := pools.disk.write (.page id (zero.page 0).bytes) } other =
        (if grown = true ∧ store.memory id = none then store.write id .zero else store).memory other := by
      intro other
      have after : (if grown = true ∧ store.memory id = none then store.write id .zero else store).memory other =
          if other = id ∧ pools.current id = none then some .zero else pools.current other := by
        rw [refines.same,refines.same]
        simp only [hole.1,true_and,PageStore.write]
        split
        · rename_i none
          simp only [none,and_true,update_apply]
        · rename_i known
          rw [if_neg (known ·.2)]
      rw [after,Pools.current]
      cases found : pools.manager.find other with
      | some frame =>
        rw [currentFound found,if_neg]
        rintro ⟨rfl,none⟩
        rw [currentFound found] at none
        cases none
      | none =>
        rw [currentNone found]
        rw [below]
        by_cases same : other = id
        · rw [← same,currentNone found]
        · rw [if_neg (same ·.1),if_neg (same ·.1)]
    have held : (if grown = true ∧ store.memory id = none then store.write id .zero else store).held = store.held := by
      split <;> rfl
    constructor
    case sameOpened => exact refines.sameOpened
    case distinct => exact refines.distinct
    case frees => exact refines.frees
    case dblwr => exact refines.dblwr
    case clean =>
      intro other frame found notDirty
      have before := refines.clean other frame found notDirty
      rw [below,if_neg]
      · exact before
      · rintro ⟨rfl,none⟩
        cases none.symm.trans before
    case same => exact memory
    case held => exact refines.held.trans held.symm
    case pinned =>
      intro other
      rw [needed,held]
      exact refines.pinned other
  · rw [if_neg hole]
    have solid : ¬ (grown = true ∧ store.memory id = none) := by
      rintro ⟨isGrown,none⟩
      refine hole ⟨isGrown,?_⟩
      have before := refines.same id
      rw [none] at before
      cases found : pools.manager.find id with
      | some frame =>
        rw [currentFound found] at before
        cases before
      | none =>
        rw [currentNone found] at before
        cases buffered : pools.dblwr.find id with
        | some page =>
          rw [lowerFound buffered] at before
          cases before
        | none =>
          rw [lowerNone buffered] at before
          exact Option.map_eq_none_iff.mp before
    rw [if_neg solid]
    exact refines

theorem loaded (absent : pools.manager.find id = none) : (pools.loadPage id).map Page.content = store.memory id := by
  rw [← refines.same id,currentNone absent,Pools.loadPage,DiskDoubleWriteBuffer.readPage]
  cases found : pools.dblwr.find id with
  | some page => rw [lowerFound found]; rfl
  | none => rw [lowerNone found]; rfl

end

theorem neededHold (id other : FrameId) :
    needed opened (store.hold id) other = needed opened store other + if other = id then 1 else 0 := by
  unfold needed PageStore.hold
  by_cases same : other = id
  · subst same
    rw [if_pos rfl]
    dsimp only
    rw [update_self]
    omega
  · rw [if_neg same]
    dsimp only
    rw [update_of_ne same]
    omega

theorem get (refines : Refines opened pools store) {answer}
    (ok : pools.getThisPage order id = some (answer,next)) :
    answer = (store.getThisPage id).1 ∧ Refines opened next (store.getThisPage id).2 := by
  unfold Pools.getThisPage at ok
  cases found : pools.manager.find id with
  | some frame =>
    have gotten := getFound found
    rw [found,gotten] at ok
    cases ok
    have known := refines.memoryFound found
    rw [PageStore.getThisPage,known]
    refine ⟨rfl,?_⟩
    refine refines.ofFrame refines.dblwr id { frame with pinCount := frame.pinCount + 1 } (store.hold id) ?_ refines.frees
      (findGet found gotten) (refines.clean id frame found) (fun _ _ => rfl) ?_ ?_ (fun other different => ?_) ?_
    · exact idsGet found gotten refines.distinct
    · rw [PageStore.hold,← known]
      exact (update_eq_self _ _).symm
    · rw [PageStore.hold,refines.held]
    · exact update_of_ne different _ _
    · rw [neededHold,if_pos rfl]
      exact Nat.succ_le_succ (refines.pinnedFound found)
  | none =>
    rw [found] at ok
    obtain ⟨taken,allocated,shape⟩ := Option.map_eq_some_iff.mp ok
    obtain ⟨mid,frame,rest,midRefines,absent,queue,rfl⟩ := refines.allocate found allocated
    have memory := midRefines.loaded absent
    have clean : frame.dirty = false := midRefines.frees frame (by rw [queue]; simp)
    have load : Pools.loadPage id { mid with
        manager := ⟨{ frame with id := id, pinCount := 1 } :: mid.manager.frames,rest⟩ } = mid.loadPage id := rfl
    rw [load] at shape
    cases read : mid.loadPage id with
    | some page =>
      rw [read] at memory shape
      cases shape
      rw [PageStore.getThisPage,← memory,Option.map_some]
      have keeps : ∀ f : Frame, Frame.id { f with page := page } = f.id := fun _ => rfl
      refine ⟨rfl,?_⟩
      refine midRefines.ofFrame midRefines.dblwr id { frame with id := id, pinCount := 1, page := page } (store.hold id) ?_
        (fun f inside => midRefines.frees f (by rw [queue]; exact mem_cons_of_mem _ inside)) (fun other => ?_) (fun _ => ?_)
        (fun _ _ => rfl) ?_ ?_ (fun other different => ?_) ?_
      · rw [updateIds keeps]
        exact idsCons rfl absent midRefines.distinct
      · rw [findUpdate keeps,findCons rfl,findCons rfl,if_pos rfl]
        split <;> rfl
      · rw [← currentNone absent,midRefines.same id,← memory]
        rfl
      · rw [PageStore.hold,← Option.map_some,memory]
        exact (update_eq_self _ _).symm
      · rw [PageStore.hold,midRefines.held]
      · exact update_of_ne different _ _
      · rw [neededHold,if_pos rfl]
        exact Nat.succ_le_succ (midRefines.neededNone absent)
    | none =>
      -- the frame goes back to the queue as it came
      rw [read] at memory shape
      cases shape
      rw [PageStore.getThisPage,← memory,Option.map_none]
      have purged : Pools.purgeFrame order id { mid with
          manager := ⟨{ frame with id := id, pinCount := 1 } :: mid.manager.frames,rest⟩ } = { mid with
          manager := free { frame with id := id, pinCount := 1 }
            ⟨{ frame with id := id, pinCount := 1 } :: mid.manager.frames,rest⟩ } := by
        rw [Pools.purgeFrame]
        rw [findCons rfl,if_pos rfl]
        dsimp only
        rw [if_neg (by simp),Pools.flushDirty,if_neg (by rw [clean]; decide),Pools.freeFrame]
        rw [findCons rfl,if_pos rfl]
      rw [purged]
      refine ⟨rfl,midRefines.ofFind ?_ (fun f inside => ?_) fun other => ?_⟩
      · exact (idsCons rfl absent midRefines.distinct).sublist (filter_sublist.map _)
      · rcases mem_append.mp inside with old | new
        · exact midRefines.frees f (by rw [queue]; exact mem_cons_of_mem _ old)
        · rw [mem_singleton.mp new]
          exact clean
      · rw [findFree,findCons rfl]
        split
        · rename_i same
          rw [same]
          exact absent.symm
        · rfl

theorem writeFrame (refines : Refines opened pools store) (found : pools.manager.find id = some frame) (content : Content) :
    Refines opened (pools.writeFrame id content) (store.write id content) := by
  have keeps : ∀ f : Frame, Frame.id { f with dirty := true, page := content.page f.page.checkSum } = f.id := fun _ => rfl
  have pinned := refines.pinnedFound found
  refine refines.ofFrame refines.dblwr id { frame with dirty := true, page := content.page frame.page.checkSum } (store.write id content) ?_
    refines.frees (fun other => ?_) (fun clean => by cases clean) (fun _ _ => rfl) rfl refines.held (fun _ _ => rfl) ?_
  · rw [updateIds keeps]
    exact refines.distinct
  · rw [findUpdate keeps,found]
    rfl
  · exact pinned

theorem allocateAny (refines : Refines opened pools store) (ok : pools.allocateFrame order id = some next) :
    ∃ mid frame manager, Refines opened mid store ∧ next = { mid with manager := manager } ∧
      (manager.frames.map Frame.id).Nodup ∧ (∀ f ∈ manager.frees, f.dirty = false) ∧
      (∀ other, manager.find other = if other = id then some frame else mid.manager.find other) ∧
      needed opened store id + 1 ≤ frame.pinCount := by
  cases found : pools.manager.find id with
  | some frame =>
    have gotten := getFound found
    rw [Pools.allocateFrame,alloc,gotten] at ok
    cases ok
    exact ⟨pools,_,_,refines,rfl,idsGet found gotten refines.distinct,refines.frees,findGet found gotten,
      Nat.succ_le_succ (refines.pinnedFound found)⟩
  | none =>
    obtain ⟨mid,frame,rest,midRefines,absent,queue,rfl⟩ := refines.allocate found ok
    refine ⟨mid,_,_,midRefines,rfl,idsCons rfl absent midRefines.distinct,fun f inside => ?_,
      findCons rfl,Nat.succ_le_succ (midRefines.neededNone absent)⟩
    exact midRefines.frees f (by rw [queue]; exact mem_cons_of_mem _ inside)

theorem updateTwice {header f g h k} (different : header ≠ id)
    (keepsG : ∀ frame, (g frame).id = frame.id) (keepsF : ∀ frame, (f frame).id = frame.id)
    (keepsK : ∀ frame, (k frame).id = frame.id) (overwritten : ∀ frame, h (f frame) = h (k frame)) :
    ((manager.update header g).update id f).update id h = ((manager.update id k).update header g).update id h := by
  simp only [BPFrameManager.update,map_map,BPFrameManager.mk.injEq,and_true]
  refine map_congr_left fun frame _ => ?_
  simp only [comp]
  by_cases isHeader : frame.id = header
  · simp only [isHeader,if_true,keepsG,if_neg different]
  · by_cases isId : frame.id = id
    · simp only [isId,if_neg (Ne.symm different),if_true,keepsF,keepsK,overwritten]
    · simp only [if_neg isHeader,if_neg isId]

section
variable (refines : Refines opened pools store)
include refines

theorem extend {pool} (isOpen : pool ∈ opened)
    (different : Pools.headerId pool ≠ id) (content : Content) (ok : pools.allocateFrame order id = some next) :
    let extended := next.writeFrame (Pools.headerId pool) content
    let cleared := { extended with manager := extended.manager.update id fun frame => { frame with page := zero.page 0 } }
    ∃ frame, cleared.manager.find id = some frame ∧ Refines opened ((cleared.flushPageInternal order frame).hold id)
        (((store.write (Pools.headerId pool) content).write id .zero).hold id) := by
  intro extended cleared
  obtain ⟨mid,frame,manager,midRefines,rfl,distinct,frees,find,pinned⟩ := refines.allocateAny ok
  have keepsDirty : ∀ f : Frame, Frame.id { f with dirty := true, page := zero.page 0 } = f.id := fun _ => rfl
  have keepsPage : ∀ f : Frame, Frame.id { f with page := zero.page 0 } = f.id := fun _ => rfl
  have keepsHeader : ∀ f : Frame, Frame.id { f with dirty := true, page := content.page f.page.checkSum } = f.id := fun _ => rfl
  have first : Refines opened { mid with
      manager := manager.update id fun f => { f with dirty := true, page := zero.page 0 }
      held := update mid.held id (mid.held id + 1) } ((store.write id .zero).hold id) := by
    refine midRefines.ofFrame midRefines.dblwr id { frame with dirty := true, page := zero.page 0 }
      ((store.write id .zero).hold id) ?_ frees
      (fun other => ?_) (fun clean => by cases clean) (fun _ _ => rfl) rfl ?_ (fun other apart => ?_) ?_
    · rw [updateIds keepsDirty]
      exact distinct
    · rw [findUpdate keepsDirty,find,find,if_pos rfl]
      split <;> rfl
    · rw [PageStore.hold,midRefines.held]
      rfl
    · exact update_of_ne apart _ _
    · rw [neededHold,if_pos rfl]
      exact pinned
  obtain ⟨header,headerFound,-⟩ := first.findHeld (show 0 < needed opened _ (Pools.headerId pool) by
    rw [neededHold,needed,if_pos ⟨rfl,isOpen⟩]
    omega)
  have second := first.writeFrame headerFound content
  have here : (Pools.writeFrame (Pools.headerId pool) content { mid with
      manager := manager.update id fun f => { f with dirty := true, page := zero.page 0 }
      held := update mid.held id (mid.held id + 1) }).manager.find id =
      some { frame with dirty := true, page := zero.page 0 } := by
    rw [Pools.writeFrame]
    rw [findUpdate keepsHeader,if_neg (Ne.symm different),findUpdate keepsDirty,if_pos rfl,find,
      if_pos rfl]
    rfl
  obtain ⟨third,-⟩ := second.flushInternal here order
  have isCleared : cleared.manager.find id = some { frame with page := zero.page 0 } := by
    show BPFrameManager.find id (BPFrameManager.update id _ (BPFrameManager.update (Pools.headerId pool) _ manager)) = _
    rw [findUpdate keepsPage,if_pos rfl,findUpdate keepsHeader,if_neg (Ne.symm different),find,
      if_pos rfl]
    rfl
  refine ⟨_,isCleared,?_⟩
  have stores : ((store.write (Pools.headerId pool) content).write id .zero).hold id =
      ((store.write id .zero).hold id).write (Pools.headerId pool) content := by
    simp only [PageStore.write,PageStore.hold,PageStore.mk.injEq,and_true]
    exact update_comm different _ _ _
  have key : frame.id = id := by
    have found := (find id).trans (if_pos rfl)
    exact findId found
  have states : (cleared.flushPageInternal order { frame with page := zero.page 0 }).hold id =
      (Pools.writeFrame (Pools.headerId pool) content { mid with
        manager := manager.update id fun f => { f with dirty := true, page := zero.page 0 }
        held := update mid.held id (mid.held id + 1) }).flushPageInternal order
        { frame with dirty := true, page := zero.page 0 } := by
    subst key
    exact (Pools.mk.injEq ..).mpr ⟨rfl,updateTwice different keepsHeader keepsPage keepsDirty fun _ => rfl,rfl,rfl,rfl⟩
  rw [stores,states]
  exact third

theorem unpin (some : 0 < store.held id) :
    Refines opened (pools.unpin id) { store with held := update store.held id (store.held id - 1) } := by
  obtain ⟨frame,found,pinned⟩ := refines.findHeld (show 0 < needed opened store id by rw [needed]; omega)
  have keeps : ∀ f : Frame, Frame.id { f with pinCount := f.pinCount - 1 } = f.id := fun _ => rfl
  refine refines.ofFrame refines.dblwr id { frame with pinCount := frame.pinCount - 1 }
    { store with held := update store.held id (store.held id - 1) } ?_ refines.frees (fun other => ?_)
    (refines.clean id frame found) (fun _ _ => rfl) ?_ ?_ (fun other different => update_of_ne different _ _) ?_
  · rw [updateIds keeps]
    exact refines.distinct
  · rw [findUpdate keeps,found]
    rfl
  · rw [← refines.memoryFound found,update_eq_self]
  · rw [refines.held]
  · unfold needed at pinned ⊢
    dsimp only
    rw [update_self]
    omega

theorem flush (order : Order) (id : FrameId) : Refines opened (pools.flushPage order id) store := by
  unfold Pools.flushPage
  cases found : pools.manager.find id with
  | none => exact refines
  | some frame => exact (refines.flushInternal found order).1

theorem flushAll (order : Order) (pool : Int32) : Refines opened (pools.flushAllPages order pool) store := by
  unfold Pools.flushAllPages
  generalize (pools.manager.frames.filter fun frame => frame.id.bufferPoolId = pool).map Frame.id = ids
  induction ids generalizing pools with
  | nil => exact refines
  | cons id rest ih => exact ih (refines.flush order id)

theorem purge (order : Order) (id : FrameId) : Refines opened (pools.purgePage order id) store := by
  unfold Pools.purgePage
  cases found : pools.manager.find id with
  | none =>
    rw [getNone found]
    exact refines
  | some frame =>
    have gotten := getFound found
    have pinned := refines.pinnedFound found
    rw [gotten]
    have now := findGet found gotten
    have held : Refines opened { pools with manager := { pools.manager with
        frames := { frame with pinCount := frame.pinCount + 1 } :: pools.manager.frames.filter fun other => other.id ≠ id } } store := by
      refine refines.ofFrame refines.dblwr id { frame with pinCount := frame.pinCount + 1 } store
        (idsGet found gotten refines.distinct) refines.frees
        now (refines.clean id frame found) (fun _ _ => rfl) ?_ refines.held (fun _ _ => rfl) (pinned.trans (Nat.le_succ _))
      rw [← refines.memoryFound found,update_eq_self]
    dsimp only
    rw [Pools.purgeFrame]
    rw [now id,if_pos rfl]
    dsimp only
    split
    · exact held
    · refine (held.evict ((now id).trans (if_pos rfl)) ?_ order).1
      omega

end

end Refines

end MiniOb.Buffer
