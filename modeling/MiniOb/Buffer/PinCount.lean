import MiniOb.Buffer.Fallible
import MiniOb.Buffer.PoolRuns

/-! The pins of the frames when a flush may fail: which calls take back what they pinned. -/
namespace MiniOb.Buffer
open BPFrameManager List Pools

namespace Pools

def owed (pools : Pools) (id : FrameId) : Nat :=
  pools.held id + if id.pageNum = 0 ∧ id.bufferPoolId ∈ pools.opened then 1 else 0

def PinsMatch (pools : Pools) : Prop := ∀ frame ∈ pools.manager.frames, frame.pinCount = pools.owed frame.id

structure Pins (extra : List FrameId) (pools : Pools) : Prop where
  distinct : (pools.manager.frames.map Frame.id).Nodup
  counted : ∀ id, pools.pins id = pools.owed id + extra.count id

namespace Pins
variable {extra : List FrameId} {pools : Pools} {id : FrameId}

theorem resident (pins : pools.Pins extra) (id : FrameId) (some : 0 < pools.owed id + extra.count id) :
    ∃ frame, pools.manager.find id = .some frame := by
  rw [← pins.counted] at some
  cases found : pools.manager.find id with
  | some frame => exact ⟨frame,rfl⟩
  | none => simp [Pools.pins,found] at some

variable {frame : Frame} {f : Frame → Frame} {extra' : List FrameId} {manager : BPFrameManager} {order : Order}
  {next : Pools} {flushes : List (Option Failure)} {framed : Fallible}

theorem frameCount (pins : pools.Pins extra) (found : pools.manager.find id = some frame) :
    frame.pinCount = pools.owed id + extra.count id := by
  rw [← pins.counted,Refines.pinsFound found]

theorem owesNothing (pins : pools.Pins extra) (absent : pools.manager.find id = none) : pools.owed id + extra.count id = 0 := by
  rw [← pins.counted,Refines.pinsNone absent]

theorem matching (pins : pools.Pins []) : pools.PinsMatch := by
  intro frame inside
  exact pins.frameCount (findOfMem pins.distinct inside)

section
variable (pins : pools.Pins extra)
include pins

theorem mismatch (leaked : extra ≠ []) : ¬ pools.PinsMatch := by
  intro same
  obtain ⟨id,inside⟩ := exists_mem_of_ne_nil _ leaked
  have positive := count_pos_iff.mpr inside
  obtain ⟨frame,found⟩ := pins.resident id (by omega)
  have exact := same frame (mem_of_find?_eq_some found)
  rw [pins.frameCount found,findId found] at exact
  omega

theorem perm {other} (same : extra.Perm other) : pools.Pins other :=
  ⟨pins.distinct,fun id => by rw [pins.counted,same.count_eq]⟩

theorem ofSame {pools' : Pools} (manager : pools'.manager = pools.manager) (held : pools'.held = pools.held)
    (opened : pools'.opened = pools.opened) : pools'.Pins extra := by
  refine ⟨by rw [manager]; exact pins.distinct,fun id => ?_⟩
  have count := pins.counted id
  unfold Pools.pins owed at count ⊢
  rw [manager,held,opened,count]

theorem onFrame (ids : ∀ frame, (f frame).id = frame.id)
    (here : ∀ frame, pools.manager.find id = some frame → (f frame).pinCount = pools.owed id + extra'.count id)
    (absent : pools.manager.find id = none → extra'.count id = 0)
    (elsewhere : ∀ other, other ≠ id → extra'.count other = extra.count other) :
    Pins extra' { pools with manager := pools.manager.update id f } := by
  refine ⟨by rw [updateIds ids]; exact pins.distinct,fun other => ?_⟩
  rw [Pools.pins,findUpdate ids]
  by_cases same : other = id
  · rw [if_pos same,same]
    cases found : pools.manager.find id with
    | some frame => exact here frame found
    | none =>
      have nothing := pins.owesNothing found
      rw [absent found]
      exact (Nat.eq_zero_of_add_eq_zero_right nothing).symm
  · rw [if_neg same,elsewhere other same]
    exact pins.counted other

theorem quiet (id : FrameId) (ids : ∀ frame, (f frame).id = frame.id)
    (kept : ∀ frame, (f frame).pinCount = frame.pinCount) : Pins extra { pools with manager := pools.manager.update id f } := by
  refine pins.onFrame ids (fun frame found => ?_) (fun absent => ?_) fun _ _ => rfl
  · rw [kept,pins.frameCount found]
  · exact Nat.eq_zero_of_add_eq_zero_left (pins.owesNothing absent)

theorem flushed (order : Order) (frame : Frame) : Pins extra (pools.flushPageInternal order frame) :=
  ofSame (pins.quiet frame.id (f := fun old => { old with dirty := false, page := { frame.page with checkSum := crc32 frame.page.data } })
    (fun _ => rfl) fun _ => rfl) rfl rfl rfl

theorem flushFailed (failure : Failure) (frame : Frame) : Pins extra (pools.failFlush failure frame) :=
  ofSame (pins.quiet frame.id (f := fun old => { old with page := { old.page with checkSum := crc32 old.page.data } })
    (fun _ => rfl) fun _ => rfl) rfl rfl rfl

theorem written (id : FrameId) (content : Content) : Pins extra (pools.writeFrame id content) :=
  pins.quiet id (fun _ => rfl) fun _ => rfl

theorem grown (grown : Bool) (id : FrameId) : Pins extra (pools.growOver grown id) := by
  unfold growOver
  split
  · exact pins.ofSame rfl rfl rfl
  · exact pins

end

theorem holdOwed (other : FrameId) : (pools.hold id).owed other = pools.owed other + if other = id then 1 else 0 := by
  unfold owed hold
  dsimp only
  by_cases same : other = id
  · rw [if_pos same,same,Function.update_self]
    omega
  · rw [if_neg same,Function.update_of_ne same]
    rfl

theorem held (pins : pools.Pins (id :: extra)) : Pins extra (pools.hold id) := by
  refine ⟨pins.distinct,fun other => ?_⟩
  have count := pins.counted other
  show pools.pins other = _
  rw [holdOwed,count]
  by_cases same : other = id
  · rw [if_pos same,same,count_cons_self]
    omega
  · rw [if_neg same,count_cons_of_ne (Ne.symm same)]
    omega

theorem unpinnedFrame (pins : pools.Pins (id :: extra)) : Pins extra (pools.unpinFrame id) := by
  refine pins.onFrame (f := fun frame => { frame with pinCount := frame.pinCount - 1 }) (fun _ => rfl) (fun frame found => ?_)
    (fun absent => ?_) fun other different => ?_
  · have count := pins.frameCount found
    rw [count_cons_self] at count
    show frame.pinCount - 1 = _
    omega
  · have nothing := pins.owesNothing absent
    rw [count_cons_self] at nothing
    omega
  · rw [count_cons_of_ne different.symm]

section
variable (pins : pools.Pins extra)
include pins

theorem unpinned (some : 0 < pools.held id) : Pins extra (pools.unpin id) := by
  have positive : 0 < pools.owed id := Nat.add_pos_left some _
  have ids : ∀ frame : Frame, Frame.id { frame with pinCount := frame.pinCount - 1 } = frame.id := fun _ => rfl
  refine ⟨by rw [unpin,updateIds ids]; exact pins.distinct,fun other => ?_⟩
  rw [unpin,Pools.pins,findUpdate ids]
  unfold owed
  dsimp only
  by_cases same : other = id
  · subst same
    obtain ⟨frame,found⟩ := pins.resident other (by omega)
    have count := pins.frameCount found
    rw [if_pos rfl,found,Function.update_self]
    simp only [Option.map_some,Option.getD_some]
    unfold owed at count
    omega
  · rw [if_neg same,Function.update_of_ne same]
    exact pins.counted other

theorem freed (nothing : pools.owed id + extra'.count id = 0)
    (elsewhere : ∀ other, other ≠ id → extra'.count other = extra.count other) : Pins extra' (pools.freeFrame id) := by
  unfold freeFrame
  cases found : pools.manager.find id with
  | none =>
    refine ⟨pins.distinct,fun other => ?_⟩
    by_cases same : other = id
    · rw [same,Refines.pinsNone found,nothing]
    · rw [elsewhere other same]
      exact pins.counted other
  | some frame =>
    refine ⟨pins.distinct.sublist (filter_sublist.map _),fun other => ?_⟩
    rw [Pools.pins,findFree,findId found]
    by_cases same : other = id
    · rw [if_pos same,same]
      exact nothing.symm
    · rw [if_neg same,elsewhere other same]
      exact pins.counted other

theorem gotten (got : pools.manager.get id = some manager) :
    Pins (id :: extra) { pools with manager := manager } := by
  cases found : pools.manager.find id with
  | none =>
    rw [getNone found] at got
    cases got
  | some frame =>
    refine ⟨?_,fun other => ?_⟩
    · rw [getFound found] at got
      cases got
      refine nodup_cons.mpr ⟨fun inside => ?_,pins.distinct.sublist (filter_sublist.map _)⟩
      obtain ⟨copy,member,same⟩ := mem_map.mp inside
      have different := (mem_filter.mp member).2
      rw [same] at different
      simp [findId found] at different
    · rw [Pools.pins,findGet found got,count_cons]
      by_cases same : other = id
      · rw [if_pos same,same,if_pos (beq_self_eq_true id)]
        exact congrArg (· + 1) (pins.frameCount found)
      · rw [if_neg same,if_neg (by simpa using Ne.symm same)]
        exact pins.counted other

theorem alloced (ok : pools.manager.alloc id = some manager) :
    Pins (id :: extra) { pools with manager := manager } := by
  unfold alloc at ok
  cases got : pools.manager.get id with
  | some gotten =>
    rw [got] at ok
    cases ok
    exact pins.gotten got
  | none =>
    have absent : pools.manager.find id = none := Option.map_eq_none_iff.mp got
    rw [got] at ok
    cases queue : pools.manager.frees with
    | nil => simp [queue] at ok
    | cons free rest =>
      rw [queue] at ok
      cases ok
      refine ⟨idsCons rfl absent pins.distinct,fun other => ?_⟩
      rw [Pools.pins,findCons rfl,count_cons]
      by_cases same : other = id
      · rw [if_pos same,same,if_pos (beq_self_eq_true id)]
        have nothing := pins.owesNothing absent
        show 1 = pools.owed id + (extra.count id + 1)
        omega
      · rw [if_neg same,if_neg (by simpa using Ne.symm same)]
        exact pins.counted other

theorem victimFree (picked : pools.manager.victim = some frame) :
    pools.manager.find frame.id = some frame ∧ pools.owed frame.id + extra.count frame.id = 0 := by
  obtain ⟨inside,unpinned⟩ := victimMem picked
  have found := findOfMem pins.distinct inside
  exact ⟨found,by rw [← pins.frameCount found,unpinned]⟩

theorem flushedDirty (order : Order) (frame : Frame) : Pins extra (pools.flushDirty order frame) := by
  unfold flushDirty
  split
  · exact pins.flushed order frame
  · exact pins

end

theorem flushDirtyOwed (order : Order) (frame : Frame) (id : FrameId) : (pools.flushDirty order frame).owed id = pools.owed id := by
  unfold flushDirty
  split
  · rfl
  · rfl

theorem allocated (pins : pools.Pins extra) (ok : pools.allocateFrame order id = some next) :
    Pins (id :: extra) next := by
  unfold allocateFrame at ok
  cases alloc : pools.manager.alloc id with
  | some manager =>
    rw [alloc] at ok
    cases ok
    exact pins.alloced alloc
  | none =>
    rw [alloc] at ok
    cases picked : pools.manager.victim with
    | none => simp [picked] at ok
    | some frame =>
      rw [picked] at ok
      obtain ⟨manager,again,rfl⟩ := Option.map_eq_some_iff.mp ok
      obtain ⟨-,nothing⟩ := pins.victimFree picked
      have purged : Pins extra ((pools.flushDirty order frame).freeFrame frame.id) :=
        (pins.flushedDirty order frame).freed (by rw [flushDirtyOwed,nothing]) fun _ _ => rfl
      exact purged.alloced again

theorem afterFailures {P : Pools → Prop}
    (kept : ∀ pools failure frame, P pools → P (pools.failFlush failure frame)) (start : P pools)
    (ok : Fallible.allocateFrame order id flushes pools = some framed) :
    ∃ before, P before ∧ before.allocateFrame order id = some framed.pools := by
  have last : ∀ {pools rest}, P pools → ((pools.allocateFrame order id).map fun pools => ⟨pools,rest⟩) = some framed →
      ∃ before, P before ∧ before.allocateFrame order id = some framed.pools := by
    intro pools rest start ok
    obtain ⟨next,allocated,rfl⟩ := Option.map_eq_some_iff.mp ok
    exact ⟨pools,start,allocated⟩
  induction flushes generalizing pools with
  | nil => exact last start ok
  | cons outcome rest ih =>
    unfold Fallible.allocateFrame at ok
    split at ok
    · split at ok
      · exact ih (kept _ _ _ start) ok
      · exact last start ok
    · exact last start ok
    · exact last start ok

theorem allocatedFallible (pins : pools.Pins extra)
    (ok : Fallible.allocateFrame order id flushes pools = some framed) : Pins (id :: extra) framed.pools := by
  obtain ⟨before,kept,allocated⟩ := afterFailures (fun _ failure frame pins => pins.flushFailed failure frame) pins ok
  exact kept.allocated allocated

theorem allocateOwed (ok : pools.allocateFrame order id = some next) (other : FrameId) :
    next.owed other = pools.owed other := by
  have freed : ∀ (pools : Pools) (id : FrameId), (pools.freeFrame id).owed other = pools.owed other := by
    intro pools id
    unfold freeFrame
    split
    · rfl
    · rfl
  unfold allocateFrame at ok
  split at ok
  · cases ok
    rfl
  · split at ok
    · cases ok
    · obtain ⟨manager,-,rfl⟩ := Option.map_eq_some_iff.mp ok
      exact (freed _ _).trans (flushDirtyOwed _ _ _)

theorem allocateOwedFallible (ok : Fallible.allocateFrame order id flushes pools = some framed) (other : FrameId) :
    framed.pools.owed other = pools.owed other := by
  obtain ⟨before,kept,allocated⟩ := afterFailures (P := fun before => before.owed other = pools.owed other)
    (fun _ _ _ same => same) rfl ok
  exact (allocateOwed allocated other).trans kept

theorem allocFree (absent : manager.find id = none) {free rest}
    (queue : manager.frees = free :: rest) :
    manager.alloc id = some ⟨{ free with id := id, pinCount := 1 } :: manager.frames,rest⟩ := by
  rw [alloc,getNone absent,queue]

theorem allocEmpty (absent : manager.find id = none) (queue : manager.frees = []) : manager.alloc id = none := by
  rw [alloc,getNone absent,queue]

theorem flushDirtyFrame (order : Order) (found : pools.manager.find frame.id = some frame) :
    ∃ left, (pools.flushDirty order frame).manager.find frame.id = some left ∧ left.dirty = false ∧
      (pools.flushDirty order frame).manager.frees = pools.manager.frees ∧
      ∀ other, other ≠ frame.id → (pools.flushDirty order frame).manager.find other = pools.manager.find other := by
  unfold flushDirty
  split
  · have ids : ∀ f : Frame, Frame.id { f with dirty := false, page := { frame.page with checkSum := crc32 frame.page.data } } = f.id :=
      fun _ => rfl
    refine ⟨{ frame with dirty := false, page := { frame.page with checkSum := crc32 frame.page.data } },?_,rfl,rfl,
      fun other different => ?_⟩
    · rw [flushPageInternal]
      rw [findUpdate ids,if_pos rfl,found]
      rfl
    · rw [flushPageInternal]
      rw [findUpdate ids,if_neg different]
  · rename_i clean
    exact ⟨frame,found,by simpa using clean,rfl,fun _ _ => rfl⟩

theorem evictedClean (pins : pools.Pins extra) (absent : pools.manager.find id = none) (queue : pools.manager.frees = [])
    (ok : pools.allocateFrame order id = some next) :
    ∃ frame, next.manager.find id = some frame ∧ frame.dirty = false := by
  unfold allocateFrame at ok
  rw [allocEmpty absent queue] at ok
  cases picked : pools.manager.victim with
  | none => simp [picked] at ok
  | some frame =>
    rw [picked] at ok
    obtain ⟨manager,again,rfl⟩ := Option.map_eq_some_iff.mp ok
    obtain ⟨found,-⟩ := pins.victimFree picked
    obtain ⟨left,still,clean,frees,others⟩ := flushDirtyFrame order found
    have different : id ≠ frame.id := by
      intro same
      rw [same,found] at absent
      cases absent
    have gone : ((pools.flushDirty order frame).freeFrame frame.id).manager.find id = none := by
      rw [freeFrame,still]
      rw [findFree,findId still,if_neg different,others id different,absent]
    have freed : ((pools.flushDirty order frame).freeFrame frame.id).manager.frees = [{ left with pinCount := 0 }] := by
      rw [freeFrame,still]
      dsimp only [free]
      rw [frees,queue]
      rfl
    rw [allocFree gone freed] at again
    cases again
    exact ⟨{ left with id := id, pinCount := 1 },by rw [findCons rfl,if_pos rfl],clean⟩

theorem allocateAtOnce (alloc : pools.manager.alloc id = some manager) :
    Fallible.allocateFrame order id flushes pools = some ⟨{ pools with manager := manager },flushes⟩ := by
  have once : pools.allocateFrame order id = some { pools with manager := manager } := by
    rw [allocateFrame,alloc]
  cases flushes with
  | nil => rw [Fallible.allocateFrame,once]; rfl
  | cons outcome rest =>
    unfold Fallible.allocateFrame
    rw [alloc,once]
    rfl

theorem failFlushAbsent (absent : pools.manager.find id = none) (failure : Failure) (frame : Frame) :
    (pools.failFlush failure frame).manager.find id = none := by
  have ids : ∀ f : Frame, Frame.id { f with page := { f.page with checkSum := crc32 f.page.data } } = f.id := fun _ => rfl
  rw [failFlush]
  rw [findUpdate ids]
  split
  · rename_i same
    rw [← same,absent]
    rfl
  · exact absent

theorem evictedCleanFallible (pins : pools.Pins extra) (absent : pools.manager.find id = none)
    (queue : pools.manager.frees = [])
    (ok : Fallible.allocateFrame order id flushes pools = some framed) :
    ∃ frame, framed.pools.manager.find id = some frame ∧ frame.dirty = false := by
  obtain ⟨before,⟨kept,still,empty⟩,allocated⟩ := afterFailures
    (P := fun before => before.Pins extra ∧ before.manager.find id = none ∧ before.manager.frees = [])
    (fun _ failure frame h => ⟨h.1.flushFailed failure frame,failFlushAbsent h.2.1 failure frame,h.2.2⟩) ⟨pins,absent,queue⟩ ok
  exact kept.evictedClean still empty allocated

end Pins
end Pools

namespace Fallible
variable {extra : List FrameId} {fallible : Fallible} {id : FrameId}
open Pools

/-- `purge_frame` frees the frame: nobody else has it, and it is clean or can be flushed. -/
def Purges (id : FrameId) (fallible : Fallible) : Prop :=
  ∀ frame, fallible.pools.manager.find id = some frame → frame.pinCount = 1 ∧ (frame.dirty = true → fallible.next = none)

theorem flushInternalPins (pins : fallible.pools.Pins extra) (order : Order) (frame : Frame) :
    (fallible.flushPageInternal order frame).2.pools.Pins extra := by
  unfold flushPageInternal
  split
  · exact pins.flushFailed _ _
  · exact pins.flushed _ _

theorem flushInternalOwed (order : Order) (frame : Frame) (other : FrameId) :
    (fallible.flushPageInternal order frame).2.pools.owed other = fallible.pools.owed other := by
  unfold flushPageInternal
  split
  · rfl
  · rfl

variable {pools : Pools} {ids : List FrameId}

theorem freedPins (pins : fallible.pools.Pins (id :: extra)) {frame} (found : fallible.pools.manager.find id = some frame)
    (only : frame.pinCount = 1) (after : pools.Pins (id :: extra)) (owed : pools.owed id = fallible.pools.owed id) :
    (pools.freeFrame id).Pins extra := by
  have count := pins.frameCount found
  rw [only,count_cons_self] at count
  exact after.freed (by omega) fun other different => by rw [count_cons_of_ne different.symm]

theorem purged (pins : fallible.pools.Pins (id :: extra)) (purges : fallible.Purges id) (order : Order) :
    (fallible.purgeFrame order id).2.pools.Pins extra := by
  obtain ⟨frame,found⟩ := pins.resident id (by rw [count_cons_self]; omega)
  obtain ⟨only,flushes⟩ := purges frame found
  unfold purgeFrame
  rw [found]
  dsimp only
  rw [if_neg (by omega)]
  split
  · rename_i dirty
    have done : (fallible.flushPageInternal order frame).1 = .success := by
      unfold flushPageInternal
      rw [flushes dirty]
    rw [if_neg (by rw [done]; decide)]
    exact freedPins pins found only (flushInternalPins pins order frame) (flushInternalOwed order frame id)
  · exact freedPins pins found only pins rfl

theorem notPurged (pins : fallible.pools.Pins (id :: extra)) (purges : ¬ fallible.Purges id) (order : Order) :
    (fallible.purgeFrame order id).2.pools.Pins (id :: extra) := by
  unfold purgeFrame
  cases found : fallible.pools.manager.find id with
  | none => exact pins
  | some frame =>
    dsimp only
    split
    · exact pins
    · have one : frame.pinCount = 1 := by omega
      have stuck : frame.dirty = true ∧ fallible.next ≠ none := by
        by_contra free
        refine purges fun other here => ?_
        rw [found] at here
        cases here
        exact ⟨one,fun dirty => by_contra fun fails => free ⟨dirty,fails⟩⟩
      rw [if_pos stuck.1]
      obtain ⟨failure,fails⟩ := Option.ne_none_iff_exists'.mp stuck.2
      have code : (fallible.flushPageInternal order frame).1 = failure.rc := by
        unfold flushPageInternal
        rw [fails]
      rw [if_pos (by rw [code]; exact failure.failed)]
      exact flushInternalPins pins order frame

theorem purgeFrameOwed (order : Order) (other : FrameId) :
    (fallible.purgeFrame order id).2.pools.owed other = fallible.pools.owed other := by
  have freed : ∀ pools : Pools, (pools.freeFrame id).owed other = pools.owed other := by
    intro pools
    unfold freeFrame
    split
    · rfl
    · rfl
  unfold purgeFrame
  split
  · rfl
  · split
    · rfl
    · split
      · dsimp only
        split
        · exact flushInternalOwed _ _ _
        · exact (freed _).trans (flushInternalOwed _ _ _)
      · exact freed _

theorem purgeEachPins (order : Order) {leaked} (pins : fallible.pools.Pins (ids ++ leaked)) :
    ∃ left, (ids.foldl (fun fallible id => (fallible.purgeFrame order id).2) fallible).pools.Pins left ∧
      (∀ id ∈ ids, 0 < fallible.pools.owed id → id ∈ left) ∧ ∀ id ∈ leaked, id ∈ left := by
  induction ids generalizing fallible leaked with
  | nil => exact ⟨leaked,pins,fun _ inside => absurd inside not_mem_nil,fun _ inside => inside⟩
  | cons id rest ih =>
    by_cases purges : fallible.Purges id
    · obtain ⟨left,final,kept,old⟩ := ih (purged pins purges order)
      refine ⟨left,final,fun other inside owed => ?_,old⟩
      rcases mem_cons.mp inside with here | later
      · -- nothing but the loop has the page
        subst here
        obtain ⟨frame,found⟩ := pins.resident other (by omega)
        have count := pins.frameCount found
        have one := (purges frame found).1
        rw [cons_append,count_cons_self] at count
        omega
      · exact kept other later (by rwa [purgeFrameOwed])
    · have moved : (id :: rest ++ leaked).Perm (rest ++ id :: leaked) := perm_middle.symm
      obtain ⟨left,final,kept,old⟩ := ih ((notPurged pins purges order).perm moved)
      refine ⟨left,final,fun other inside owed => ?_,fun other inside => old other (mem_cons_of_mem _ inside)⟩
      rcases mem_cons.mp inside with here | later
      · exact old other (here ▸ mem_cons_self)
      · exact kept other later (by rwa [purgeFrameOwed])

theorem flushEachPins (order : Order) (pins : fallible.pools.Pins ids) :
    ∃ left, (flushEach order ids fallible).2.pools.Pins left ∧
      (left = [] ↔ ∀ outcome ∈ fallible.flushes.take (ids.length - 1), outcome = none) := by
  induction ids generalizing fallible with
  | nil => exact ⟨[],pins,by simp⟩
  | cons id rest ih =>
    obtain ⟨frame,found⟩ := pins.resident id (by rw [count_cons_self]; omega)
    have flush : fallible.flushPage order id = fallible.flushPageInternal order frame := by
      rw [flushPage,found]
    have unpinned := (flushInternalPins pins order frame).unpinnedFrame
    rw [flushEach,flush,length_cons,Nat.add_sub_cancel]
    dsimp only
    cases fails : fallible.next with
    | some failure =>
      have code : (fallible.flushPageInternal order frame).1 = failure.rc := by
        unfold flushPageInternal
        rw [fails]
      rw [if_pos (by rw [code]; exact failure.failed)]
      refine ⟨rest,unpinned,?_⟩
      cases flushes : fallible.flushes with
      | nil => simp [next,flushes] at fails
      | cons outcome later =>
        have first : outcome = some failure := by simpa [next,flushes] using fails
        cases rest with
        | nil => simp
        | cons other rest => simp [first]
    | none =>
      have code : (fallible.flushPageInternal order frame).1 = .success := by
        unfold flushPageInternal
        rw [fails]
      have later : (fallible.flushPageInternal order frame).2.flushes = fallible.flushes.tail := by
        unfold flushPageInternal
        rw [fails]
      rw [if_neg (by rw [code]; decide)]
      have rested : Fallible.pools { (fallible.flushPageInternal order frame).2 with
        pools := (fallible.flushPageInternal order frame).2.pools.unpinFrame id } |>.Pins rest := unpinned
      obtain ⟨left,final,all⟩ := ih rested
      refine ⟨left,final,all.trans ?_⟩
      rw [later]
      cases flushes : fallible.flushes with
      | nil => simp
      | cons outcome later =>
        have first : outcome = none := by simpa [next,flushes] using fails
        cases rest with
        | nil => simp
        | cons other rest => simp [first]

theorem unpinEachPins (pins : pools.Pins ids) : (ids.foldl (fun pools id => pools.unpinFrame id) pools).Pins [] := by
  induction ids generalizing pools with
  | nil => exact pins
  | cons id rest ih => exact ih pins.unpinnedFrame

theorem findPinAll (manager : BPFrameManager) (pool : Int32) (other : FrameId) : (manager.pinAll pool).find other =
    (manager.find other).map fun frame =>
      if frame.id.bufferPoolId = pool then { frame with pinCount := frame.pinCount + 1 } else frame := by
  rw [find,pinAll,find?_map]
  congr 2
  funext frame
  dsimp only [Function.comp]
  split
  · rfl
  · rfl

theorem findListPins (pins : fallible.pools.Pins []) (pool : Int32) :
    (fallible.findList pool).pools.Pins (fallible.pools.poolIds pool) := by
  have ids : ((fallible.pools.manager.pinAll pool).frames.map Frame.id) = fallible.pools.manager.frames.map Frame.id := by
    rw [pinAll,map_map]
    refine map_congr_left fun frame _ => ?_
    dsimp only [Function.comp]
    split
    · rfl
    · rfl
  refine ⟨by rw [findList,ids]; exact pins.distinct,fun other => ?_⟩
  have unique : (fallible.pools.poolIds pool).Nodup := pins.distinct.sublist (filter_sublist.map _)
  show ((((fallible.pools.manager.pinAll pool).find other).map Frame.pinCount).getD 0 : Nat) = fallible.pools.owed other + _
  rw [findPinAll,unique.count]
  cases found : fallible.pools.manager.find other with
  | none =>
    have gone : other ∉ fallible.pools.poolIds pool := by
      intro inside
      obtain ⟨frame,member,rfl⟩ := mem_map.mp inside
      have there := findOfMem pins.distinct (mem_filter.mp member).1
      rw [found] at there
      cases there
    rw [if_neg gone]
    exact (pins.owesNothing found).symm
  | some frame =>
    have count := pins.frameCount found
    have key := findId found
    have inside : other ∈ fallible.pools.poolIds pool ↔ other.bufferPoolId = pool := by
      constructor
      · intro inside
        obtain ⟨frame',member,rfl⟩ := mem_map.mp inside
        simpa using (mem_filter.mp member).2
      · intro own
        exact mem_map.mpr ⟨frame,mem_filter.mpr ⟨mem_of_find?_eq_some found,by rw [key]; simpa using own⟩,key⟩
    rw [Option.map_some,Option.map_some,Option.getD_some,key]
    by_cases own : other.bufferPoolId = pool
    · rw [if_pos own,if_pos (inside.mpr own)]
      exact congrArg (· + 1) count
    · rw [if_neg own,if_neg fun there => own (inside.mp there)]
      exact count

/-- What makes `get_this_page` leave a pin behind: the page has no frame and cannot be loaded, and the free
frame it is given is dirty and cannot be flushed. -/
def GetBalanced (id : FrameId) (fallible : Fallible) : Prop :=
  fallible.pools.manager.find id = none → fallible.pools.loadPage id = none →
    ∀ free rest, fallible.pools.manager.frees = free :: rest → free.dirty = true → fallible.next = none

theorem getPins (pins : fallible.pools.Pins []) {order answer after}
    (ok : fallible.getThisPage order id = some (answer,after)) :
    ∃ left, after.pools.Pins left ∧ (left = [] ↔ fallible.GetBalanced id) := by
  unfold getThisPage at ok
  cases found : fallible.pools.manager.find id with
  | some frame =>
    rw [found,getFound found] at ok
    cases ok
    refine ⟨[],(pins.gotten (getFound found)).held,iff_of_true rfl fun absent => ?_⟩
    rw [found] at absent
    cases absent
  | none =>
    rw [found] at ok
    obtain ⟨framed,allocated,last⟩ := Option.map_eq_some_iff.mp ok
    have framedPins := pins.allocatedFallible allocated
    cases loaded : framed.pools.loadPage id with
    | some page =>
      rw [loaded] at last
      cases last
      refine ⟨[],(framedPins.quiet id (f := fun frame => { frame with page := page }) (fun _ => rfl) fun _ => rfl).held,
        iff_of_true rfl ?_⟩
      intro _ missing free rest queue
      rw [Pins.allocateAtOnce (Pins.allocFree found queue)] at allocated
      cases allocated
      have same : fallible.pools.loadPage id = some page := loaded
      rw [missing] at same
      cases same
    | none =>
      rw [loaded] at last
      cases last
      have only : ∀ frame, framed.pools.manager.find id = some frame → frame.pinCount = 1 := by
        intro frame here
        have nothing := pins.owesNothing found
        rw [framedPins.frameCount here,Pins.allocateOwedFallible allocated,count_cons_self]
        omega
      have purges : framed.Purges id ↔ fallible.GetBalanced id := by
        cases queue : fallible.pools.manager.frees with
        | nil =>
          obtain ⟨frame,here,clean⟩ := pins.evictedCleanFallible found queue allocated
          refine iff_of_true (fun other there => ⟨only other there,fun dirty => ?_⟩) fun _ _ free rest some => ?_
          · rw [here] at there
            cases there
            rw [clean] at dirty
            cases dirty
          · rw [queue] at some
            cases some
        | cons free rest =>
          rw [Pins.allocateAtOnce (Pins.allocFree found queue)] at allocated
          cases allocated
          have here : find id ⟨{ free with id := id, pinCount := 1 } :: fallible.pools.manager.frames,rest⟩ =
              some { free with id := id, pinCount := 1 } := by
            rw [findCons rfl,if_pos rfl]
          constructor
          · intro purges _ _ free' rest' same dirty
            rw [queue] at same
            cases same
            exact (purges _ here).2 dirty
          · intro balanced frame there
            refine ⟨only frame there,fun dirty => balanced found loaded free rest queue ?_⟩
            cases here.symm.trans there
            exact dirty
      by_cases freed : framed.Purges id
      · exact ⟨[],purged framedPins freed order,iff_of_true rfl (purges.mp freed)⟩
      · exact ⟨[id],notPurged framedPins freed order,iff_of_false (by simp) fun balanced => freed (purges.mpr balanced)⟩

end Fallible

namespace PinCall
open Pools Fallible

/-- The calls that take back what they pin. `purge_all_pages` never does: it cannot free the frame of the
header, which the open pool has pinned. -/
def Balanced (fallible : Fallible) : PinCall → Prop
  | poolCall (.allocatePage pool lsn grown) => ∀ header page, fallible.pools.manager.find (headerId pool) = some header →
      header.page.content.pool.freePage = some page →
      { fallible with pools := reusing lsn grown pool header.page.content.pool page fallible.pools }.GetBalanced ⟨pool,Int32.ofNat page⟩
  | poolCall (.getThisPage id grown) => { fallible with pools := fallible.pools.growOver grown id }.GetBalanced id
  | poolCall (.flushAllPages pool) => ∀ outcome ∈ fallible.flushes.take ((fallible.pools.poolIds pool).length - 1), outcome = none
  | poolCall (.purgePage id) => ∀ frame, fallible.pools.manager.find id = some frame →
      frame.pinCount = 0 ∧ (frame.dirty = true → fallible.next = none)
  | purgeAllPages _ => False
  | poolCall (.modify _ _) | poolCall (.unpin _) | poolCall (.flushPage _) | checkAllPagesUnpinned _ => True

variable {fallible after : Fallible}

variable {order : Order}

theorem allocatePagePins (pins : fallible.pools.Pins []) {lsn grown pool answer}
    (ok : fallible.allocatePage order lsn grown pool = some (answer,after)) :
    ∃ left, after.pools.Pins left ∧ (left = [] ↔ (poolCall (.allocatePage pool lsn grown)).Balanced fallible) := by
  unfold Fallible.allocatePage at ok
  cases found : fallible.pools.manager.find (headerId pool) with
  | none => simp [found] at ok
  | some header =>
    rw [found] at ok
    dsimp only at ok
    cases free : header.page.content.pool.freePage with
    | some page =>
      rw [free] at ok
      have start : Pins [] (Fallible.pools
          { fallible with pools := reusing lsn grown pool header.page.content.pool page fallible.pools }) :=
        (pins.written _ _).grown _ _
      obtain ⟨left,final,balanced⟩ := getPins start ok
      refine ⟨left,final,balanced.trans ⟨fun h header' page' here there => ?_,fun h => h header page found free⟩⟩
      cases found.symm.trans here
      cases free.symm.trans there
      exact h
    | none =>
      have balanced : (poolCall (.allocatePage pool lsn grown)).Balanced fallible := by
        intro header' page' here there
        cases found.symm.trans here
        rw [free] at there
        cases there
      rw [free] at ok
      dsimp only at ok
      split at ok
      · cases ok
        exact ⟨[],pins,iff_of_true rfl balanced⟩
      · obtain ⟨framed,allocated,last⟩ := Option.map_eq_some_iff.mp ok
        have framedPins := pins.allocatedFallible allocated
        have cleared := (framedPins.written (headerId pool) (((header.page.content.pool.setBit
          header.page.content.pool.fileHeader.pageCount).extend).content lsn)).quiet
            ⟨pool,Int32.ofNat header.page.content.pool.fileHeader.pageCount⟩
            (f := fun frame => { frame with page := Content.zero.page 0 }) (fun _ => rfl) fun _ => rfl
        obtain ⟨frame,here⟩ := cleared.resident ⟨pool,Int32.ofNat header.page.content.pool.fileHeader.pageCount⟩
          (by rw [count_cons_self]; omega)
        rw [here] at last
        cases last
        have extended : Fallible.pools { framed with pools := _ } |>.Pins _ := cleared
        exact ⟨[],(flushInternalPins extended order frame).held,iff_of_true rfl balanced⟩

theorem applyPins (pins : fallible.pools.Pins []) {call : PinCall} (ok : call.apply order fallible = some after) :
    ∃ left, after.pools.Pins left ∧ (left = [] ↔ call.Balanced fallible) := by
  cases call with
  | poolCall call =>
    cases call with
    | allocatePage pool lsn grown =>
      rw [apply] at ok
      split at ok
      · obtain ⟨⟨answer,last⟩,allocated,rfl⟩ := Option.map_eq_some_iff.mp ok
        exact allocatePagePins pins allocated
      · cases ok
    | getThisPage id grown =>
      obtain ⟨⟨answer,last⟩,gotten,rfl⟩ := Option.map_eq_some_iff.mp ok
      have grownPins : Fallible.pools { fallible with pools := fallible.pools.growOver grown id } |>.Pins [] := pins.grown grown id
      exact getPins grownPins gotten
    | modify id content =>
      cases ok
      refine ⟨[],?_,iff_of_true rfl trivial⟩
      split
      · exact pins.written id content
      · exact pins
    | unpin id =>
      cases ok
      refine ⟨[],?_,iff_of_true rfl trivial⟩
      split
      · rename_i some
        exact pins.unpinned some
      · exact pins
    | flushPage id =>
      cases ok
      refine ⟨[],?_,iff_of_true rfl trivial⟩
      split
      · unfold Fallible.flushPage
        split
        · exact flushInternalPins pins order _
        · exact pins
      · exact pins
    | flushAllPages pool =>
      cases ok
      exact flushEachPins order (findListPins pins pool)
    | purgePage id =>
      cases ok
      unfold Fallible.purgePage
      cases found : fallible.pools.manager.find id with
      | none =>
        rw [getNone found]
        refine ⟨[],pins,iff_of_true rfl fun frame here => ?_⟩
        rw [found] at here
        cases here
      | some frame =>
        obtain ⟨manager,got⟩ : ∃ manager, fallible.pools.manager.get id = some manager := ⟨_,getFound found⟩
        have there := findGet found got id
        rw [if_pos rfl] at there
        rw [got]
        dsimp only
        obtain ⟨gotten,same⟩ : ∃ gotten : Fallible, gotten = { fallible with pools := { fallible.pools with manager := manager } } :=
          ⟨_,rfl⟩
        have pinned : gotten.pools.Pins [id] := by
          rw [same]
          exact pins.gotten got
        rw [← same]
        have purges : gotten.Purges id ↔ (poolCall (.purgePage id)).Balanced fallible := by
          rw [same]
          constructor
          · intro purges frame' here
            cases found.symm.trans here
            obtain ⟨one,flushes⟩ := purges _ there
            exact ⟨Nat.succ.inj one,flushes⟩
          · intro balanced frame' here
            cases there.symm.trans here
            obtain ⟨zero,flushes⟩ := balanced frame found
            exact ⟨congrArg (· + 1) zero,flushes⟩
        by_cases freed : gotten.Purges id
        · exact ⟨[],purged pinned freed order,iff_of_true rfl (purges.mp freed)⟩
        · exact ⟨[id],notPurged pinned freed order,iff_of_false (by simp) fun balanced => freed (purges.mpr balanced)⟩
  | purgeAllPages pool =>
    rw [apply] at ok
    split at ok
    · rename_i isOpen
      cases ok
      have listed := findListPins pins pool
      have owed : 0 < fallible.pools.owed (headerId pool) := by
        rw [owed,if_pos ⟨rfl,isOpen⟩]
        omega
      obtain ⟨header,found⟩ := pins.resident (headerId pool) (by omega)
      have inside : headerId pool ∈ fallible.pools.poolIds pool :=
        mem_map.mpr ⟨header,mem_filter.mpr ⟨mem_of_find?_eq_some found,
          by rw [findId found]; simp [headerId]⟩,findId found⟩
      obtain ⟨left,final,kept,-⟩ := purgeEachPins order (by rwa [append_nil])
      exact ⟨left,final,iff_of_false (ne_nil_of_mem (kept _ inside owed)) fun never => never⟩
    · cases ok
  | checkAllPagesUnpinned pool =>
    cases ok
    exact ⟨[],unpinEachPins (findListPins pins pool),iff_of_true rfl trivial⟩

abbrev Run := List (Order × List (Option Failure) × PinCall)

def reached : Run → Pools → List Pools
  | [],pools => [pools]
  | (order,flushes,call) :: rest,pools => pools :: match call.apply order ⟨pools,flushes⟩ with
    | some after => reached rest after.pools
    | none => []

def AllBalanced : Run → Pools → Prop
  | [],_ => True
  | (order,flushes,call) :: rest,pools => ∀ after, call.apply order ⟨pools,flushes⟩ = some after →
      call.Balanced ⟨pools,flushes⟩ ∧ AllBalanced rest after.pools

theorem openingPins {headers} (distinct : (headers.map Prod.fst).Nodup) (frees : List Frame) (maxPages : Int32)
    (disk : Disk) : (opening headers frees maxPages disk).Pins [] := by
  refine ⟨?_,fun id => ?_⟩
  · have ids : (opening headers frees maxPages disk).manager.frames.map Frame.id = (headers.map Prod.fst).map headerId := by
      rw [opening,map_map,map_map]
      rfl
    rw [ids]
    exact distinct.map fun a b same => congrArg DoubleWritePageKey.bufferPoolId same
  · cases found : (opening headers frees maxPages disk).manager.find id with
    | some frame =>
      obtain ⟨header,inside,rfl,rfl⟩ := openingFind found
      rw [Refines.pinsFound found,owed,if_pos ⟨rfl,mem_map_of_mem inside⟩]
      rfl
    | none =>
      rw [Refines.pinsNone found,owed,if_neg]
      · rfl
      · rintro ⟨zero,isOpen⟩
        obtain ⟨header,inside,pool⟩ := mem_map.mp isOpen
        have absent := find?_eq_none.mp found _ (mem_map_of_mem inside)
        refine absent (decide_eq_true ?_)
        rw [pool,headerId,← zero]

def twoFrames : Pools := opening [(1,newHeader)] [⟨⟨0,0⟩,0,false,filled 0⟩] 16 threePages

def slotNotWritten : Failure where
  rc := .ioerrWrite
  dblwr := ⟨16,0,[⟨⟨1,1⟩,0,true,{ filled 1 with checkSum := crc32 (filled 1).data }⟩]⟩
  disk := threePages
  failed := by decide

theorem pinsMatchIff {pools : Pools} (pins : pools.Pins []) (run : Run) :
    (∀ state ∈ reached run pools, state.PinsMatch) ↔ AllBalanced run pools := by
  induction run generalizing pools with
  | nil => exact iff_of_true (by simpa [reached] using pins.matching) trivial
  | cons head rest ih =>
    obtain ⟨order,flushes,call⟩ := head
    rw [reached,AllBalanced,forall_mem_cons,and_iff_right pins.matching]
    cases applied : call.apply order ⟨pools,flushes⟩ with
    | none => exact iff_of_true (fun _ inside => absurd inside not_mem_nil) fun after ran => by cases ran
    | some after =>
      have start : Fallible.pools ⟨pools,flushes⟩ |>.Pins [] := pins
      obtain ⟨left,final,balanced⟩ := applyPins start applied
      constructor
      · intro same after' ran
        cases ran
        have start : after.pools ∈ reached rest after.pools := by
          cases rest with
          | nil => exact mem_singleton_self _
          | cons next rest => exact mem_cons_self
        have none : left = [] := by_contra fun leaked => final.mismatch leaked (same _ start)
        subst none
        exact ⟨balanced.mp rfl,(ih final).mp same⟩
      · intro all
        obtain ⟨here,later⟩ := all after rfl
        have none := balanced.mpr here
        subst none
        exact (ih final).mpr later

theorem pinsTakenBack : twoFrames.Pins [] ∧ ∀ state ∈ reached [(inOrder,[],.poolCall (.getThisPage ⟨1,1⟩ false)),
    (inOrder,[none,some slotNotWritten],.poolCall (.flushAllPages 1)),(inOrder,[],.poolCall (.unpin ⟨1,1⟩)),
    (inOrder,[],.poolCall (.purgePage ⟨1,1⟩))] twoFrames, state.PinsMatch := by
  have page : readPage (threePages.data ⟨1,1⟩) = some (filled 1) := readPageBytes _
  have pins : twoFrames.Pins [] := openingPins (by simp) _ _ _
  refine ⟨pins,(pinsMatchIff pins _).mpr ?_⟩
  simp [twoFrames,AllBalanced,Balanced,GetBalanced,apply,opening,growOver,Fallible.getThisPage,BPFrameManager.find,BPFrameManager.get,
    headerId,Fallible.allocateFrame,Pools.allocateFrame,alloc,Pools.loadPage,DiskDoubleWriteBuffer.readPage,
    DiskDoubleWriteBuffer.find,page,hold,update,Fallible.flushAllPages,Fallible.flushEach,Fallible.flushPage,
    Fallible.flushPageInternal,Fallible.next,poolIds,Fallible.findList,pinAll,failFlush,unpinFrame,
    slotNotWritten,Pools.flushPageInternal,DiskDoubleWriteBuffer.addPage,Pools.unpin]

/-- Page 1 is got, and then all pages are flushed, where the first flush fails; or page 1 is purged while
it is in use. -/
theorem pinsLeft : (∃ state ∈ reached [(inOrder,[],.poolCall (.getThisPage ⟨1,1⟩ false)),
        (inOrder,[some slotNotWritten],.poolCall (.flushAllPages 1))] twoFrames,
      state.owed (headerId 1) = 1 ∧ ∃ frame ∈ state.manager.frames, frame.id = headerId 1 ∧ frame.pinCount = 2) ∧
    ∃ state ∈ reached [(inOrder,[],.poolCall (.getThisPage ⟨1,1⟩ false)),(inOrder,[],.poolCall (.purgePage ⟨1,1⟩))] twoFrames,
      state.owed ⟨1,1⟩ = 1 ∧ ∃ frame ∈ state.manager.frames, frame.id = ⟨1,1⟩ ∧ frame.pinCount = 2 := by
  have page : readPage (threePages.data ⟨1,1⟩) = some (filled 1) := readPageBytes _
  constructor
  · simp [reached,apply,twoFrames,Pools.opening,Pools.growOver,Fallible.getThisPage,BPFrameManager.find,BPFrameManager.get,headerId,
      Fallible.allocateFrame,Pools.allocateFrame,alloc,Pools.loadPage,DiskDoubleWriteBuffer.readPage,
      DiskDoubleWriteBuffer.find,page,hold,update,Fallible.flushAllPages,Fallible.flushEach,Fallible.flushPage,
      Fallible.flushPageInternal,Fallible.next,poolIds,Fallible.findList,pinAll,failFlush,unpinFrame,
      slotNotWritten,owed]
  · simp [reached,apply,twoFrames,Pools.opening,Pools.growOver,Fallible.getThisPage,BPFrameManager.find,BPFrameManager.get,headerId,
      Fallible.allocateFrame,Pools.allocateFrame,alloc,Pools.loadPage,DiskDoubleWriteBuffer.readPage,
      DiskDoubleWriteBuffer.find,page,hold,update,Fallible.purgePage,Fallible.purgeFrame,owed]

end PinCall
end MiniOb.Buffer
