import MiniOb.Buffer.PinCount

/-! The loop of `allocate_frame`, round by round (`disk_buffer_pool.cpp`): when it comes to an end, and when not. -/
namespace MiniOb.Buffer
open BPFrameManager Option

abbrev Outcomes := Nat → FrameId → Option Failure

namespace Pools

def purgeFrames (order : Order) (outcome : FrameId → Option Failure) (pools : Pools) : Pools :=
  match pools.manager.victim with
  | none => pools
  | some frame =>
    if frame.dirty then match outcome frame.id with
      | some failure => pools.failFlush failure frame
      | none => (pools.flushPageInternal order frame).freeFrame frame.id
    else pools.freeFrame frame.id

def allocateRounds (order : Order) (id : FrameId) : Nat → Outcomes → Pools → Option (RC × Pools)
  | 0,_,_ => none
  | rounds + 1,outcomes,pools => match pools.manager.alloc id with
    | some manager => some (.success,{ pools with manager := manager })
    | none => allocateRounds order id rounds (fun n => outcomes (n + 1)) (pools.purgeFrames order (outcomes 0))

def CanFlush (outcomes : Outcomes) (frame : Frame) : Prop := frame.dirty = false ∨ ∃ n, outcomes n frame.id = none

def Available (id : FrameId) (outcomes : Outcomes) (pools : Pools) : Prop :=
  (∃ frame, pools.manager.find id = some frame) ∨ pools.manager.frees ≠ [] ∨
    ∃ frame ∈ pools.manager.frames, frame.pinCount = 0 ∧ CanFlush outcomes frame

def ReturnsFrame (order : Order) (id : FrameId) (outcomes : Outcomes) (pools : Pools) : Prop :=
  ∃ rounds after frame, pools.allocateRounds order id rounds outcomes = some (.success,after) ∧
    after.manager.find id = some frame ∧ 0 < frame.pinCount

structure AllocatesFrame (order : Order) (id : FrameId) (outcomes : Outcomes) (pools : Pools) : Prop where
  frame : pools.Available id outcomes → pools.ReturnsFrame order id outcomes
  nobuf : ¬pools.Available id outcomes → ∃ rounds after,
    pools.allocateRounds order id rounds outcomes = some (.bufferpoolNobuf,after)

def Evicts (id : FrameId) (outcomes : Outcomes) (pools : Pools) : Prop :=
  (∃ frame, pools.manager.find id = some frame) ∨ pools.manager.frees ≠ [] ∨
    ∃ frame, pools.manager.victim = some frame ∧ CanFlush outcomes frame

end Pools

namespace BPFrameManager
variable {manager : BPFrameManager} {id : FrameId} {frame : Frame}

theorem allocNone : manager.alloc id = none ↔ manager.find id = none ∧ manager.frees = [] := by
  unfold alloc get
  cases manager.find id with
  | some frame => simp
  | none =>
    cases manager.frees with
    | nil => simp
    | cons frame rest => simp

theorem allocFound (ok : manager.alloc id = some after) :
    ∃ frame, after.find id = some frame ∧ 0 < frame.pinCount := by
  unfold alloc get at ok
  cases found : manager.find id with
  | some frame =>
    have same : frame.id = id := by simpa using List.find?_some found
    rw [found] at ok
    cases ok
    exact ⟨_,List.find?_cons_of_pos (by simpa using same),Nat.succ_pos _⟩
  | none =>
    rw [found] at ok
    cases frees : manager.frees with
    | nil => simp [frees] at ok
    | cons frame rest =>
      simp only [frees] at ok
      cases ok
      exact ⟨_,List.find?_cons_of_pos (by simp),Nat.one_pos⟩

theorem victimUpdate (pins : ∀ frame, (f frame).pinCount = frame.pinCount) (id : FrameId) :
    (manager.update id f).victim = manager.victim.map fun frame => if frame.id = id then f frame else frame := by
  unfold victim update
  rw [← List.map_reverse,List.find?_map]
  congr 2
  funext frame
  dsimp only [Function.comp]
  split
  · rw [pins]
  · rfl

end BPFrameManager

namespace Pools
variable {order : Order} {id : FrameId} {outcomes : Outcomes} {pools : Pools} {frame : Frame}

theorem roundsPurge (full : pools.manager.alloc id = none) (rounds : Nat) :
    pools.allocateRounds order id (rounds + 1) outcomes =
      (pools.purgeFrames order (outcomes 0)).allocateRounds order id rounds fun n => outcomes (n + 1) := by
  rw [allocateRounds,full]

theorem returnsAtOnce (ok : pools.manager.alloc id ≠ none) : pools.ReturnsFrame order id outcomes := by
  obtain ⟨manager,allocated⟩ := ne_none_iff_exists'.mp ok
  obtain ⟨frame,found,pinned⟩ := allocFound allocated
  refine ⟨1,{ pools with manager := manager },frame,?_,found,pinned⟩
  rw [allocateRounds,allocated]

theorem ReturnsFrame.afterPurge (later : (pools.purgeFrames order (outcomes 0)).ReturnsFrame order id fun n => outcomes (n + 1)) :
    pools.ReturnsFrame order id outcomes := by
  by_cases full : pools.manager.alloc id = none
  · obtain ⟨rounds,after,frame,ended,found⟩ := later
    exact ⟨rounds + 1,after,frame,by rw [roundsPurge full,ended],found⟩
  · exact returnsAtOnce full

theorem allocFreed (inside : ∃ other ∈ pools.manager.frames, other.id = frame.id) :
    (pools.freeFrame frame.id).manager.alloc id ≠ none := by
  obtain ⟨other,member,same⟩ := inside
  have resident : pools.manager.find frame.id ≠ none := by
    intro absent
    have different := List.find?_eq_none.mp absent other member
    simp [same] at different
  obtain ⟨found,is⟩ := ne_none_iff_exists'.mp resident
  intro full
  have none := (allocNone.mp full).2
  rw [freeFrame,is] at none
  simp [free] at none

variable {outcome : FrameId → Option Failure}

theorem purgedFrees (picked : pools.manager.victim = some frame)
    (flushes : frame.dirty = false ∨ outcome frame.id = none) : (pools.purgeFrames order outcome).manager.alloc id ≠ none := by
  obtain ⟨member,_⟩ := victimMem picked
  unfold purgeFrames
  rw [picked]
  dsimp only
  split
  · rename_i dirty
    rcases flushes with clean | succeeds
    · rw [clean] at dirty
      cases dirty
    · rw [succeeds]
      refine allocFreed ⟨_,List.mem_map_of_mem member,?_⟩
      rw [if_pos rfl]
  · exact allocFreed ⟨frame,member,rfl⟩

theorem purgeAgain (full : pools.manager.alloc id = none) (picked : pools.manager.victim = some frame)
    (dirty : frame.dirty = true) (fails : outcome frame.id ≠ none) :
    (pools.purgeFrames order outcome).manager.alloc id = none ∧
      ∃ again, (pools.purgeFrames order outcome).manager.victim = some again ∧ again.id = frame.id ∧ again.dirty = true := by
  obtain ⟨failure,failed⟩ := ne_none_iff_exists'.mp fails
  obtain ⟨absent,none⟩ := allocNone.mp full
  unfold purgeFrames
  rw [picked]
  dsimp only
  rw [if_pos dirty,failed]
  constructor
  · refine allocNone.mpr ⟨?_,none⟩
    dsimp only [failFlush]
    rw [findUpdate (f := fun frame => { frame with page := { frame.page with checkSum := crc32 frame.page.data } })
      fun _ => rfl,absent]
    split
    · rename_i same
      rw [← same,absent]
      rfl
    · rfl
  · dsimp only [failFlush]
    rw [victimUpdate
      (f := fun frame => { frame with page := { frame.page with checkSum := crc32 frame.page.data } }) fun _ => rfl,picked,
      map_some,if_pos rfl]
    exact ⟨_,rfl,rfl,dirty⟩

theorem evictsReturns (picked : pools.manager.victim = some frame)
    (flushes : frame.dirty = false ∨ outcomes n frame.id = none) : pools.ReturnsFrame order id outcomes := by
  -- on the number of the round whose flush succeeds
  induction n generalizing pools outcomes frame with
  | zero => exact (returnsAtOnce (purgedFrees picked flushes)).afterPurge
  | succ n ih =>
    by_cases full : pools.manager.alloc id = none
    · by_cases first : frame.dirty = false ∨ outcomes 0 frame.id = none
      · exact (returnsAtOnce (purgedFrees picked first)).afterPurge
      · obtain ⟨notClean,fails⟩ := not_or.mp first
        obtain ⟨_,again,pickedAgain,same,_⟩ := purgeAgain full picked (by simpa using notClean) fails
        have later : outcomes (n + 1) again.id = none := by
          rw [same]
          exact flushes.resolve_left notClean
        have rest : (pools.purgeFrames order (outcomes 0)).ReturnsFrame order id fun n => outcomes (n + 1) :=
          ih pickedAgain (.inr later)
        exact rest.afterPurge
    · exact returnsAtOnce full

def Stuck (id : FrameId) (outcomes : Outcomes) (pools : Pools) : Prop :=
  pools.manager.alloc id = none ∧ ∀ frame, pools.manager.victim = some frame → ¬CanFlush outcomes frame

theorem stuckIff : pools.Stuck id outcomes ↔ ¬pools.Evicts id outcomes := by
  unfold Stuck Evicts
  rw [allocNone]
  constructor
  · rintro ⟨⟨absent,none⟩,blocked⟩ (⟨frame,found⟩ | some | ⟨frame,picked,flushes⟩)
    · rw [absent] at found
      cases found
    · exact some none
    · exact blocked frame picked flushes
  · intro not
    obtain ⟨absent,rest⟩ := not_or.mp not
    obtain ⟨none,blocked⟩ := not_or.mp rest
    refine ⟨⟨?_,not_not.mp none⟩,fun frame picked flushes => blocked ⟨frame,picked,flushes⟩⟩
    cases found : pools.manager.find id with
    | none => rfl
    | some frame => exact absurd ⟨frame,found⟩ absent

theorem Stuck.rounds (stuck : pools.Stuck id outcomes) (rounds : Nat) : pools.allocateRounds order id rounds outcomes = none := by
  induction rounds generalizing pools outcomes with
  | zero => rfl
  | succ rounds ih =>
    obtain ⟨full,blocked⟩ := stuck
    rw [roundsPurge full]
    cases picked : pools.manager.victim with
    | none =>
      have same : pools.purgeFrames order (outcomes 0) = pools := by rw [purgeFrames,picked]
      rw [same]
      refine ih ⟨full,fun frame some => ?_⟩
      rw [picked] at some
      cases some
    | some frame =>
      obtain ⟨notClean,fails⟩ := not_or.mp (blocked frame picked)
      have never := not_exists.mp fails
      obtain ⟨fullAgain,again,pickedAgain,same,dirty⟩ := purgeAgain full picked (by simpa using notClean) (never 0)
      refine ih ⟨fullAgain,fun other some => ?_⟩
      rw [pickedAgain] at some
      cases some
      rintro (clean | ⟨n,succeeds⟩)
      · rw [clean] at dirty
        cases dirty
      · exact never (n + 1) (same ▸ succeeds)

theorem Evicts.available (evicts : pools.Evicts id outcomes) : pools.Available id outcomes := by
  rcases evicts with found | some | ⟨frame,picked,flushes⟩
  · exact .inl found
  · exact .inr (.inl some)
  · obtain ⟨member,unpinned⟩ := victimMem picked
    exact .inr (.inr ⟨frame,member,unpinned,flushes⟩)

theorem Evicts.returns (evicts : pools.Evicts id outcomes) : pools.ReturnsFrame order id outcomes := by
  rcases evicts with ⟨frame,found⟩ | some | ⟨frame,picked,clean | ⟨n,succeeds⟩⟩
  · refine returnsAtOnce fun full => ?_
    rw [(allocNone.mp full).1] at found
    cases found
  · exact returnsAtOnce fun full => some (allocNone.mp full).2
  · exact evictsReturns (n := 0) picked (.inl clean)
  · exact evictsReturns picked (.inr succeeds)

theorem allocatesFrameIff (order : Order) (id : FrameId) (outcomes : Outcomes) (pools : Pools) :
    pools.AllocatesFrame order id outcomes ↔ pools.Evicts id outcomes := by
  constructor
  · intro allocates
    by_contra not
    have forever : ∀ rounds, pools.allocateRounds order id rounds outcomes = none := (stuckIff.mpr not).rounds
    by_cases available : pools.Available id outcomes
    · obtain ⟨rounds,after,frame,ended,_⟩ := allocates.frame available
      rw [forever] at ended
      cases ended
    · obtain ⟨rounds,after,ended⟩ := allocates.nobuf available
      rw [forever] at ended
      cases ended
  · intro evicts
    exact ⟨fun _ => evicts.returns,fun not => absurd evicts.available not⟩

def twoPages (pins : Nat) : Pools where
  opened := [1]
  manager := ⟨[⟨⟨1,1⟩,pins,false,filled 1⟩,⟨⟨1,2⟩,pins,true,filled 2⟩],[]⟩
  dblwr := ⟨16,0,[]⟩
  disk := threePages
  held := fun _ => pins

/-- Page 2 can never be flushed, and page 1 is not tried; or both are in use. -/
theorem neverAllocated : (¬(twoPages 0).AllocatesFrame inOrder ⟨1,3⟩ (fun _ _ => some PinCall.slotNotWritten) ∧
      (twoPages 0).Available ⟨1,3⟩ (fun _ _ => some PinCall.slotNotWritten) ∧
      ∀ rounds, (twoPages 0).allocateRounds inOrder ⟨1,3⟩ rounds (fun _ _ => some PinCall.slotNotWritten) = none) ∧
    ¬(twoPages 1).AllocatesFrame inOrder ⟨1,3⟩ (fun _ _ => none) ∧ ¬(twoPages 1).Available ⟨1,3⟩ (fun _ _ => none) ∧
      ∀ rounds, (twoPages 1).allocateRounds inOrder ⟨1,3⟩ rounds (fun _ _ => none) = none := by
  have available : (twoPages 0).Available ⟨1,3⟩ (fun _ _ => some PinCall.slotNotWritten) :=
    .inr (.inr ⟨_,List.mem_cons_self,rfl,.inl rfl⟩)
  have blocked : (twoPages 0).Stuck ⟨1,3⟩ fun _ _ => some PinCall.slotNotWritten := by
    refine ⟨rfl,fun frame picked => ?_⟩
    cases some.inj picked
    rintro (clean | ⟨_,succeeds⟩)
    · cases clean
    · cases succeeds
  have none : ¬(twoPages 1).Available ⟨1,3⟩ (fun _ _ => none) := by
    simp [Available,twoPages,find]
  have pinned : (twoPages 1).Stuck ⟨1,3⟩ fun _ _ => Option.none := ⟨rfl,fun _ picked => by cases picked⟩
  refine ⟨⟨fun right => ?_,available,blocked.rounds⟩,fun right => ?_,none,pinned.rounds⟩
  · obtain ⟨rounds,after,frame,ended,_⟩ := right.frame available
    rw [blocked.rounds] at ended
    cases ended
  · obtain ⟨rounds,after,ended⟩ := right.nobuf none
    rw [pinned.rounds] at ended
    cases ended

def Rounds (order : Order) (id : FrameId) (outcomes : Outcomes) (pools : Pools) : Option Pools → Prop
  | some after => ∃ rounds, pools.allocateRounds order id rounds outcomes = some (.success,after)
  | none => ∀ rounds, pools.allocateRounds order id rounds outcomes = none

theorem allocateFrameRounds
    (settles : pools.manager.alloc id = none → ∀ frame, pools.manager.victim = some frame → frame.dirty = true →
      outcomes 0 frame.id = none) : pools.Rounds order id outcomes (pools.allocateFrame order id) := by
  unfold Pools.allocateFrame
  cases allocated : pools.manager.alloc id with
  | some manager => exact ⟨1,by rw [allocateRounds,allocated]⟩
  | none =>
    cases picked : pools.manager.victim with
    | none =>
      refine fun rounds => Stuck.rounds ⟨allocated,fun frame some => ?_⟩ rounds
      rw [picked] at some
      cases some
    | some frame =>
      have clean := settles allocated frame picked
      have purged : pools.purgeFrames order (outcomes 0) = (pools.flushDirty order frame).freeFrame frame.id := by
        rw [purgeFrames,picked,flushDirty]
        dsimp only
        split
        · rename_i dirty
          rw [clean dirty]
        · rfl
      have frees : ((pools.flushDirty order frame).freeFrame frame.id).manager.alloc id ≠ none := by
        rw [← purged]
        refine purgedFrees picked ?_
        cases dirty : frame.dirty with
        | false => exact .inl rfl
        | true => exact .inr (clean dirty)
      obtain ⟨manager,again⟩ := ne_none_iff_exists'.mp frees
      dsimp only
      rw [again,map_some]
      refine ⟨2,?_⟩
      rw [roundsPurge allocated,purged,allocateRounds,again]

end Pools

namespace Fallible

theorem mapPools (flushes : List (Option Failure)) (answer : Option Pools) :
    (answer.map fun pools => (⟨pools,flushes⟩ : Fallible)).map Fallible.pools = answer := by
  rw [map_map]
  exact map_id'

theorem retriesFollow (order : Order) (id : FrameId) (flushes : List (Option Failure)) (pools : Pools) :
    pools.Rounds order id (fun n _ => flushes.getD n none) ((allocateFrame order id flushes pools).map Fallible.pools) := by
  induction flushes generalizing pools with
  | nil =>
    rw [allocateFrame,mapPools]
    exact Pools.allocateFrameRounds fun _ _ _ _ => rfl
  | cons outcome rest ih =>
    unfold allocateFrame
    split
    · rename_i frame failure full picked
      split
      · rename_i dirty
        have purged : pools.purgeFrames order (fun _ => some failure) = pools.failFlush failure frame := by
          rw [Pools.purgeFrames,picked]
          dsimp only
          rw [if_pos dirty]
        have later := ih (pools.failFlush failure frame)
        cases ended : (allocateFrame order id rest (pools.failFlush failure frame)).map Fallible.pools with
        | none =>
          rw [ended] at later
          intro rounds
          cases rounds with
          | zero => rfl
          | succ rounds =>
            rw [Pools.roundsPurge full]
            exact purged ▸ later rounds
        | some after =>
          rw [ended] at later
          obtain ⟨rounds,ended⟩ := later
          refine ⟨rounds + 1,?_⟩
          rw [Pools.roundsPurge full]
          exact purged ▸ ended
      · rename_i clean
        rw [mapPools]
        refine Pools.allocateFrameRounds fun _ other same dirty => ?_
        rw [picked] at same
        cases same
        exact absurd dirty clean
    · rw [mapPools]
      exact Pools.allocateFrameRounds fun _ _ _ _ => rfl
    · rename_i fails _
      rw [mapPools]
      refine Pools.allocateFrameRounds fun full frame picked _ => ?_
      refine eq_none_iff_forall_ne_some.mpr fun failure same => ?_
      exact fails frame failure full picked same

end Fallible

end MiniOb.Buffer
