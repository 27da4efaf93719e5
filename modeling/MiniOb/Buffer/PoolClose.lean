import MiniOb.Buffer.PoolRuns

/-! `close_file` after `flush_all_pages`: the file holds the pages as the pool showed them last. -/
namespace MiniOb.Buffer
open List

namespace BPFrameManager

def pinAll (pool : Int32) (manager : BPFrameManager) : BPFrameManager :=
  { manager with frames := manager.frames.map fun frame =>
      if frame.id.bufferPoolId = pool then { frame with pinCount := frame.pinCount + 1 } else frame }

end BPFrameManager

namespace Pools

def poolIds (pool : Int32) (pools : Pools) : List FrameId :=
  (pools.manager.frames.filter fun frame => frame.id.bufferPoolId = pool).map Frame.id

def purgeAllPages (order : Order) (pool : Int32) (pools : Pools) : Pools :=
  (pools.poolIds pool).foldl (fun pools id => pools.purgeFrame order id) { pools with manager := pools.manager.pinAll pool }

def closeFile (order : Order) (pool : Int32) (pools : Pools) : Pools :=
  let unpinned := { pools with manager := pools.manager.update (headerId pool) fun frame => { frame with pinCount := frame.pinCount - 1 } }
  let purged := unpinned.purgeAllPages order pool
  let (writes,dblwr) := purged.dblwr.clearPages pool
  { purged with opened := purged.opened.erase pool, dblwr := dblwr, disk := purged.disk.writeAll writes }

def onFile (pools : Pools) (id : FrameId) : Option Content := (readPage (pools.disk.data id)).map Page.content

def Clean (pool : Int32) (pools : Pools) : Prop := ∀ frame ∈ pools.manager.frames, frame.id.bufferPoolId = pool → frame.dirty = false

theorem cleanFound {pools : Pools} (clean : pools.Clean pool) {id} (own : id.bufferPoolId = pool)
    (found : pools.manager.find id = some frame) : frame.dirty = false :=
  clean frame (mem_of_find?_eq_some found) (by rw [BPFrameManager.findId found,own])

theorem purgeFrameClean {pools : Pools} (clean : pools.Clean pool) {id} (own : id.bufferPoolId = pool)
    (order : Order) : (pools.purgeFrame order id).Clean pool ∧ (pools.purgeFrame order id).dblwr = pools.dblwr ∧
      (pools.purgeFrame order id).disk = pools.disk := by
  unfold purgeFrame
  cases found : pools.manager.find id with
  | none => exact ⟨clean,rfl,rfl⟩
  | some frame =>
    dsimp only
    split
    · exact ⟨clean,rfl,rfl⟩
    · rw [flushDirty,if_neg (by simp [cleanFound clean own found]),freeFrame,found]
      refine ⟨fun other inside => clean other ?_,rfl,rfl⟩
      exact (mem_filter.mp inside).1

theorem purgeAllClean {pools : Pools} (clean : pools.Clean pool) (order : Order) :
    (pools.purgeAllPages order pool).dblwr = pools.dblwr ∧ (pools.purgeAllPages order pool).disk = pools.disk := by
  have own : ∀ id ∈ pools.poolIds pool, id.bufferPoolId = pool := by
    intro id inside
    obtain ⟨frame,member,rfl⟩ := mem_map.mp inside
    simpa using (mem_filter.mp member).2
  have start : Clean pool { pools with manager := pools.manager.pinAll pool } := by
    intro frame inside isOwn
    obtain ⟨old,member,rfl⟩ := mem_map.mp inside
    by_cases here : old.id.bufferPoolId = pool
    · rw [if_pos here]
      exact clean old member here
    · rw [if_neg here] at isOwn ⊢
      exact clean old member isOwn
  unfold purgeAllPages
  generalize pools.poolIds pool = ids at own
  suffices h : ∀ start : Pools, start.Clean pool →
      (ids.foldl (fun pools id => pools.purgeFrame order id) start).dblwr = start.dblwr ∧
        (ids.foldl (fun pools id => pools.purgeFrame order id) start).disk = start.disk from h _ start
  induction ids with
  | nil => exact fun _ _ => ⟨rfl,rfl⟩
  | cons id rest ih =>
    intro start clean
    obtain ⟨kept,dblwr,disk⟩ := purgeFrameClean clean (own id mem_cons_self) order
    obtain ⟨dblwrRest,diskRest⟩ := ih (fun other inside => own other (mem_cons_of_mem _ inside)) _ kept
    exact ⟨dblwrRest.trans dblwr,diskRest.trans disk⟩

end Pools

open DiskDoubleWriteBuffer in
theorem clearPagesData (ok : DblwrOk dblwr) (disk : Disk) (id : FrameId) :
    (readPage ((disk.writeAll (dblwr.clearPages id.bufferPoolId).1).data id)).map Page.content = lower dblwr disk id := by
  have perm := mergeSort_perm (dblwr.pages.filter fun page => page.key.bufferPoolId = id.bufferPoolId)
    fun a b => a.key.pageNum.toInt ≤ b.key.pageNum.toInt
  have distinct := (perm.map DoubleWritePage.key).nodup_iff.mpr (ok.keys.sublist (filter_sublist.map _))
  obtain ⟨written,kept⟩ := flushPageData distinct disk
  have writes : (dblwr.clearPages id.bufferPoolId).1 = ((dblwr.pages.filter fun page => page.key.bufferPoolId = id.bufferPoolId).mergeSort
      fun a b => a.key.pageNum.toInt ≤ b.key.pageNum.toInt).flatMap fun page => writePage page ++ [writePageInternal page.invalidated] := by
    refine flatMap_congr fun page inside => ?_
    have valid := ok.valid page (mem_filter.mp (perm.mem_iff.mp inside)).1
    rw [writePage,if_pos valid]
    rfl
  rw [writes]
  cases found : dblwr.find id with
  | some page =>
    obtain ⟨inside,rfl⟩ := findSome found
    have sorted := perm.mem_iff.mpr (mem_filter.mpr ⟨inside,by simp⟩)
    rw [lowerFound found,written page sorted (ok.valid page inside),readPageBytes]
    rfl
  | none =>
    rw [lowerNone found,kept id fun page inside _ => findNone found page (mem_filter.mp (perm.mem_iff.mp inside)).1]

namespace Refines
variable {opened : List Int32} {pools : Pools} {store : PageStore}

theorem flushPagesClean (refines : Refines opened pools store) (order : Order) {ids : List FrameId}
    (ahead : ∀ frame ∈ pools.manager.frames, frame.id.bufferPoolId = pool → frame.dirty = false ∨ frame.id ∈ ids) :
    (ids.foldl (fun pools id => pools.flushPage order id) pools).Clean pool := by
  induction ids generalizing pools with
  | nil => exact fun frame inside own => (ahead frame inside own).resolve_right not_mem_nil
  | cons id rest ih =>
    refine ih (refines.flush order id) fun frame inside own => ?_
    have after := BPFrameManager.findOfMem (refines.flush order id).distinct inside
    rw [Pools.flushPage] at after
    cases found : pools.manager.find id with
    | none =>
      simp only [found] at after
      have here := mem_of_find?_eq_some after
      have other : frame.id ≠ id := by
        intro same
        rw [same,found] at after
        cases after
      exact (ahead frame here own).imp_right fun inside => (mem_cons.mp inside).resolve_left other
    | some old =>
      simp only [found] at after
      rw [(refines.flushInternal found order).2] at after
      by_cases same : frame.id = id
      · rw [if_pos same] at after
        cases after
        exact .inl rfl
      · rw [if_neg same] at after
        have here := mem_of_find?_eq_some after
        exact (ahead frame here own).imp_right fun inside => (mem_cons.mp inside).resolve_left same

theorem flushAllClean (refines : Refines opened pools store) (order : Order) (pool : Int32) : (pools.flushAllPages order pool).Clean pool :=
  refines.flushPagesClean order fun frame inside own =>
    .inr (mem_map_of_mem (mem_filter.mpr ⟨inside,by simpa using own⟩))

theorem lowerClean (refines : Refines opened pools store) {id : FrameId} (clean : pools.Clean id.bufferPoolId) :
    lower pools.dblwr pools.disk id = store.memory id := by
  rw [← refines.same id]
  cases found : pools.manager.find id with
  | some frame => rw [refines.clean id frame found (Pools.cleanFound clean rfl found),currentFound found]
  | none => exact (currentNone found).symm

theorem syncClosed (refines : Refines opened pools store) (order order' : Order) (id : FrameId) :
    ((pools.flushAllPages order id.bufferPoolId).closeFile order' id.bufferPoolId).onFile id = store.memory id := by
  have flushed := refines.flushAll order id.bufferPoolId
  have clean := refines.flushAllClean order id.bufferPoolId
  generalize pools.flushAllPages order id.bufferPoolId = synced at flushed clean ⊢
  have unpinned : Pools.Clean id.bufferPoolId { synced with
      manager := synced.manager.update (Pools.headerId id.bufferPoolId) fun frame => { frame with pinCount := frame.pinCount - 1 } } := by
    intro frame inside own
    obtain ⟨old,member,rfl⟩ := mem_map.mp inside
    by_cases header : old.id = Pools.headerId id.bufferPoolId
    · rw [if_pos header]
      exact clean old member (by rw [header]; rfl)
    · rw [if_neg header] at own ⊢
      exact clean old member own
  obtain ⟨dblwr,disk⟩ := Pools.purgeAllClean unpinned order'
  rw [Pools.onFile,Pools.closeFile]
  rw [dblwr,disk,clearPagesData flushed.dblwr]
  exact flushed.lowerClean clean

end Refines

/- What a run wrote last is where a later opening of the file starts. -/
theorem closedPagesKept (ok : PoolCall.run calls (Pools.opening headers frees maxPages disk) = some (answers,last))
    (distinct : (headers.map Prod.fst).Nodup) (clean : ∀ frame ∈ frees, frame.dirty = false)
    (there : ∀ header ∈ headers, readPage (disk.data (Pools.headerId header.1)) = some header.2)
    (counted : ∀ header ∈ headers, 0 < header.2.content.pool.fileHeader.pageCount) :
    ∃ store, PageStore.run calls (PageStore.onDisk disk) = some (answers,store) ∧ ∀ order order' id,
      (PageStore.onDisk ((last.flushAllPages order id.bufferPoolId).closeFile order' id.bufferPoolId).disk).memory id =
        store.memory id := by
  have start : Counted (headers.map Prod.fst) (PageStore.onDisk disk) := by
    intro pool isOpen
    obtain ⟨header,inside,rfl⟩ := mem_map.mp isOpen
    exact ⟨header.2.content,congrArg (Option.map Page.content) (there header inside),counted header inside⟩
  obtain ⟨store,same,kept⟩ := (openingRefines distinct clean there).run start ok
  exact ⟨store,same,kept.syncClosed⟩

theorem rewrittenPageClosed : ∃ answers last store,
    PoolCall.run (turns inOrder (filled 9).content) (Pools.opening [(1,newHeader)] [⟨⟨0,0⟩,0,false,filled 0⟩] 16 threePages) =
      some (answers,last) ∧
    PageStore.run (turns inOrder (filled 9).content) (PageStore.onDisk threePages) = some (answers,store) ∧
    (PageStore.onDisk ((last.flushAllPages inOrder 1).closeFile inOrder 1).disk).memory ⟨1,1⟩ = store.memory ⟨1,1⟩ := by
  obtain ⟨last,ran⟩ := turnsRun inOrder newHeader (filled 1) (filled 2) ⟨⟨0,0⟩,0,false,filled 0⟩ (filled 9).content threePages
    (readPageBytes _) (readPageBytes _)
  have there : readPage (threePages.data (Pools.headerId 1)) = some newHeader := readPageBytes newHeader
  obtain ⟨store,same,pages⟩ := closedPagesKept ran (by simp) (by simp) (by simpa using there) (by simpa using newHeaderCounted)
  exact ⟨_,last,store,ran,same,pages inOrder inOrder ⟨1,1⟩⟩

end MiniOb.Buffer
