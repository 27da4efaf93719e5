import MiniOb.BplusTree.Log

/-! Runs of the node handlers as changes of a store: the pages, the header and the
allocation map, without the latches, the log and the dirty marks. No call into the buffer
pool fails here. -/
namespace MiniOb.BplusTree
open Buffer (BPFileHeader)
open Prog PagedTree InternalIndexNodeHandler

variable {K : Type}

structure Store (K : Type) where
  header : IndexFileHeader
  node : PageNum → IndexNode K
  file : BPFileHeader
  disposed : List PageNum

structure Sees (s : Handler K) (S : Store K) : Prop where
  faults : s.mtr.faults = []
  header : s.disk.header = S.header
  node : s.disk.node = S.node
  file : s.disk.file = S.file
  disposed : s.mtr.disposed = S.disposed

namespace Store

def set (S : Store K) (p : PageNum) (x : IndexNode K) : Store K := { S with node := Function.update S.node p x }

def setRoot (S : Store K) (root : PageNum) : Store K := { S with header := { S.header with rootPage := root } }

def dispose (S : Store K) (p : PageNum) : Store K := { S with disposed := S.disposed ++ [p] }

def adopt (S : Store K) (cs : List PageNum) (q : PageNum) : Store K :=
  { S with node := fun c => if c ∈ cs then (S.node c).setParent q else S.node c }

section
variable (S : Store K) (p q : PageNum) (x y : IndexNode K)

@[simp] theorem setHeader : (S.set p x).header = S.header := rfl
@[simp] theorem setNodeSelf : (S.set p x).node p = x := by simp [set]

@[simp] theorem setSet : (S.set p x).set p y = S.set p y := by
  simp [set,Function.update_idem]

variable {S p q x y}

theorem setNodeOther (different : c ≠ p) : (S.set p x).node c = S.node c := by
  simp [set,Function.update_of_ne different]

theorem setComm (different : p ≠ q) : (S.set p x).set q y = (S.set q y).set p x := by
  simp [set,Function.update_comm different]

theorem setSelf (same : S.node p = x) : S.set p x = S := by
  simp [set,← same,Function.update_eq_self]

end

end Store

variable {S T : Store K} {p q : PageNum} {x : IndexNode K}

/-! ### Buffer pool and latch memo -/

theorem takesFault : Takes Sees (fault : TreeM K Unit) S (.ok ()) S := by
  intro s h
  simp only [fault,h.faults]
  exact ⟨trivial,h⟩

theorem takesHold : Takes Sees (hold item : TreeM K Unit) S (.ok ()) S :=
  takesUpdate fun _ h => ⟨h.faults,h.header,h.node,h.file,h.disposed⟩

theorem takesLetGo (item : MemoItem) : Takes Sees (letGo item : TreeM K Unit) S (.ok ()) S :=
  takesUpdate fun _ h => ⟨h.faults,h.header,h.node,h.file,h.disposed⟩

theorem takesMemoize (item : MemoItem) : Takes Sees (memoize item : TreeM K Unit) S (.ok ()) S :=
  takesUpdate fun _ h => ⟨h.faults,h.header,h.node,h.file,h.disposed⟩

theorem takesLatch : Takes Sees (latch item : TreeM K Unit) S (.ok ()) S :=
  takesBind takesHold (takesMemoize item)

theorem takesReleaseTo (point : Nat) : Takes Sees (releaseTo point : TreeM K Unit) S (.ok ()) S :=
  takesUpdate fun _ h => ⟨h.faults,h.header,h.node,h.file,h.disposed⟩

theorem takesReleaseAll : Takes Sees (releaseAll : TreeM K Unit) S (.ok ()) S :=
  takesBindAny (fun _ h => ⟨_,rfl,h⟩) takesReleaseTo

theorem takesGetPage (page : PageNum) : Takes Sees (getPage page : TreeM K Unit) S (.ok ()) S :=
  takesBind takesFault takesLatch

theorem takesMarkDirty : Takes Sees (markDirty page : TreeM K Unit) S (.ok ()) S :=
  takesUpdate fun _ h => ⟨h.faults,h.header,h.node,h.file,h.disposed⟩

theorem takesDisposePage (page : PageNum) :
    Takes Sees (disposePage page : TreeM K Unit) S (.ok ()) (S.dispose page) :=
  takesUpdate fun _ h => ⟨h.faults,h.header,h.node,h.file,by rw [h.disposed]; rfl⟩

variable {α : Type}

theorem takesAppendLog (record : LSN → LogRecord) {r}
    (rest : ∀ lsn, Takes Sees (f lsn) S r T) : Takes Sees (appendLog record >>= f) S r T :=
  takesBindAny (fun _ h => ⟨_,rfl,⟨h.faults,h.header,h.node,h.file,h.disposed⟩⟩) rest

theorem takesAppendLogEntry : Takes Sees (appendLogEntry entry : TreeM K Unit) S (.ok ()) S := by
  refine takesUpdate fun s h => ?_
  split
  · exact ⟨h.faults,h.header,h.node,h.file,h.disposed⟩
  · exact h

theorem takesInsist {a} (ok : Takes Sees m S (.ok a) T) : Takes Sees (insist m) S (.ok a) T := by
  intro s h
  obtain ⟨value,seen⟩ := ok s h
  have same : m s = (.ok a,(m s).2) := Prod.ext value rfl
  simp only [insist]
  rw [same]
  exact ⟨rfl,seen⟩

theorem takesAssert [Decidable c] (holds : c) : Takes Sees (assert c : TreeM K Unit) S (.ok ()) S := by
  rw [assert,if_pos holds]
  exact takesPure

theorem takesGetNode (page : PageNum) : Takes Sees (getNode page) S (.ok (S.node page)) S :=
  takesRead fun _ h => by rw [h.node]

theorem takesSetNode {node} :
    Takes Sees (setNode page node) S (.ok ()) (S.set page node) :=
  takesUpdate fun _ h => ⟨h.faults,h.header,by rw [h.node]; rfl,h.file,h.disposed⟩

theorem takesGetHeader : Takes Sees (getHeader : TreeM K IndexFileHeader) S (.ok S.header) S :=
  takesRead fun _ h => h.header

theorem takesPageCount : Takes Sees (read fun s : Handler K => s.disk.file.pageCount : TreeM K Nat) S
    (.ok S.file.pageCount) S :=
  takesRead fun _ h => by rw [h.file]

theorem takesIsEmpty : Takes Sees (isEmpty : TreeM K Bool) S
    (.ok (decide (S.header.rootPage = bpInvalidPageNum))) S :=
  takesBind takesGetHeader takesPure

theorem takesUpdateRoot (root : PageNum) :
    Takes Sees (updateRootPageNumLocked root : TreeM K Unit) S (.ok ()) (S.setRoot root) := by
  refine takesBind (takesInsist (takesGetPage _)) (takesBind takesLatch (takesBind takesGetHeader
    (takesBind takesAppendLogEntry (takesBind (a := ()) (T := S.setRoot root) ?_ takesMarkDirty))))
  exact takesUpdate fun _ h => ⟨h.faults,by simp only [Store.setRoot,h.header],h.node,h.file,h.disposed⟩

theorem takesSetParent (page parent : PageNum) : Takes Sees (IndexNodeHandler.setParentPageNum page parent) S (.ok ())
      (S.set page ((S.node page).setParent parent)) :=
  takesBind (takesGetNode page) (takesBind takesAppendLogEntry takesSetNode)

/-! ### Leaves -/

section
variable {ops : KeyOps K} {parent next other parent' next' : PageNum} {items items' new : List (K × RID)}

variable {α : Type} {item : K × RID}

theorem recoverInsertEnd (new items : List α) : recoverInsertItems items.length new items = items ++ new := by
  simp [recoverInsertItems]

theorem recoverInsertAt (before after : List α) (new : α) :
    recoverInsertItems before.length [new] (before ++ after) = before ++ new :: after := by
  simp [recoverInsertItems]

theorem recoverInsertAfter (before after : List α) (x new : α) :
    recoverInsertItems (before.length + 1) [new] (before ++ x :: after) = before ++ x :: new :: after := by
  simp [recoverInsertItems,List.take_append]

theorem recoverRemoveEnd (index : Nat) (items : List α) :
    recoverRemoveItems index (items.length - index) items = items.take index := by
  unfold recoverRemoveItems
  split
  · omega
  · rcases Nat.le_total index items.length with h | h
    · rw [Nat.sub_sub_self h]
    · rw [List.take_of_length_le h,Nat.sub_eq_zero_of_le h,Nat.sub_zero,List.take_length]

theorem recoverRemoveOne {items : List α} (inside : index < items.length) :
    recoverRemoveItems index 1 items = items.eraseIdx index := by
  unfold recoverRemoveItems
  rw [List.eraseIdx_eq_take_drop_succ]
  split
  · rfl
  · have last : index = items.length - 1 := by omega
    rw [last,List.drop_of_length_le (by omega),List.append_nil]

theorem takesLeafView (leaf : S.node p = .leaf parent next items) :
    Takes Sees (LeafIndexNodeHandler.view p) S (.ok (parent,next,items)) S := by
  refine takesBind (takesGetNode p) ?_
  rw [leaf]
  exact takesPure

theorem takesLeafInitEmpty : Takes Sees (LeafIndexNodeHandler.initEmpty p) S (.ok ())
    (S.set p (.leaf bpInvalidPageNum bpInvalidPageNum [])) :=
  takesBind takesAppendLogEntry takesSetNode

variable (other) in
theorem takesSetNextPage (leaf : S.node p = .leaf parent next items) :
    Takes Sees (LeafIndexNodeHandler.setNextPage p other) S (.ok ()) (S.set p (.leaf parent other items)) :=
  takesBind (takesLeafView leaf) (takesBind takesAppendLogEntry takesSetNode)

variable (ops new) in
theorem takesLeafInsertItems (index : Nat) (leaf : S.node p = .leaf parent next items) :
    Takes Sees (LeafIndexNodeHandler.insertItems ops p index new) S (.ok ())
      (S.set p (.leaf parent next (recoverInsertItems index new items))) :=
  takesBind (takesLeafView leaf) (takesBind takesAppendLogEntry takesSetNode)

theorem takesLeafAppend (leaf : S.node p = .leaf parent next items) :
    Takes Sees (LeafIndexNodeHandler.append ops p new) S (.ok ()) (S.set p (.leaf parent next (items ++ new))) := by
  refine takesBind (takesLeafView leaf) ?_
  rw [← recoverInsertEnd]
  exact takesLeafInsertItems _ _ _ leaf

variable (ops) in
theorem takesLeafRemove (index : Nat) (leaf : S.node p = .leaf parent next items) (inside : index < items.length) :
    Takes Sees (LeafIndexNodeHandler.remove ops p index) S (.ok ())
      (S.set p (.leaf parent next (items.eraseIdx index))) := by
  rw [← recoverRemoveOne inside]
  exact takesBind (takesLeafView leaf) (takesBind (takesAssert inside)
    (takesBind takesAppendLogEntry takesSetNode))

variable (ops) (leaf' : S.node q = .leaf parent' next' items') (different : p ≠ q)
include leaf' different

theorem takesLeafMoveHalfTo (leaf : S.node p = .leaf parent next items) :
    Takes Sees (LeafIndexNodeHandler.moveHalfTo ops p q) S (.ok ())
      ((S.set q (.leaf parent' next' (items' ++ items.drop (items.length / 2)))).set p
        (.leaf parent next (items.take (items.length / 2)))) := by
  refine takesBind (takesLeafView leaf) (takesBind (takesLeafAppend leaf') ?_)
  have again := (Store.setNodeOther (S := S) (x := .leaf parent' next' (items' ++ items.drop (items.length / 2))) different).trans leaf
  refine takesBind (takesLeafView again) (takesBind takesAppendLogEntry ?_)
  rw [← recoverRemoveEnd]
  exact takesSetNode

theorem takesLeafMoveFirstToEnd (leaf : S.node p = .leaf parent next (item :: items)) :
    Takes Sees (LeafIndexNodeHandler.moveFirstToEnd ops p q) S (.ok ())
      ((S.set q (.leaf parent' next' (items' ++ [item]))).set p (.leaf parent next items)) := by
  refine takesBind (takesLeafView leaf) (takesBind (takesLeafAppend leaf') ?_)
  exact takesLeafRemove _ 0 ((Store.setNodeOther different).trans leaf) (by simp)

theorem takesLeafMoveLastToFront (leaf : S.node p = .leaf parent next (items ++ [item])) :
    Takes Sees (LeafIndexNodeHandler.moveLastToFront ops p q) S (.ok ())
      ((S.set q (.leaf parent' next' (item :: items'))).set p (.leaf parent next items)) := by
  refine takesBind (takesLeafView leaf) ?_
  simp only [List.getLast?_append,List.getLast?_singleton,Option.some_or]
  refine takesBind (takesLeafInsertItems _ _ 0 leaf') ?_
  have removed := takesLeafRemove ops ((items ++ [item]).length - 1)
    ((Store.setNodeOther (S := S) (x := .leaf parent' next' (recoverInsertItems 0 [item] items')) different).trans leaf) (by simp)
  have rest : (items ++ [item]).eraseIdx ((items ++ [item]).length - 1) = items := by
    simp [List.eraseIdx_append_of_length_le]
  rw [rest] at removed
  exact removed

theorem takesLeafMoveTo (leaf : S.node p = .leaf parent next items) :
    Takes Sees (LeafIndexNodeHandler.moveTo ops p q) S (.ok ())
      ((S.set q (.leaf parent' next (items' ++ items))).set p (.leaf parent next [])) := by
  refine takesBind (takesLeafView leaf) (takesBind (takesLeafAppend leaf')
    (takesBind (takesSetNextPage _ (S.setNodeSelf _ _)) ?_))
  rw [Store.setSet]
  exact takesBind (takesLeafView ((Store.setNodeOther different).trans leaf))
    (takesBind takesAppendLogEntry takesSetNode)

end

/-! ### Internal nodes -/

section
variable {ops : KeyOps K} {parent parent' : PageNum} {items items' new : List (K × PageNum)}

variable {cs : List PageNum} {c : PageNum} {index : Nat} {item : K × PageNum}

theorem Store.adoptNodeOther (outside : c ∉ cs) : (S.adopt cs q).node c = S.node c := if_neg outside

theorem Store.adoptNodeMember (inside : c ∈ cs) : (S.adopt cs q).node c = (S.node c).setParent q := if_pos inside

@[simp] theorem Store.adoptNil : S.adopt [] q = S := by simp [Store.adopt]

theorem Store.adoptCons (c : PageNum) (cs : List PageNum) :
    (S.set c ((S.node c).setParent q)).adopt cs q = S.adopt (c :: cs) q := by
  simp only [Store.adopt,Store.set,Store.mk.injEq,true_and,and_true]
  funext d
  by_cases same : d = c
  · subst same
    simp
  · simp [same]

theorem takesInternalView (node : S.node p = .internal parent items) :
    Takes Sees (view p) S (.ok (parent,items)) S := by
  refine takesBind (takesGetNode p) ?_
  rw [node]
  exact takesPure

theorem takesInternalInitEmpty : Takes Sees (InternalIndexNodeHandler.initEmpty p) S (.ok ())
    (S.set p (.internal bpInvalidPageNum [])) :=
  takesBind takesAppendLogEntry takesSetNode

variable (ops) in
theorem takesCreateNewRoot (first child : PageNum) (key : K) (node : S.node p = .internal parent []) :
    Takes Sees (createNewRoot ops p first key child) S (.ok ())
      (S.set p (.internal parent [(ops.zeroKey,first),(key,child)])) :=
  takesBind (takesInternalView node) (takesBind takesAppendLogEntry takesSetNode)

theorem takesKeyAt (found : items[index]? = some item) :
    Takes Sees (keyAt items index) S (.ok item.1) S := by
  simp only [keyAt,found]
  exact takesPure

theorem takesValueAt (found : items[index]? = some (k,child)) :
    Takes Sees (valueAt items index) S (.ok child) S := by
  simp only [valueAt,found]
  exact takesPure

variable (ops) in
theorem takesInternalInsert (key : K) (child : PageNum) (node : S.node p = .internal parent items) :
    Takes Sees (insert ops p key child) S (.ok ()) (S.set p (.internal parent
        (recoverInsertItems (lookup ops key items).2 [(key,child)] items))) :=
  takesBind (takesInternalView node) (takesBind takesAppendLogEntry takesSetNode)

theorem takesAdoptChildren (new : List (K × PageNum)) :
    Takes Sees (adoptChildren p new) S (.ok ()) (S.adopt (new.map Prod.snd) p) := by
  induction new generalizing S with
  | nil =>
    rw [List.map_nil,Store.adoptNil]
    exact takesPure
  | cons item rest ih =>
    rw [List.map_cons,← Store.adoptCons]
    exact takesBind (takesGetPage _) (takesBind (takesSetParent _ _) (takesBind takesMarkDirty ih))

variable (ops new) in
theorem takesInternalInsertItems (index : Nat) (node : S.node p = .internal parent items) :
    Takes Sees (insertItems ops p index new) S (.ok ())
      ((S.set p (.internal parent (recoverInsertItems index new items))).adopt (new.map Prod.snd) p) :=
  takesBind (takesInternalView node) (takesBind takesAppendLogEntry (takesBind takesSetNode
    (takesAdoptChildren _)))

theorem takesInternalAppend (node : S.node p = .internal parent items) :
    Takes Sees (append ops p new) S (.ok ())
      ((S.set p (.internal parent (items ++ new))).adopt (new.map Prod.snd) p) := by
  refine takesBind (takesInternalView node) ?_
  rw [← recoverInsertEnd]
  exact takesInternalInsertItems _ _ _ node

variable (ops) in
theorem takesSetKeyAt (index : Nat) (key : K) (node : S.node p = .internal parent items)
    (found : items[index]? = some item) : Takes Sees (setKeyAt ops p index key) S (.ok ())
      (S.set p (.internal parent (items.set index (key,item.2)))) := by
  refine takesBind (takesInternalView node) ?_
  simp only [found]
  exact takesBind takesAppendLogEntry takesSetNode

variable (ops) in
theorem takesInternalRemove (index : Nat) (node : S.node p = .internal parent items)
    (inside : index < items.length) : Takes Sees (remove ops p index) S (.ok ())
      (S.set p (.internal parent (items.eraseIdx index))) := by
  rw [← recoverRemoveOne inside]
  exact takesBind (takesInternalView node) (takesBind (takesAssert inside)
    (takesBind takesAppendLogEntry takesSetNode))

theorem Store.movedOther (node : S.node p = x) (different : p ≠ q)
    (outside : p ∉ cs) : ((S.set q y).adopt cs q).node p = x := by
  rw [Store.adoptNodeOther outside,Store.setNodeOther different,node]

section
variable (node : S.node p = .internal parent items) (node' : S.node q = .internal parent' items') (different : p ≠ q)
  (outside : p ∉ items.map Prod.snd)
include node node' different outside

variable (ops) in
theorem takesInternalMoveHalfTo : Takes Sees (InternalIndexNodeHandler.moveHalfTo ops p q) S (.ok ())
      (((S.set q (.internal parent' (items' ++ items.drop (items.length / 2)))).adopt
        ((items.drop (items.length / 2)).map Prod.snd) q).set p
        (.internal parent (items.take (items.length / 2)))) := by
  refine takesBind (takesInternalView node) (takesBind (takesInternalAppend node') ?_)
  have apart : p ∉ (items.drop (items.length / 2)).map Prod.snd := fun inside =>
    outside (List.map_subset _ (List.drop_subset _ _) inside)
  exact takesBind (takesInternalView (Store.movedOther node different apart))
    (takesBind takesAppendLogEntry takesSetNode)

variable (ops) in
theorem takesInternalMoveTo : Takes Sees (InternalIndexNodeHandler.moveTo ops p q) S (.ok ())
      (((S.set q (.internal parent' (items' ++ items))).adopt (items.map Prod.snd) q).set p
        (.internal parent [])) := by
  refine takesBind (takesInternalView node) (takesBind (takesInternalAppend node') ?_)
  refine takesBind (takesInternalView (Store.movedOther node different outside))
    (takesBind takesAppendLogEntry ?_)
  have empty : recoverRemoveItems 0 items.length items = [] := by
    simpa using recoverRemoveEnd 0 items
  rw [← empty]
  exact takesSetNode

end

variable (ops) in
theorem takesInternalMoveFirstToEnd (node : S.node p = .internal parent (item :: items))
    (node' : S.node q = .internal parent' items') (different : p ≠ q) (outside : p ≠ item.2) :
    Takes Sees (InternalIndexNodeHandler.moveFirstToEnd ops p q) S (.ok ())
      (((S.set q (.internal parent' (items' ++ [item]))).adopt [item.2] q).set p (.internal parent items)) := by
  refine takesBind (takesInternalView node) (takesBind (takesInternalAppend node') ?_)
  exact takesInternalRemove _ 0 (Store.movedOther node different (by simpa using outside)) (by simp)

variable (ops) in
theorem takesInternalMoveLastToFront (node : S.node p = .internal parent (items ++ [item]))
    (node' : S.node q = .internal parent' items') (different : p ≠ q) (outside : p ≠ item.2) :
    Takes Sees (InternalIndexNodeHandler.moveLastToFront ops p q) S (.ok ())
      (((S.set q (.internal parent' (item :: items'))).adopt [item.2] q).set p (.internal parent items)) := by
  refine takesBind (takesInternalView node) ?_
  simp only [List.getLast?_append,List.getLast?_singleton,Option.some_or]
  refine takesBind (takesInternalInsertItems _ _ 0 node') ?_
  refine takesBind (takesInternalView (Store.movedOther node different (by simpa using outside)))
    (takesBind takesAppendLogEntry ?_)
  have rest : (items ++ [item]).take ((items ++ [item]).length - 1) = items := by simp
  rw [rest]
  exact takesSetNode

end

end MiniOb.BplusTree
