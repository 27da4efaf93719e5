import Mathlib.Logic.Relation
import MiniOb.BplusTree.Search

/-! What a call does to the pages of an index, step by step: each change of a page comes with
the log entry that describes it, and everything else leaves pages and entries alone. Failing
calls take such steps too. -/
namespace MiniOb.BplusTree
open Buffer (maxPageNum)
open Prog PagedTree Relation List InternalIndexNodeHandler

variable {K : Type}

@[ext] structure Pages (K : Type) where
  header : IndexFileHeader
  node : PageNum → IndexNode K

def Handler.pages (s : Handler K) : Pages K := ⟨s.disk.header,s.disk.node⟩

def Pages.set (P : Pages K) (p : PageNum) (x : IndexNode K) : Pages K := { P with node := Function.update P.node p x }

def LogEntry.Describes (ops : KeyOps K) : LogEntry → Pages K → Pages K → Prop
  | initHeaderPage _ header,P,Q => Q = { P with header := header }
  | updateRootPage _ root _,P,Q => Q = { P with header := { P.header with rootPage := root } }
  | setParentPage p parent _,P,Q => Q = P.set p ((P.node p).setParent parent)
  | leafInitEmpty p,P,Q => Q = P.set p (.leaf bpInvalidPageNum bpInvalidPageNum [])
  | leafSetNextPage p next _,P,Q => ∃ parent old items, P.node p = .leaf parent old items ∧
      Q = P.set p (.leaf parent next items)
  | internalInitEmpty p,P,Q => Q = P.set p (.internal bpInvalidPageNum [])
  | internalCreateNewRoot p first key child,P,Q => ∃ parent items k, P.node p = .internal parent items ∧
      key = ops.encode k ∧ Q = P.set p (.internal parent ((ops.zeroKey,first) :: (k,child) :: items))
  | internalUpdateKey p index key _,P,Q => ∃ parent items k item, P.node p = .internal parent items ∧
      items[index]? = some item ∧ key = ops.encode k ∧ Q = P.set p (.internal parent (items.set index (k,item.2)))
  | nodeInsert p index bytes num,P,Q =>
      (∃ parent next items new, P.node p = .leaf parent next items ∧ bytes = leafBytes ops new ∧ num = new.length ∧
        Q = P.set p (.leaf parent next (recoverInsertItems index new items))) ∨
      ∃ parent items new, P.node p = .internal parent items ∧ bytes = internalBytes ops new ∧ num = new.length ∧
        Q = P.set p (.internal parent (recoverInsertItems index new items))
  | nodeRemove p index _ num,P,Q =>
      (∃ parent next items, P.node p = .leaf parent next items ∧
        Q = P.set p (.leaf parent next (recoverRemoveItems index num items))) ∨
      ∃ parent items, P.node p = .internal parent items ∧
        Q = P.set p (.internal parent (recoverRemoveItems index num items))

def LogEntry.extent : LogEntry → Nat
  | internalUpdateKey _ index _ _ => index
  | nodeInsert _ index _ _ => index
  | nodeRemove _ index _ num => max index num
  | _ => 0

def weight (entries : List LogEntry) : Nat := (entries.flatMap LogEntry.serialize).length

theorem weightAppend (entries : List LogEntry) (entry : LogEntry) :
    weight (entries ++ [entry]) = weight entries + entry.serialize.length := by
  simp [weight]

theorem serializeLength (entry : LogEntry) : entry.serialize.length = 8 + entry.handler.serializeBody.length := by
  simp only [LogEntry.serialize,LogEntryHandler.serialize,length_append,Bytes.lengthOfInt32]

theorem leafBytesLength (ops : KeyOps K) (items : List (K × RID)) : items.length ≤ (leafBytes ops items).length := by
  induction items with
  | nil => exact Nat.zero_le _
  | cons item rest ih =>
    simp only [leafBytes,flatMap_cons,length_append,length_cons,ridBytes,Bytes.lengthOfInt32] at ih ⊢
    omega

theorem internalBytesLength (ops : KeyOps K) (items : List (K × PageNum)) :
    items.length ≤ (internalBytes ops items).length := by
  induction items with
  | nil => exact Nat.zero_le _
  | cons item rest ih =>
    simp only [internalBytes,flatMap_cons,length_append,length_cons,Bytes.lengthOfInt32] at ih ⊢
    omega

variable {α : Type}

theorem recoverInsertLength (index : Nat) (new items : List α) :
    (recoverInsertItems index new items).length = items.length + new.length := by
  simp only [recoverInsertItems,length_append,length_take,length_drop]
  omega

theorem recoverRemoveLength (index num : Nat) (items : List α) :
    (recoverRemoveItems index num items).length ≤ items.length := by
  unfold recoverRemoveItems
  split
  · simp only [length_append,length_take,length_drop]
    omega
  · exact length_take_le' _ _

theorem recoverRemoveRest (index : Nat) (items : List α) :
    recoverRemoveItems index (items.length - index) items = items.take index := by
  unfold recoverRemoveItems
  rw [if_neg (by omega)]
  rcases Nat.le_total index items.length with inside | beyond
  · rw [Nat.sub_sub_self inside]
  · rw [take_of_length_le beyond,take_of_length_le (by omega)]

theorem describesSize {ops : KeyOps K} {entry : LogEntry} (described : entry.Describes ops P Q)
    (sizes : ∀ p, (P.node p).size ≤ n) (p : PageNum) : (Q.node p).size ≤ n + entry.serialize.length := by
  have set : ∀ {q : PageNum} {x : IndexNode K}, x.size ≤ n + entry.serialize.length →
      ((P.set q x).node p).size ≤ n + entry.serialize.length := by
    intro q x small
    by_cases here : p = q
    · subst here
      simpa [Pages.set] using small
    · have := sizes p
      simp only [Pages.set,Function.update_of_ne here]
      omega
  have old : ∀ {q : PageNum} {x : IndexNode K}, P.node q = x → x.size ≤ n := fun same => same ▸ sizes _
  have least := serializeLength entry
  cases entry with
  | initHeaderPage page header => exact described ▸ (sizes p).trans (Nat.le_add_right _ _)
  | updateRootPage page root before => exact described ▸ (sizes p).trans (Nat.le_add_right _ _)
  | setParentPage page parent before =>
    exact described ▸ set (by rw [Node.sizeSetParent]; exact (sizes _).trans (Nat.le_add_right _ _))
  | leafInitEmpty page => exact described ▸ set (Nat.zero_le _)
  | internalInitEmpty page => exact described ▸ set (Nat.zero_le _)
  | leafSetNextPage page next before =>
    obtain ⟨parent,_,items,node,rfl⟩ := described
    exact set ((old node).trans (Nat.le_add_right _ _))
  | internalCreateNewRoot page first key child =>
    obtain ⟨parent,items,k,node,-,rfl⟩ := described
    have small : items.length ≤ n := old node
    refine set ?_
    simp only [Node.size,length_cons]
    omega
  | internalUpdateKey page index key before =>
    obtain ⟨parent,items,k,item,node,-,-,rfl⟩ := described
    have small : items.length ≤ n := old node
    refine set ?_
    simp only [Node.size,length_set]
    omega
  | nodeInsert page index bytes num =>
    have body : bytes.length ≤ (LogEntry.nodeInsert page index bytes num).serialize.length := by
      simp only [least,LogEntry.handler,LogEntry.map,LogEntryHandler.serializeBody,LogEntry.sized,length_append]
      omega
    rcases described with ⟨parent,next,items,new,node,rfl,rfl,rfl⟩ | ⟨parent,items,new,node,rfl,rfl,rfl⟩
    · have small : items.length ≤ n := old node
      have := leafBytesLength ops new
      refine set ?_
      simp only [Node.size,recoverInsertLength]
      omega
    · have small : items.length ≤ n := old node
      have := internalBytesLength ops new
      refine set ?_
      simp only [Node.size,recoverInsertLength]
      omega
  | nodeRemove page index bytes num =>
    rcases described with ⟨parent,next,items,node,rfl⟩ | ⟨parent,items,node,rfl⟩
    · have small : items.length ≤ n := old node
      exact set ((recoverRemoveLength index num items).trans (small.trans (Nat.le_add_right _ _)))
    · have small : items.length ≤ n := old node
      exact set ((recoverRemoveLength index num items).trans (small.trans (Nat.le_add_right _ _)))

structure Grows (s t : Handler K) : Prop where
  needLog : t.mtr.needLog = s.mtr.needLog
  lsn : s.currentLsn ≤ t.currentLsn
  log : ∃ more, t.log = s.log ++ more ∧ ∀ record ∈ more, ∃ lsn page, record = .allocatePage lsn page

theorem Grows.refl (s : Handler K) : Grows s s := ⟨rfl,le_refl _,[],by simp,by simp⟩

theorem Grows.trans {s t u : Handler K} (first : Grows s t) (next : Grows t u) : Grows s u := by
  obtain ⟨more,log,all⟩ := first.log
  obtain ⟨more',log',all'⟩ := next.log
  refine ⟨next.needLog.trans first.needLog,first.lsn.trans next.lsn,more ++ more',?_,?_⟩
  · rw [log',log,append_assoc]
  · intro record inside
    exact (mem_append.mp inside).elim (all record) (all' record)

/-- One step while changes are logged. `n` bounds the sizes of the nodes before the call. -/
inductive Step (ops : KeyOps K) (n : Nat) (s t : Handler K) : Prop
  | quiet (grows : Grows s t) (pages : t.pages = s.pages) (entries : t.mtr.entries = s.mtr.entries)
  | change (grows : Grows s t) (entry : LogEntry) (described : entry.Describes ops s.pages t.pages)
      (logged : t.mtr.entries = s.mtr.entries ++ [entry]) (bound : entry.extent ≤ n + weight s.mtr.entries + 1)

structure Reached (ops : KeyOps K) (n : Nat) (s₀ s : Handler K) : Prop where
  needLog : s.mtr.needLog = true
  sizes : ∀ p, (s.disk.node p).size ≤ n + weight s.mtr.entries
  path : ReflTransGen (Step ops n) s₀ s

section
variable {ops : KeyOps K} {n : Nat} {s₀ s t : Handler K} {α : Type}

theorem Reached.quiet (here : Reached ops n s₀ s) (grows : Grows s t) (pages : t.pages = s.pages)
    (entries : t.mtr.entries = s.mtr.entries) : Reached ops n s₀ t :=
  ⟨grows.needLog.trans here.needLog,fun p => by
    rw [show t.disk.node = s.disk.node from congrArg Pages.node pages,entries]
    exact here.sizes p,here.path.tail (.quiet grows pages entries)⟩

theorem Reached.change (here : Reached ops n s₀ s) (grows : Grows s t) (entry : LogEntry)
    (described : entry.Describes ops s.pages t.pages) (logged : t.mtr.entries = s.mtr.entries ++ [entry])
    (bound : entry.extent ≤ n + weight s.mtr.entries + 1) : Reached ops n s₀ t := by
  refine ⟨grows.needLog.trans here.needLog,fun p => ?_,here.path.tail (.change grows entry described logged bound)⟩
  rw [logged,weightAppend,← Nat.add_assoc]
  exact describesSize described here.sizes p

theorem Reached.again (here : Reached ops n s₀ s) : Reached ops n s s := ⟨here.needLog,here.sizes,.refl⟩

theorem Reached.trans (first : Reached ops n s₀ s) (next : Reached ops n s t) : Reached ops n s₀ t :=
  ⟨next.needLog,next.sizes,first.path.trans next.path⟩

theorem Reached.weightLe (here : Reached ops n s₀ s) : weight s₀.mtr.entries ≤ weight s.mtr.entries := by
  have path := here.path
  clear here
  induction path with
  | refl => exact le_refl _
  | tail _ step ih =>
    refine ih.trans ?_
    cases step with
    | quiet grows pages entries => rw [entries]
    | change grows entry described logged bound =>
      rw [logged,weightAppend]
      exact Nat.le_add_right _ _

variable {page parent p : PageNum} {m : TreeM K α} {β : Type} {c : Prop} {entry : LogEntry} {x : IndexNode K}
  {R : Handler K → Prop}

theorem Reached.leafSize (here : Reached ops n s₀ s) {next items}
    (node : s.disk.node page = .leaf parent next items) : items.length ≤ n + weight s.mtr.entries := by
  have := here.sizes page
  rwa [node] at this

theorem Reached.internalSize (here : Reached ops n s₀ s) {items}
    (node : s.disk.node page = .internal parent items) : items.length ≤ n + weight s.mtr.entries := by
  have := here.sizes page
  rwa [node] at this

/-! ### Programs that take steps -/

def Paced (ops : KeyOps K) (n : Nat) (m : TreeM K α) : Prop := ∀ s₀, Keeps (Reached ops n s₀) m

theorem pacedQuiet {f} (grows : ∀ s, Grows s (f s)) (pages : ∀ s, (f s).pages = s.pages)
    (entries : ∀ s, (f s).mtr.entries = s.mtr.entries) : Paced ops n (update f) :=
  fun _ => keepsUpdate fun s here => here.quiet (grows s) (pages s) (entries s)

theorem growsMtr {m} (needLog : m.needLog = s.mtr.needLog) : Grows s { s with mtr := m } :=
  ⟨needLog,le_refl _,[],by simp,by simp⟩

theorem pacedBind {f : α → TreeM K β} (first : Paced ops n m) (rest : ∀ a, Paced ops n (f a)) :
    Paced ops n (m >>= f) := fun s₀ => keepsBind (first s₀) fun a => rest a s₀

theorem pacedPure {a : α} : Paced ops n (pure a : TreeM K α) := fun _ => keepsPure

theorem pacedRead {f : Handler K → α} : Paced ops n (read f) := fun _ => keepsRead

theorem pacedExit {e : Exit} : Paced ops n (exit e : TreeM K α) := fun _ => keepsExit

theorem pacedIte [Decidable c] {m'} (yes : Paced ops n m) (no : Paced ops n m') :
    Paced ops n (if c then m else m') := fun s₀ => keepsIte (fun _ => yes s₀) fun _ => no s₀

theorem pacedIgnore {m} (h : Paced ops n m) : Paced ops n (ignoreRc m) := fun s₀ => keepsIgnore (h s₀)

theorem pacedInsist (h : Paced ops n m) : Paced ops n (insist m) := by
  intro s₀ s here
  have reached := h s₀ s here
  unfold insist
  rcases ran : m s with ⟨r,t⟩
  rw [ran] at reached
  cases r <;> exact reached

theorem pacedAssert (c : Prop) [Decidable c] : Paced ops n (assert c : TreeM K Unit) := pacedIte pacedPure pacedExit

theorem pacedFault : Paced ops n (fault : TreeM K Unit) := by
  intro s₀ s here
  unfold fault
  split
  · exact here
  · exact here.quiet (growsMtr rfl) rfl rfl
  · exact here.quiet (growsMtr rfl) rfl rfl

theorem pacedHold (item : MemoItem) : Paced ops n (hold item : TreeM K Unit) :=
  pacedQuiet (fun _ => growsMtr rfl) (fun _ => rfl) fun _ => rfl

theorem pacedLetGo (item : MemoItem) : Paced ops n (letGo item : TreeM K Unit) :=
  pacedQuiet (fun _ => growsMtr rfl) (fun _ => rfl) fun _ => rfl

theorem pacedMemoize (item : MemoItem) : Paced ops n (memoize item : TreeM K Unit) :=
  pacedQuiet (fun _ => growsMtr rfl) (fun _ => rfl) fun _ => rfl

theorem pacedLatch (item : MemoItem) : Paced ops n (latch item : TreeM K Unit) :=
  pacedBind (pacedHold item) fun _ => pacedMemoize item

theorem pacedReleaseTo (point : Nat) : Paced ops n (releaseTo point : TreeM K Unit) :=
  pacedQuiet (fun _ => growsMtr rfl) (fun _ => rfl) fun _ => rfl

theorem pacedGetPage {page : PageNum} : Paced ops n (getPage page : TreeM K Unit) :=
  pacedBind pacedFault fun _ => pacedLatch _

theorem pacedMarkDirty {page : PageNum} : Paced ops n (markDirty page : TreeM K Unit) :=
  pacedQuiet (fun _ => growsMtr rfl) (fun _ => rfl) fun _ => rfl

theorem pacedDisposePage (page : PageNum) : Paced ops n (disposePage page : TreeM K Unit) :=
  pacedQuiet (fun _ => growsMtr rfl) (fun _ => rfl) fun _ => rfl

/-! ### Node handlers -/

theorem reachedBind {f : α → TreeM K β} (first : Reached ops n s₀ (m s).2)
    (rest : ∀ a, (m s).1 = .ok a → Reached ops n s₀ (f a (m s).2).2) : Reached ops n s₀ ((m >>= f) s).2 := by
  rw [bindApply]
  rcases ran : m s with ⟨r,t⟩
  rw [ran] at first rest
  cases r with
  | ok a => exact rest a rfl
  | error e => exact first

theorem loggedRun (here : s.mtr.needLog = true) (entry : LogEntry) (p : PageNum) (x : IndexNode K) :
    (appendLogEntry entry >>= fun _ => setNode p x) s = (.ok (),{ s with
      mtr := { s.mtr with entries := s.mtr.entries ++ [entry] }
      disk := { s.disk with node := Function.update s.disk.node p x } }) := by
  simp only [bindApply,appendLogEntry,updateApply,here,if_true,setNode]

section
variable (here : Reached ops n s₀ s) (described : entry.Describes ops s.pages (s.pages.set p x))
  (bound : entry.extent ≤ n + weight s.mtr.entries + 1)
include here described bound

theorem reachedLogged : Reached ops n s₀ ((appendLogEntry entry >>= fun _ => setNode p x) s).2 := by
  rw [loggedRun here.needLog]
  exact here.change ⟨rfl,le_refl _,[],by simp,by simp⟩ _ described rfl bound

theorem reachedLoggedThen
    (rest : Paced ops n m) : Reached ops n s₀ ((appendLogEntry entry >>= fun _ => setNode p x >>= fun _ => m) s).2 :=
  rest s₀ _ (reachedLogged here described bound)

end

theorem pacedGetNode {f : IndexNode K → TreeM K α}
    (rest : ∀ s₀ s, Reached ops n s₀ s → Reached ops n s₀ (f (s.disk.node page) s).2) : Paced ops n (getNode page >>= f) :=
  fun s₀ s here => rest s₀ s here

theorem leafViewBind {f : PageNum × PageNum × List (K × RID) → TreeM K α}
    (failed : R s) (rest : ∀ parent next items, s.disk.node page = .leaf parent next items →
      R (f (parent,next,items) s).2) : R ((LeafIndexNodeHandler.view page >>= f) s).2 := by
  cases node : s.disk.node page with
  | leaf parent next items =>
    have run : LeafIndexNodeHandler.view page s = (.ok (parent,next,items),s) := by
      simp only [LeafIndexNodeHandler.view,getNode,bindApply,readApply,node]
      rfl
    rw [bindOk run]
    exact rest parent next items node
  | internal parent items =>
    have run : LeafIndexNodeHandler.view page s = (.error .abort,s) := by
      simp only [LeafIndexNodeHandler.view,getNode,bindApply,readApply,node]
      rfl
    rw [bindError run]
    exact failed

theorem internalViewBind {f : PageNum × List (K × PageNum) → TreeM K α}
    (failed : R s) (rest : ∀ parent items, s.disk.node page = .internal parent items →
      R (f (parent,items) s).2) : R ((view page >>= f) s).2 := by
  cases node : s.disk.node page with
  | leaf parent next items =>
    have run : view page s = (.error .abort,s) := by
      simp only [view,getNode,bindApply,readApply,node]
      rfl
    rw [bindError run]
    exact failed
  | internal parent items =>
    have run : view page s = (.ok (parent,items),s) := by
      simp only [view,getNode,bindApply,readApply,node]
      rfl
    rw [bindOk run]
    exact rest parent items node

theorem assertBind [Decidable c] (failed : R s) (rest : c → R (m s).2) : R ((assert c >>= fun _ => m) s).2 := by
  unfold assert
  by_cases h : c
  · rw [if_pos h]
    exact rest h
  · rw [if_neg h]
    exact failed

theorem pacedLeafView {f : PageNum × PageNum × List (K × RID) → TreeM K α}
    (rest : ∀ a, Paced ops n (f a)) : Paced ops n (LeafIndexNodeHandler.view page >>= f) :=
  fun s₀ _ here => leafViewBind here fun _ _ _ _ => rest _ s₀ _ here

theorem pacedInternalView {f : PageNum × List (K × PageNum) → TreeM K α}
    (rest : ∀ a, Paced ops n (f a)) : Paced ops n (view page >>= f) :=
  fun s₀ _ here => internalViewBind here fun _ _ _ => rest _ s₀ _ here

theorem pacedSetParent {page parent : PageNum} : Paced ops n (IndexNodeHandler.setParentPageNum page parent : TreeM K Unit) :=
  pacedGetNode fun _ _ here => reachedLogged here rfl (Nat.zero_le _)

namespace LeafIndexNodeHandler

theorem pacedSetNextPage (page next : PageNum) : Paced ops n (setNextPage page next : TreeM K Unit) :=
  fun _ _ here => leafViewBind here fun parent old items node =>
    reachedLogged here ⟨parent,old,items,node,rfl⟩ (Nat.zero_le _)

theorem reachedInsertItems (page : PageNum) (index : Nat) (new : List (K × RID)) (here : Reached ops n s₀ s)
    (bound : index ≤ n + weight s.mtr.entries + 1) : Reached ops n s₀ (insertItems ops page index new s).2 :=
  leafViewBind here fun parent next items node => reachedLogged here
    (.inl ⟨parent,next,items,new,node,rfl,rfl,rfl⟩) bound

theorem pacedAppend (page : PageNum) (new : List (K × RID)) : Paced ops n (append ops page new) :=
  fun _ _ here => leafViewBind here fun _ _ _ node =>
    reachedInsertItems page _ new here ((here.leafSize node).trans (Nat.le_succ _))

theorem pacedPreappend (page : PageNum) (item : K × RID) : Paced ops n (preappend ops page item) :=
  fun _ _ here => reachedInsertItems page 0 [item] here (Nat.zero_le _)

theorem pacedRemove (page : PageNum) (index : Nat) : Paced ops n (remove ops page index) := by
  intro s₀ s here
  refine leafViewBind here fun parent next items node => assertBind here fun inside => ?_
  have size := here.leafSize node
  exact reachedLogged here (.inl ⟨parent,next,items,node,rfl⟩) (max_le (by omega) (by omega))

theorem pacedMoveHalfTo (page other : PageNum) : Paced ops n (moveHalfTo ops page other) := by
  intro s₀ s here
  refine leafViewBind here fun parent next items node => ?_
  -- the position was read before the append, so the run is counted from there
  have size := here.leafSize node
  have moved := pacedAppend other (items.drop (items.length / 2)) s s here.again
  have grown := moved.weightLe
  refine here.trans (reachedBind moved fun _ _ => leafViewBind moved fun parent' next' items' node' => ?_)
  have size' := moved.leafSize node'
  exact reachedLogged moved (.inl ⟨parent',next',items',node',rfl⟩) (max_le (by omega) (by omega))

theorem pacedMoveFirstToEnd (page other : PageNum) : Paced ops n (moveFirstToEnd ops page other) :=
  pacedLeafView fun _ => pacedBind (pacedAppend other _) fun _ => pacedRemove page 0

theorem pacedMoveLastToFront (page other : PageNum) : Paced ops n (moveLastToFront ops page other) := by
  refine pacedLeafView fun ⟨_,_,items⟩ => ?_
  dsimp only
  cases items.getLast? with
  | none => exact pacedExit
  | some item => exact pacedBind (pacedPreappend other _) fun _ => pacedRemove page _

theorem pacedMoveTo (page other : PageNum) : Paced ops n (moveTo ops page other) := by
  refine pacedLeafView fun ⟨_,next,items⟩ => pacedBind (pacedAppend other items) fun _ =>
    pacedBind (pacedSetNextPage other next) fun _ => fun s₀ s here => ?_
  refine leafViewBind here fun parent next items node => ?_
  have size := here.leafSize node
  refine reachedLogged here (.inl ⟨parent,next,items,node,?_⟩) (max_le (Nat.zero_le _) (by omega))
  rw [show recoverRemoveItems 0 items.length items = [] from recoverRemoveRest 0 items]

end LeafIndexNodeHandler

namespace InternalIndexNodeHandler

theorem pacedCreateNewRoot (page first : PageNum) (key : K) (child : PageNum) :
    Paced ops n (createNewRoot ops page first key child) :=
  fun _ _ here => internalViewBind here fun parent items node =>
    reachedLogged here ⟨parent,items,key,node,rfl,rfl⟩ (Nat.zero_le _)

theorem pacedKeyAt (items : List (K × PageNum)) (index : Nat) : Paced ops n (keyAt items index : TreeM K K) := by
  unfold keyAt
  split
  · exact pacedPure
  · exact pacedExit

theorem pacedValueAt (items : List (K × PageNum)) (index : Nat) : Paced ops n (valueAt items index : TreeM K PageNum) := by
  unfold valueAt
  split
  · exact pacedPure
  · exact pacedExit

theorem lookupLe (ops : KeyOps K) (key : K) (items : List (K × PageNum)) : (lookup ops key items).2 ≤ items.length + 1 := by
  have bound := LowerBound.lowerBoundLe (fun item : K × PageNum => ops.compare item.1 key) items.tail
  rw [length_tail] at bound
  unfold lookup
  split
  · exact Nat.le_add_left _ _
  · dsimp only
    split
    · omega
    · split <;> dsimp only <;> omega

theorem pacedInsert (page : PageNum) (key : K) (child : PageNum) : Paced ops n (insert ops page key child) := by
  intro s₀ s here
  refine internalViewBind here fun parent items node => ?_
  have size := here.internalSize node
  have position := lookupLe ops key items
  refine reachedLogged here (.inr ⟨parent,items,[(key,child)],node,rfl,rfl,rfl⟩) ?_
  show (lookup ops key items).2 ≤ _
  omega

theorem pacedAdoptChildren (page : PageNum) (items : List (K × PageNum)) :
    Paced ops n (adoptChildren page items : TreeM K Unit) := by
  induction items with
  | nil => exact pacedPure
  | cons item rest ih =>
    exact pacedBind pacedGetPage fun _ => pacedBind pacedSetParent fun _ => pacedBind pacedMarkDirty fun _ => ih

theorem reachedInsertItems (page : PageNum) (index : Nat) (new : List (K × PageNum)) (here : Reached ops n s₀ s)
    (bound : index ≤ n + weight s.mtr.entries + 1) : Reached ops n s₀ (insertItems ops page index new s).2 :=
  internalViewBind here fun parent items node => reachedLoggedThen here
    (.inr ⟨parent,items,new,node,rfl,rfl,rfl⟩) bound (pacedAdoptChildren page new)

theorem pacedAppend (page : PageNum) (new : List (K × PageNum)) : Paced ops n (append ops page new) :=
  fun _ _ here => internalViewBind here fun _ _ node =>
    reachedInsertItems page _ new here ((here.internalSize node).trans (Nat.le_succ _))

theorem pacedPreappend (page : PageNum) (item : K × PageNum) : Paced ops n (preappend ops page item) :=
  fun _ _ here => reachedInsertItems page 0 [item] here (Nat.zero_le _)

theorem pacedSetKeyAt (page : PageNum) (index : Nat) (key : K) : Paced ops n (setKeyAt ops page index key) := by
  intro s₀ s here
  refine internalViewBind here fun parent items node => ?_
  have size := here.internalSize node
  dsimp only
  cases found : items[index]? with
  | none => exact here
  | some item =>
    obtain ⟨inside,-⟩ := List.getElem?_eq_some_iff.mp found
    refine reachedLogged here ⟨parent,items,key,item,node,found,rfl,rfl⟩ ?_
    show index ≤ _
    omega

theorem pacedRemove (page : PageNum) (index : Nat) : Paced ops n (remove ops page index) := by
  intro s₀ s here
  refine internalViewBind here fun parent items node => assertBind here fun inside => ?_
  have size := here.internalSize node
  exact reachedLogged here (.inr ⟨parent,items,node,rfl⟩) (max_le (by omega) (by omega))

theorem pacedMoveHalfTo (page other : PageNum) : Paced ops n (moveHalfTo ops page other) := by
  intro s₀ s here
  refine internalViewBind here fun parent items node => ?_
  have size := here.internalSize node
  have moved := pacedAppend other (items.drop (items.length / 2)) s s here.again
  have grown := moved.weightLe
  refine here.trans (reachedBind moved fun _ _ => internalViewBind moved fun parent' items' node' => ?_)
  have size' := moved.internalSize node'
  refine reachedLogged moved (.inr ⟨parent',items',node',?_⟩) (max_le (by omega) (by omega))
  rw [recoverRemoveRest]

theorem pacedMoveTo (page other : PageNum) : Paced ops n (moveTo ops page other) := by
  refine pacedInternalView fun ⟨_,items⟩ => pacedBind (pacedAppend other items) fun _ => fun s₀ s here => ?_
  refine internalViewBind here fun parent items node => ?_
  have size := here.internalSize node
  exact reachedLogged here (.inr ⟨parent,items,node,rfl⟩) (max_le (Nat.zero_le _) (by omega))

theorem pacedMoveFirstToEnd (page other : PageNum) : Paced ops n (moveFirstToEnd ops page other) :=
  pacedInternalView fun _ => pacedBind (pacedAppend other _) fun _ => pacedRemove page 0

theorem pacedMoveLastToFront (page other : PageNum) : Paced ops n (moveLastToFront ops page other) := by
  refine pacedInternalView fun ⟨_,items⟩ => ?_
  dsimp only
  cases items.getLast? with
  | none => exact pacedExit
  | some item =>
    refine pacedBind (pacedPreappend other _) fun _ => fun s₀ s here => internalViewBind here fun parent items node => ?_
    have size := here.internalSize node
    refine reachedLogged here (.inr ⟨parent,items,node,?_⟩) (max_le (show items.length - 1 ≤ _ by omega) (by omega))
    have last : recoverRemoveItems (items.length - 1) 1 items = items.take (items.length - 1) := by
      unfold recoverRemoveItems
      rw [if_neg (by omega)]
    rw [last]

end InternalIndexNodeHandler

open InternalIndexNodeHandler (pacedValueAt pacedKeyAt pacedInsert pacedSetKeyAt)

/-! ### Allocation -/

structure Unwritten (ops : KeyOps K) (n : Nat) (s₀ : Handler K) (page : PageNum) (s : Handler K) : Prop where
  before : ∃ r, Reached ops n s₀ r ∧ Grows r s ∧ s.disk.header = r.disk.header ∧ s.mtr.entries = r.mtr.entries ∧
    ∀ q, q ≠ page → s.disk.node q = r.disk.node q

theorem growsAllocated (needLog : t.mtr.needLog = s.mtr.needLog)
    (lsn : t.currentLsn = s.currentLsn + 1) (log : t.log = s.log ++ [.allocatePage (s.currentLsn + 1) page]) : Grows s t :=
  ⟨needLog,lsn ▸ Nat.le_succ _,_,log,fun _ inside => ⟨_,_,mem_singleton.mp inside⟩⟩

theorem allocateRun (s : Handler K) :
    (∃ e t, (allocatePage : TreeM K PageNum) s = (.error e,t) ∧ Grows s t ∧ t.pages = s.pages ∧
      t.mtr.entries = s.mtr.entries) ∨
    ∃ page t, (allocatePage : TreeM K PageNum) s = (.ok page,t) ∧ Grows s t ∧ t.disk.header = s.disk.header ∧
      t.mtr.entries = s.mtr.entries ∧ ∀ q, q ≠ page → t.disk.node q = s.disk.node q := by
  unfold allocatePage
  cases free : s.disk.file.freePage with
  | some page =>
    simp only [bindApply,readApply,free,setBit,updateApply,appendLog,fault,hold,pureApply]
    rcases s.mtr.faults with _ | ⟨_ | code,rest⟩
    · exact .inr ⟨_,_,rfl,growsAllocated rfl rfl rfl,rfl,rfl,fun _ _ => rfl⟩
    · exact .inr ⟨_,_,rfl,growsAllocated rfl rfl rfl,rfl,rfl,fun _ _ => rfl⟩
    · exact .inl ⟨_,_,rfl,growsAllocated rfl rfl rfl,rfl,rfl⟩
  | none =>
    simp only [bindApply,readApply,free]
    by_cases full : maxPageNum ≤ s.disk.file.pageCount
    · rw [if_pos full]
      exact .inl ⟨_,_,rfl,Grows.refl s,rfl,rfl⟩
    · rw [if_neg full]
      simp only [bindApply,updateApply,appendLog,fault,hold,pureApply,extendFile]
      rcases s.mtr.faults with _ | ⟨_ | code,rest⟩
      · exact .inr ⟨_,_,rfl,growsAllocated rfl rfl rfl,rfl,rfl,fun q other => Function.update_of_ne other _ _⟩
      · exact .inr ⟨_,_,rfl,growsAllocated rfl rfl rfl,rfl,rfl,fun q other => Function.update_of_ne other _ _⟩
      · exact .inl ⟨_,_,rfl,growsAllocated rfl rfl rfl,rfl,rfl⟩

theorem pacedAllocate {f : PageNum → TreeM K α}
    (rest : ∀ s₀ page s, Unwritten ops n s₀ page s → Reached ops n s₀ (f page s).2) : Paced ops n (allocatePage >>= f) := by
  intro s₀ s here
  rcases allocateRun s with ⟨e,t,run,grows,pages,entries⟩ | ⟨page,t,run,grows,header,entries,others⟩
  · rw [bindError run]
    exact here.quiet grows pages entries
  · rw [bindOk run]
    exact rest s₀ page t ⟨s,here,grows,header,entries,others⟩

theorem Unwritten.mtr (pending : Unwritten ops n s₀ page s) {m} (needLog : m.needLog = s.mtr.needLog)
    (entries : m.entries = s.mtr.entries) : Unwritten ops n s₀ page { s with mtr := m } := by
  obtain ⟨r,reached,grows,header,same,others⟩ := pending.before
  exact ⟨r,reached,grows.trans (growsMtr needLog),header,entries.trans same,others⟩

theorem pacedMemoAllocate {f : PageNum → TreeM K α}
    (rest : ∀ s₀ page s, Unwritten ops n s₀ page s → Reached ops n s₀ (f page s).2) :
    Paced ops n (memoAllocatePage >>= f) := by
  have run : (memoAllocatePage >>= f : TreeM K α) = allocatePage >>= fun page => memoize (.pin page) >>= fun _ => f page := by
    funext s
    simp only [memoAllocatePage,bindApply]
    rcases (allocatePage : TreeM K PageNum) s with ⟨r,t⟩
    cases r <;> rfl
  rw [run]
  exact pacedAllocate fun s₀ page s pending => rest s₀ page _ (pending.mtr rfl rfl)

theorem Unwritten.initEmpty (pending : Unwritten ops n s₀ page s) (kind : NodeKind) :
    Reached ops n s₀ (initEmpty kind page s).2 := by
  obtain ⟨r,reached,grows,header,entries,others⟩ := pending.before
  have needLog : s.mtr.needLog = true := grows.needLog.trans reached.needLog
  have pages : ∀ x, (⟨s.disk.header,Function.update s.disk.node page x⟩ : Pages K) = r.pages.set page x := by
    intro x
    rw [header]
    refine Pages.ext rfl (funext fun q => ?_)
    by_cases here : q = page
    · simp [Pages.set,here]
    · simpa [Pages.set,Handler.pages,here] using others q here
  cases kind with
  | leaf =>
    show Reached ops n s₀ ((appendLogEntry _ >>= fun _ => setNode page _) s).2
    rw [loggedRun needLog]
    exact reached.change (grows.trans ⟨rfl,le_refl _,[],by simp,by simp⟩) (.leafInitEmpty page)
      (pages _) (by rw [entries]) (Nat.zero_le _)
  | internal =>
    show Reached ops n s₀ ((appendLogEntry _ >>= fun _ => setNode page _) s).2
    rw [loggedRun needLog]
    exact reached.change (grows.trans ⟨rfl,le_refl _,[],by simp,by simp⟩) (.internalInitEmpty page)
      (pages _) (by rw [entries]) (Nat.zero_le _)

theorem Unwritten.initThen (pending : Unwritten ops n s₀ page s) (kind : NodeKind)
    (rest : Paced ops n m) : Reached ops n s₀ ((MiniOb.BplusTree.initEmpty kind page >>= fun _ => m) s).2 :=
  reachedBind (pending.initEmpty kind) fun _ _ => rest s₀ _ (pending.initEmpty kind)

/-! ### Calls -/

theorem pacedFetchPage (op : OperationType) (page : PageNum) (isRoot : Bool) :
    Paced ops n (crabingProtocalFetchPage op page isRoot : TreeM K Unit) :=
  pacedBind pacedRead fun _ => pacedBind pacedGetPage fun _ => pacedBind (pacedLatch _) fun _ =>
    pacedBind pacedRead fun _ => pacedBind pacedRead fun _ => pacedIte (pacedReleaseTo _) pacedPure

theorem pacedDescend (op : OperationType) {getter}
    (child : ∀ items, Paced ops n (getter items)) (fuel : Nat) (page : PageNum) :
    Paced ops n (descend op getter fuel page) := by
  induction fuel generalizing page with
  | zero => exact pacedExit
  | succ fuel ih =>
    refine pacedBind pacedRead fun node => ?_
    cases node with
    | leaf parent next items => exact pacedPure
    | internal parent items =>
      exact pacedBind (child items) fun next => pacedBind (pacedFetchPage _ _ _) fun _ => ih next

theorem pacedIsEmpty : Paced ops n (isEmpty : TreeM K Bool) := pacedBind pacedRead fun _ => pacedPure

theorem pacedFindLeaf (op : OperationType) (key : K) : Paced ops n (findLeaf ops op key) :=
  pacedBind (pacedLatch _) fun _ => pacedBind pacedIsEmpty fun _ => pacedIte pacedExit
    (pacedBind pacedRead fun _ => pacedBind (pacedFetchPage _ _ _) fun _ => pacedBind pacedRead fun _ =>
      pacedDescend op (fun _ => pacedValueAt _ _) _ _)

theorem pacedUpdateRoot (root : PageNum) : Paced ops n (updateRootPageNumLocked root : TreeM K Unit) := by
  refine pacedBind (pacedInsist pacedGetPage) fun _ => pacedBind (pacedLatch _) fun _ => fun s₀ s here => ?_
  simp only [bindApply,getHeader,readApply,appendLogEntry,updateApply,here.needLog,if_true,markDirty]
  exact here.change ⟨here.needLog.symm,le_refl _,[],by simp,by simp⟩
    (.updateRootPage firstIndexPage root s.disk.header.rootPage) rfl rfl (Nat.zero_le _)

theorem pacedCreateNewTree (key : K) (rid : RID) : Paced ops n (createNewTree ops key rid) := by
  refine pacedBind pacedIsEmpty fun _ => pacedIte (pacedMemoAllocate fun s₀ page s pending => ?_) pacedExit
  refine pending.initThen .leaf (pacedBind (fun s₀ s here => ?_) fun _ =>
    pacedBind (pacedUpdateRoot page) fun _ => pacedMarkDirty)
  exact LeafIndexNodeHandler.reachedInsertItems page 0 [(key,rid)] here (Nat.zero_le _)

theorem pacedMoveHalfTo (kind : NodeKind) (page other : PageNum) : Paced ops n (moveHalfTo ops kind page other) := by
  cases kind with
  | leaf => exact LeafIndexNodeHandler.pacedMoveHalfTo page other
  | internal => exact InternalIndexNodeHandler.pacedMoveHalfTo page other

theorem pacedSplit (kind : NodeKind) (page : PageNum) : Paced ops n (split ops kind page) := by
  refine pacedMemoAllocate fun s₀ newPage s pending => ?_
  refine Unwritten.initThen (s := (latch (.exclusive newPage) s).2) (pending.mtr rfl rfl) kind ?_
  exact pacedBind pacedRead fun _ => pacedBind pacedSetParent fun _ =>
    pacedBind (pacedIgnore (pacedMoveHalfTo kind page newPage)) fun _ => pacedBind pacedMarkDirty fun _ =>
      pacedBind pacedMarkDirty fun _ => pacedPure

theorem pacedCreateRoot (page newPage : PageNum) (key : K) : Paced ops n (createRoot ops page newPage key) := by
  refine pacedAllocate fun s₀ root s pending => pending.initThen .internal ?_
  exact pacedBind (pacedCreateNewRoot _ _ _ _) fun _ => pacedBind pacedSetParent fun _ =>
    pacedBind pacedSetParent fun _ => pacedBind pacedMarkDirty fun _ => pacedBind pacedMarkDirty fun _ =>
      pacedBind (pacedHold _) fun _ => pacedBind (pacedUpdateRoot _) fun _ => pacedBind pacedMarkDirty fun _ =>
        pacedBind (pacedLetGo _) fun _ => pacedLetGo _

theorem pacedInsertIntoParent (fuel : Nat) (page newPage : PageNum) (key : K) :
    Paced ops n (insertEntryIntoParent ops fuel page newPage key) := by
  induction fuel generalizing page newPage key with
  | zero => exact pacedExit
  | succ fuel ih =>
    refine pacedBind pacedRead fun _ => pacedIte (pacedCreateRoot _ _ _) (pacedBind pacedGetPage fun _ =>
      pacedBind pacedRead fun _ => pacedBind pacedRead fun _ => pacedIte ?_ ?_)
    · exact pacedBind (pacedInsert _ _ _) fun _ => pacedBind pacedSetParent fun _ =>
        pacedBind pacedMarkDirty fun _ => pacedBind pacedMarkDirty fun _ => pacedMarkDirty
    · refine pacedBind (pacedSplit _ _) fun _ => pacedInternalView fun _ =>
        pacedBind (pacedKeyAt _ _) fun _ => ?_
      have rest : ∀ newParent parent, Paced ops n (do
          let x ← view newParent
          let separator ← keyAt x.2 0
          insertEntryIntoParent ops fuel parent newParent separator) := fun _ _ =>
        pacedInternalView fun _ => pacedBind (pacedKeyAt _ _) fun _ => ih _ _ _
      exact pacedIte
        (pacedBind (pacedInsert _ _ _) fun _ => pacedBind pacedSetParent fun _ => rest _ _)
        (pacedBind (pacedInsert _ _ _) fun _ => pacedBind pacedSetParent fun _ => rest _ _)

theorem pacedFirstLeafKey (page : PageNum) : Paced ops n (firstLeafKey page : TreeM K K) := by
  refine pacedLeafView fun ⟨_,_,items⟩ => ?_
  cases items with
  | nil => exact pacedExit
  | cons item rest => exact pacedPure

theorem keepsAfterSplit {position} (bound : ∀ t, Reached ops n s₀ t → position ≤ n + weight t.mtr.entries + 1)
    (page newPage : PageNum) (key : K) (rid : RID) : Keeps (Reached ops n s₀) (do
      let (parent,next,items) ← LeafIndexNodeHandler.view page
      LeafIndexNodeHandler.setNextPage newPage next
      IndexNodeHandler.setParentPageNum newPage parent
      LeafIndexNodeHandler.setNextPage page newPage
      if position < items.length then LeafIndexNodeHandler.insert ops page position key rid
      else LeafIndexNodeHandler.insert ops newPage (position - items.length) key rid
      let first ← firstLeafKey newPage
      let fuel ← read fun s => s.disk.file.pageCount
      insertEntryIntoParent ops fuel page newPage first) := by
  have inserts : ∀ page index, index ≤ position →
      Keeps (Reached ops n s₀) (LeafIndexNodeHandler.insert ops page index key rid) := by
    intro page index below t here
    exact LeafIndexNodeHandler.reachedInsertItems page index [(key,rid)] here (below.trans (bound t here))
  have rest : Keeps (Reached ops n s₀) (do
      let first ← firstLeafKey newPage
      let fuel ← read fun s => s.disk.file.pageCount
      insertEntryIntoParent ops fuel page newPage first) :=
    pacedBind (pacedFirstLeafKey newPage) (fun _ => pacedBind pacedRead fun _ => pacedInsertIntoParent _ _ _ _) s₀
  intro t here
  refine leafViewBind here fun parent next items node => ?_
  refine (?_ : Keeps (Reached ops n s₀) _) t here
  refine keepsBind (LeafIndexNodeHandler.pacedSetNextPage _ _ s₀) fun _ => keepsBind (pacedSetParent s₀) fun _ =>
    keepsBind (LeafIndexNodeHandler.pacedSetNextPage _ _ s₀) fun _ => keepsIte (fun _ => ?_) fun _ => ?_
  · exact keepsBind (inserts page _ (le_refl _)) fun _ => rest
  · exact keepsBind (inserts newPage _ (Nat.sub_le _ _)) fun _ => rest

theorem pacedInsertIntoLeaf (page : PageNum) (key : K) (rid : RID) : Paced ops n (insertEntryIntoLeafNode ops page key rid) := by
  intro s₀ s here
  refine leafViewBind here fun parent next items node => ?_
  have size := here.leafSize node
  have position : (LeafIndexNodeHandler.lookup ops key items).1 ≤ items.length := LowerBound.lowerBoundLe _ items
  -- the position was found here and is used after a split
  have bound : ∀ t, Reached ops n s t → (LeafIndexNodeHandler.lookup ops key items).1 ≤ n + weight t.mtr.entries + 1 := by
    intro t here'
    have := here'.weightLe
    omega
  refine here.trans ((?_ : Keeps (Reached ops n s) _) s here.again)
  refine keepsIte (fun _ => keepsExit) fun _ => keepsBind keepsRead fun _ => keepsBind keepsRead fun _ =>
    keepsIte (fun _ => ?_) fun _ => ?_
  · exact keepsBind (fun t here' => LeafIndexNodeHandler.reachedInsertItems page _ [(key,rid)] here' (bound t here'))
      fun _ => pacedMarkDirty s
  · exact keepsBind (pacedSplit .leaf page s) fun newPage => keepsAfterSplit bound page newPage key rid

theorem pacedInsertBody (key : K) (rid : RID) : Paced ops n (insertEntryBody ops key rid) := by
  refine pacedBind pacedIsEmpty fun _ => pacedIte (pacedBind (pacedHold _) fun _ => fun s₀ s here => ?_)
    (pacedBind (pacedFindLeaf _ _) fun page => pacedInsertIntoLeaf page key rid)
  exact (pacedCreateNewTree key rid s₀ s here).quiet (growsMtr rfl) rfl rfl

theorem pacedAdjustRoot (root : PageNum) : Paced ops n (adjustRoot root : TreeM K Unit) := by
  refine pacedBind pacedRead fun node => ?_
  cases node with
  | leaf parent next items =>
    cases items with
    | nil => exact pacedBind (pacedUpdateRoot _) fun _ => pacedDisposePage _
    | cons item rest => exact pacedMarkDirty
  | internal parent items =>
    exact pacedBind (pacedValueAt _ _) fun _ => pacedBind pacedGetPage fun _ =>
      pacedBind pacedSetParent fun _ => pacedBind (pacedUpdateRoot _) fun _ => pacedDisposePage _

theorem pacedLastKey (page : PageNum) : Paced ops n (lastKey page : TreeM K K) := by
  refine pacedBind pacedRead fun node => ?_
  cases node with
  | leaf parent next items => cases h : items.getLast? <;> simp only [h] <;> first | exact pacedPure | exact pacedExit
  | internal parent items => cases h : items.getLast? <;> simp only [h] <;> first | exact pacedPure | exact pacedExit

theorem pacedFirstKey (page : PageNum) : Paced ops n (firstKey page : TreeM K K) := by
  refine pacedBind pacedRead fun node => ?_
  cases node with
  | leaf parent next items => cases items <;> first | exact pacedPure | exact pacedExit
  | internal parent items => cases items <;> first | exact pacedPure | exact pacedExit

theorem pacedMoveTo (kind : NodeKind) (page other : PageNum) : Paced ops n (moveTo ops kind page other) := by
  cases kind with
  | leaf => exact LeafIndexNodeHandler.pacedMoveTo page other
  | internal => exact InternalIndexNodeHandler.pacedMoveTo page other

theorem pacedMoveFirstToEnd (kind : NodeKind) (page other : PageNum) : Paced ops n (moveFirstToEnd ops kind page other) := by
  cases kind with
  | leaf => exact LeafIndexNodeHandler.pacedMoveFirstToEnd page other
  | internal => exact InternalIndexNodeHandler.pacedMoveFirstToEnd page other

theorem pacedMoveLastToFront (kind : NodeKind) (page other : PageNum) :
    Paced ops n (moveLastToFront ops kind page other) := by
  cases kind with
  | leaf => exact LeafIndexNodeHandler.pacedMoveLastToFront page other
  | internal => exact InternalIndexNodeHandler.pacedMoveLastToFront page other

theorem pacedRedistribute (kind : NodeKind) (neighbor page parent : PageNum) (index : Nat) :
    Paced ops n (redistribute ops kind neighbor page parent index) := by
  have rest : Paced ops n (do markDirty neighbor; markDirty page; markDirty parent : TreeM K Unit) :=
    pacedBind pacedMarkDirty fun _ => pacedBind pacedMarkDirty fun _ => pacedMarkDirty
  exact pacedIte (pacedBind (pacedIgnore (pacedMoveFirstToEnd _ _ _)) fun _ => pacedBind (pacedFirstKey _) fun _ =>
      pacedBind (pacedSetKeyAt _ _ _) fun _ => rest)
    (pacedBind (pacedIgnore (pacedMoveLastToFront _ _ _)) fun _ => pacedBind (pacedFirstKey _) fun _ =>
      pacedBind (pacedSetKeyAt _ _ _) fun _ => rest)

theorem pacedMergeNodes (kind : NodeKind) (left right parent : PageNum) (index : Nat) :
    Paced ops n (mergeNodes ops kind left right parent index) := by
  refine pacedBind (pacedRemove _ _) fun _ => pacedBind (pacedMoveTo _ _ _) fun _ => ?_
  cases kind with
  | leaf =>
    exact pacedLeafView fun _ => pacedBind (LeafIndexNodeHandler.pacedSetNextPage _ _) fun _ => pacedDisposePage _
  | internal => exact pacedBind pacedPure fun _ => pacedDisposePage _

theorem pacedCoalesce (fuel : Nat) (kind : NodeKind) (page : PageNum) :
    Paced ops n (coalesceOrRedistribute ops fuel kind page) := by
  induction fuel generalizing kind page with
  | zero => exact pacedExit
  | succ fuel ih =>
    refine pacedBind pacedRead fun _ => pacedBind pacedRead fun _ => pacedIte pacedPure
      (pacedIte (pacedIte pacedPure (pacedIgnore (pacedAdjustRoot _))) ?_)
    refine pacedBind pacedGetPage fun _ => pacedInternalView fun _ => pacedBind (pacedLastKey _) fun _ =>
      pacedBind (pacedValueAt _ _) fun _ => pacedBind (pacedAssert _) fun _ =>
        pacedBind (pacedValueAt _ _) fun _ => pacedBind pacedGetPage fun _ =>
          pacedBind (pacedLatch _) fun _ => pacedBind pacedRead fun _ => pacedIte (pacedRedistribute _ _ _ _ _) ?_
    exact pacedIte (pacedBind (pacedMergeNodes _ _ _ _ _) fun _ => ih _ _)
      (pacedBind (pacedMergeNodes _ _ _ _ _) fun _ => ih _ _)

theorem pacedDeleteInternal (page : PageNum) (key : K) : Paced ops n (deleteEntryInternal ops page key) := by
  refine pacedLeafView fun _ => pacedIte ?_ pacedExit
  exact pacedBind (LeafIndexNodeHandler.pacedRemove _ _) fun _ => pacedBind pacedMarkDirty fun _ =>
    pacedBind pacedRead fun _ => pacedBind pacedRead fun _ => pacedIte pacedPure
      (pacedBind pacedRead fun _ => pacedCoalesce _ _ _)

theorem pacedDeleteBody (key : K) : Paced ops n (deleteEntryBody ops key) := by
  intro s₀ s here
  have found := pacedFindLeaf .delete key s₀ s here
  unfold deleteEntryBody
  rcases ran : findLeaf ops .delete key s with ⟨r,t⟩
  rw [ran] at found
  rcases r with (code | _) | page
  · cases code <;> exact found
  · exact found
  · exact pacedDeleteInternal page key s₀ t found

end
end MiniOb.BplusTree
