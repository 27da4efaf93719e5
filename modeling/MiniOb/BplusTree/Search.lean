import MiniOb.BplusTree.View

/-! Searching a node and descending to a leaf in a tree whose keys are in order. -/
namespace MiniOb.BplusTree
open Prog PagedTree PagedTree.Bound List InternalIndexNodeHandler

variable {K : Type} [LinearOrder K]

structure KeyOps.Ordered (ops : KeyOps K) : Prop where
  less : ∀ a b, ops.compare a b < 0 ↔ a < b
  equal : ∀ a b, ops.compare a b = 0 ↔ a = b

variable {ops : KeyOps K}

theorem KeyOps.Ordered.greater (ordered : ops.Ordered) (a b : K) : 0 < ops.compare a b ↔ b < a := by
  have less := ordered.less a b
  have equal := ordered.equal a b
  rcases lt_trichotomy a b with h | h | h
  · have := less.mpr h
    exact ⟨fun _ => by omega,fun h' => absurd h (lt_asymm h')⟩
  · subst h
    have := equal.mpr rfl
    exact ⟨fun _ => by omega,fun h' => absurd h' (lt_irrefl _)⟩
  · have notLess : ¬ ops.compare a b < 0 := fun h' => lt_asymm h (less.mp h')
    have notEqual : ops.compare a b ≠ 0 := fun h' => h.ne' (equal.mp h')
    exact ⟨fun _ => h,fun _ => by omega⟩

structure KeyOps.OrderedAt (ops : KeyOps K) (key : K) (stored : K → Prop) : Prop where
  less : ∀ a, stored a → (ops.compare a key < 0 ↔ a < key)
  equal : ∀ a, stored a → (ops.compare a key = 0 ↔ a = key)
  greater : ∀ a, stored a → (0 < ops.compare a key ↔ key < a)
  before : ∀ a, stored a → (ops.compare key a < 0 ↔ key < a)

theorem KeyOps.Ordered.at (ordered : ops.Ordered) (key : K) : ops.OrderedAt key fun _ => True :=
  ⟨fun a _ => ordered.less a key,fun a _ => ordered.equal a key,fun a _ => ordered.greater a key,
    fun a _ => ordered.less key a⟩

/-! ### Nodes -/

variable {items : List (K × RID)} {key k : K} {stored : K → Prop} {c : PageNum}

theorem sortedCut (sorted : Sorted items) (key : K) : ∃ below above,
    items = below ++ above ∧ (∀ item ∈ below, item.1 < key) ∧ ∀ item ∈ above, key ≤ item.1 := by
  induction items with
  | nil => exact ⟨[],[],rfl,by simp,by simp⟩
  | cons item rest ih =>
    obtain ⟨first,tail⟩ := pairwise_cons.mp sorted
    rcases lt_or_ge item.1 key with less | notLess
    · obtain ⟨below,above,rfl,left,right⟩ := ih tail
      exact ⟨item :: below,above,rfl,by simpa [less] using left,right⟩
    · refine ⟨[],item :: rest,rfl,by simp,?_⟩
      intro x inside
      rcases mem_cons.mp inside with rfl | later
      · exact notLess
      · exact notLess.trans (first x later).le

theorem leafLookup (ordered : ops.OrderedAt key stored)
    (all : ∀ item ∈ items, stored item.1) (sorted : Sorted items) :
    (∃ below above, items = below ++ above ∧ (∀ item ∈ below, item.1 < key) ∧
      (∀ item ∈ above, key < item.1) ∧ LeafIndexNodeHandler.lookup ops key items = (below.length,false)) ∨
    ∃ below rid above, items = below ++ (key,rid) :: above ∧
      LeafIndexNodeHandler.lookup ops key items = (below.length,true) := by
  obtain ⟨below,above,rfl,left,right⟩ := sortedCut sorted key
  have sortedAbove := (pairwise_append.mp sorted).2.1
  have tail : ∀ item ∈ above.tail, key < item.1 := by
    cases above with
    | nil => simp
    | cons first rest =>
      intro item inside
      exact (right first (by simp)).trans_lt ((pairwise_cons.mp sortedAbove).1 item inside)
  have cut : LowerBound.Cut (fun item : K × RID => ops.compare item.1 key) below above := by
    refine ⟨fun item inside => (ordered.less _ (all item (mem_append_left _ inside))).mpr (left item inside),?_,
      fun item inside => (ordered.greater _ (all item (mem_append_right _ (mem_of_mem_tail inside)))).mpr
        (tail item inside)⟩
    intro item inside
    have := mt (ordered.less _ (all item (mem_append_right _ inside))).mp (not_lt.mpr (right item inside))
    omega
  have result : LeafIndexNodeHandler.lookup ops key (below ++ above) =
      (below.length,LowerBound.equalAt (fun item : K × RID => ops.compare item.1 key) above) :=
    LowerBound.lowerBoundCut cut
  cases above with
  | nil => exact .inl ⟨below,[],rfl,left,by simp,result⟩
  | cons first rest =>
    obtain ⟨k,rid⟩ := first
    by_cases same : k = key
    · subst same
      refine .inr ⟨below,rid,rest,rfl,?_⟩
      rw [result]
      simp [LowerBound.equalAt,(ordered.equal k (all (k,rid) (by simp))).mpr rfl]
    · refine .inl ⟨below,(k,rid) :: rest,rfl,left,?_,?_⟩
      · intro item inside
        rcases mem_cons.mp inside with rfl | later
        · exact lt_of_le_of_ne (right _ (by simp)) (Ne.symm same)
        · exact tail item later
      · rw [result]
        simp [LowerBound.equalAt,mt (ordered.equal k (all (k,rid) (by simp))).mp same]

theorem internalLookup (ordered : ops.OrderedAt key stored)
    (before after : List (K × PageNum)) (all : ∀ item ∈ (before ++ (k,c) :: after).tail, stored item.1)
    (below : ∀ item ∈ before.tail, item.1 < key) (atOrBelow : before ≠ [] → k ≤ key)
    (above : ∀ item ∈ after, key < item.1) :
    (lookup ops key (before ++ (k,c) :: after)).1 = before.length ∧
    ((before ≠ [] → k < key) →
      (lookup ops key (before ++ (k,c) :: after)).2 = before.length + 1) := by
  have negative : ∀ {a : K}, stored a → a < key → ops.compare a key < 0 := fun a h => (ordered.less _ a).mpr h
  have positive : ∀ {a : K}, stored a → key < a → 0 < ops.compare a key := fun a h => (ordered.greater _ a).mpr h
  have allAfter : ∀ item ∈ after, stored item.1 := by
    intro item inside
    refine all item ?_
    cases before with
    | nil => exact inside
    | cons first before => exact mem_append_right _ (mem_cons_of_mem _ inside)
  -- the search without the first key, when all that come before `after` are smaller
  have search : ∀ front : List (K × PageNum), (∀ item ∈ front, stored item.1 ∧ item.1 < key) →
      (lowerBound (fun item : K × PageNum => ops.compare item.1 key) (front ++ after)).1 = front.length := by
    intro front smaller
    have cut : LowerBound.Cut (fun item : K × PageNum => ops.compare item.1 key) front after :=
      ⟨fun item inside => negative (smaller item inside).1 (smaller item inside).2,
        fun item inside => (positive (allAfter item inside) (above item inside)).le,
        fun item inside => positive (allAfter item (mem_of_mem_tail inside))
          (above item (mem_of_mem_tail inside))⟩
    rw [LowerBound.lowerBoundCut cut]
  have next : ∀ {a : K × PageNum}, after[0]? = some a → ops.compare key a.1 < 0 := by
    intro a found
    have inside := mem_of_getElem? found
    exact (ordered.before _ (allAfter a inside)).mpr (above a inside)
  cases before with
  | nil =>
    have result : lookup ops key ([] ++ (k,c) :: after) = (0,1) := by
      unfold InternalIndexNodeHandler.lookup
      rw [if_neg (by simp)]
      have zero := search [] (by simp)
      simp only [nil_append,length_nil] at zero
      simp only [nil_append,tail_cons,zero,Nat.zero_add,getElem?_cons_succ]
      cases found : after[0]? with
      | none => rfl
      | some a => simp [next found]
    rw [result]
    exact ⟨rfl,fun _ => rfl⟩
  | cons first before =>
    unfold InternalIndexNodeHandler.lookup
    rw [if_neg (by simp),cons_append,tail_cons]
    have allBefore : ∀ item ∈ before, stored item.1 := fun item inside => all item (mem_append_left _ inside)
    have storedK : stored k := all (k,c) (by simp)
    rcases (atOrBelow (by simp)).lt_or_eq with less | same
    · have found := search (before ++ [(k,c)]) (by
        intro item inside
        rcases mem_append.mp inside with old | new
        · exact ⟨allBefore item old,below item old⟩
        · rw [mem_singleton.mp new]; exact ⟨storedK,less⟩)
      rw [append_assoc,singleton_append,length_append,length_singleton] at found
      have position : (first :: (before ++ (k,c) :: after))[before.length + 1 + 1]? = after[0]? := by
        rw [getElem?_cons_succ,getElem?_append_right (by omega)]
        simp
      simp only [found,position]
      cases head : after[0]? with
      | none => simp
      | some a => simp [next head]
    · subst same
      have cut : LowerBound.Cut (fun item : K × PageNum => ops.compare item.1 k) before ((k,c) :: after) := by
        refine ⟨fun item inside => negative (allBefore item inside) (below item inside),?_,
          fun item inside => positive (allAfter item inside) (above item inside)⟩
        intro item inside
        rcases mem_cons.mp inside with rfl | later
        · exact ((ordered.equal k storedK).mpr rfl).ge
        · exact (positive (allAfter item later) (above item later)).le
      have found := congrArg Prod.fst (LowerBound.lowerBoundCut cut)
      have position : (first :: (before ++ (k,c) :: after))[before.length + 1]? = some (k,c) := by
        rw [getElem?_cons_succ,getElem?_append_right (by omega)]
        simp
      simp only [found,position,(ordered.equal k storedK).mpr rfl]
      exact ⟨by simp,fun strict => absurd (strict (by simp)) (lt_irrefl _)⟩

theorem segLookup (ordered : ops.Ordered) {lab level lo hi low high before after}
    (seg : Seg lab level lo (before ++ (k,c) :: after) hi) (atC : lab c = some ⟨level,low,high⟩)
    (starts : low ≤ Bound.key key) (ends : Bound.key key < high) :
    (lookup ops key (before ++ (k,c) :: after)).1 = before.length ∧
    (low < Bound.key key →
      (lookup ops key (before ++ (k,c) :: after)).2 = before.length + 1) := by
  obtain ⟨mid,left,top,order,label,first,right⟩ := segAppend.mp seg
  cases Option.some.inj (label.symm.trans atC)
  have atKey : before ≠ [] → low = Bound.key k := by
    intro some
    refine first.resolve_left fun bottom => ?_
    have := segLt left some
    rw [bottom] at this
    exact not_lt_bot this
  have found := internalLookup (c := c) (ordered.at key) before after (k := k)
    (fun _ _ => trivial) (fun item inside => keyLt.mp ((segTail left item inside).2.trans_le starts))
    (fun some => keyLe.mp (atKey some ▸ starts))
    (fun item inside => keyLt.mp (ends.trans_le (segKeys right (bot_lt_iff_ne_bot.mp (bot_le.trans_lt order)) item
      inside).1))
  exact ⟨found.1,fun strict => found.2 fun some => keyLt.mp (atKey some ▸ strict)⟩

/-! ### Descent -/

section
variable {S : Store K} {lab : PageNum → Option (Label K)} {root : PageNum} {height : Nat}

omit [LinearOrder K] in
theorem takesFetchPage {op} :
    Takes Sees (crabingProtocalFetchPage op page isRoot : TreeM K Unit) S (.ok ()) S := by
  refine takesBindAny (fun _ h => ⟨_,rfl,h⟩) fun point => takesBind (takesGetPage _) (takesBind takesLatch
    (takesBind takesGetHeader (takesBind (takesGetNode _) ?_)))
  split
  · exact takesReleaseTo _
  · exact takesPure

def Picks (S : Store K) (lab : PageNum → Option (Label K)) (x : Bound K)
    (getter : List (K × PageNum) → TreeM K PageNum) : Prop :=
  ∀ {level : Nat} {lo hi : Bound K} {items : List (K × PageNum)}, Seg lab level lo items hi → lo ≤ x → x < hi →
    ∃ c low high, lab c = some ⟨level,low,high⟩ ∧ low ≤ x ∧ x < high ∧ Takes Sees (getter items) S (.ok c) S

section
variable {x : Bound K} {getter : List (K × PageNum) → TreeM K PageNum}

theorem takesDescend (tree : Tree bpInvalidPageNum S.node lab root height) (op : OperationType)
    (picks : Picks S lab x getter) : ∀ {level fuel : Nat} {p : PageNum} {lo hi : Bound K},
    lab p = some ⟨level,lo,hi⟩ → lo ≤ x → x < hi → level < fuel →
    ∃ c low high, lab c = some ⟨0,low,high⟩ ∧ low ≤ x ∧ x < high ∧
      Takes Sees (descend op getter fuel p) S (.ok c) S := by
  intro level
  induction level with
  | zero =>
    intro fuel p lo hi found starts ends enough
    obtain ⟨fuel,rfl⟩ : ∃ f, fuel = f + 1 := ⟨fuel - 1,by omega⟩
    obtain ⟨parent,next,items,node,-⟩ := tree.leafNode found
    refine ⟨p,lo,hi,found,starts,ends,takesBind (takesGetNode p) ?_⟩
    rw [node]
    exact takesPure
  | succ level ih =>
    intro fuel p lo hi found starts ends enough
    obtain ⟨fuel,rfl⟩ : ∃ f, fuel = f + 1 := ⟨fuel - 1,by omega⟩
    obtain ⟨parent,items,node,-,seg⟩ := tree.internalNode found
    obtain ⟨c,low,high,atC,startsC,endsC,choice⟩ := picks seg starts ends
    obtain ⟨leaf,low',high',atLeaf,startsLeaf,endsLeaf,run⟩ := ih atC startsC endsC (by omega : level < fuel)
    refine ⟨leaf,low',high',atLeaf,startsLeaf,endsLeaf,takesBind (takesGetNode p) ?_⟩
    rw [node]
    exact takesBind choice (takesBind takesFetchPage run)

theorem takesFindLeafInternal (tree : Tree bpInvalidPageNum S.node lab S.header.rootPage height)
    (enough : height < S.file.pageCount) (op : OperationType) (picks : Picks S lab x getter) (below : x < ⊤) :
    ∃ c low high, lab c = some ⟨0,low,high⟩ ∧ low ≤ x ∧ x < high ∧
      Takes Sees (findLeafInternal op getter) S (.ok c) S := by
  obtain ⟨c,low,high,atC,starts,ends,run⟩ := takesDescend tree op picks tree.rootLabel bot_le below enough
  refine ⟨c,low,high,atC,starts,ends,takesBind takesLatch (takesBind takesIsEmpty ?_)⟩
  have notEmpty := labelNe tree.rootLabel tree.nilLabel
  rw [if_neg (by simpa using notEmpty)]
  exact takesBind takesGetHeader (takesBind takesFetchPage (takesBind takesPageCount run))

end

theorem picksLookup (ordered : ops.Ordered) (key : K) : Picks S lab (Bound.key key) fun items =>
    valueAt items (lookup ops key items).1 := by
  intro level lo hi items seg starts ends
  obtain ⟨before,k,c,after,low,high,rfl,-,atC,startsC,endsC,-⟩ := segFind seg starts ends
  refine ⟨c,low,high,atC,startsC,endsC,takesValueAt (k := k) ?_⟩
  rw [(segLookup ordered seg atC startsC endsC).1]
  simp

theorem picksFirst : Picks S lab ⊥ fun items => valueAt items 0 := by
  intro level lo hi items seg starts ends
  cases items with
  | nil => exact absurd ((show lo = hi from seg) ▸ starts) (not_le.mpr ends)
  | cons item rest =>
    obtain ⟨mid,order,atC,-⟩ := seg
    exact ⟨item.2,lo,mid,atC,starts,bot_le.trans_lt order,takesValueAt (k := item.1) rfl⟩

theorem takesFindLeaf (ordered : ops.Ordered) (tree : Tree bpInvalidPageNum S.node lab S.header.rootPage height)
    (enough : height < S.file.pageCount) (op : OperationType) (key : K) :
    ∃ c low high, lab c = some ⟨0,low,high⟩ ∧ low ≤ Bound.key key ∧ Bound.key key < high ∧
      Takes Sees (findLeaf ops op key) S (.ok c) S :=
  takesFindLeafInternal tree enough op (picksLookup ordered key) (keyLtTop key)

theorem takesLeftMostPage (tree : Tree bpInvalidPageNum S.node lab S.header.rootPage height)
    (enough : height < S.file.pageCount) :
    ∃ c high, lab c = some ⟨0,⊥,high⟩ ∧ Takes Sees (leftMostPage : TreeM K PageNum) S (.ok c) S := by
  obtain ⟨c,low,high,atC,starts,-,run⟩ := takesFindLeafInternal tree enough .read picksFirst bot_lt_top
  obtain rfl := le_bot_iff.mp starts
  exact ⟨c,high,atC,run⟩

end

/-! ### What a descent leaves alone -/

structure Untouched (s₀ s : Handler K) : Prop where
  disk : s.disk = s₀.disk
  entries : s.mtr.entries = s₀.mtr.entries
  needLog : s.mtr.needLog = s₀.mtr.needLog
  disposed : s.mtr.disposed = s₀.mtr.disposed
  dirty : s.mtr.dirty = s₀.mtr.dirty
  currentLsn : s.currentLsn = s₀.currentLsn
  log : s.log = s₀.log

section
variable {K : Type} {s₀ : Handler K}

theorem keepsFault : Keeps (Untouched s₀) (fault : TreeM K Unit) := by
  intro s h
  unfold fault
  split
  · exact h
  · exact ⟨h.disk,h.entries,h.needLog,h.disposed,h.dirty,h.currentLsn,h.log⟩
  · exact ⟨h.disk,h.entries,h.needLog,h.disposed,h.dirty,h.currentLsn,h.log⟩

theorem keepsLatch (item : MemoItem) : Keeps (Untouched s₀) (latch item : TreeM K Unit) :=
  keepsBind (keepsUpdate fun _ h => ⟨h.disk,h.entries,h.needLog,h.disposed,h.dirty,h.currentLsn,h.log⟩)
    fun _ => keepsUpdate fun _ h => ⟨h.disk,h.entries,h.needLog,h.disposed,h.dirty,h.currentLsn,h.log⟩

theorem keepsGetPage (page : PageNum) : Keeps (Untouched s₀) (getPage page : TreeM K Unit) :=
  keepsBind keepsFault fun _ => keepsLatch _

theorem keepsFetchPage (op : OperationType) (page : PageNum) (isRoot : Bool) :
    Keeps (Untouched s₀) (crabingProtocalFetchPage op page isRoot : TreeM K Unit) := by
  refine keepsBind keepsRead fun point => keepsBind (keepsGetPage _) fun _ => keepsBind (keepsLatch _) fun _ =>
    keepsBind keepsRead fun header => keepsBind keepsRead fun node => keepsIte ?_ ?_
  · exact fun _ => keepsUpdate fun _ h => ⟨h.disk,h.entries,h.needLog,h.disposed,h.dirty,h.currentLsn,h.log⟩
  · exact fun _ => keepsPure

theorem keepsValueAt (items : List (K × PageNum)) (index : Nat) :
    Keeps (Untouched s₀) (valueAt items index : TreeM K PageNum) := by
  unfold valueAt
  split
  · exact keepsPure
  · exact keepsExit

variable {getter : List (K × PageNum) → TreeM K PageNum}

theorem keepsDescend (op : OperationType)
    (child : ∀ items, Keeps (Untouched s₀) (getter items)) (fuel : Nat) (page : PageNum) :
    Keeps (Untouched s₀) (descend op getter fuel page) := by
  induction fuel generalizing page with
  | zero => exact keepsExit
  | succ fuel ih =>
    refine keepsBind keepsRead fun node => ?_
    cases node with
    | leaf parent next items => exact keepsPure
    | internal parent items =>
      exact keepsBind (child items) fun next => keepsBind (keepsFetchPage _ _ _) fun _ => ih next

theorem keepsFindLeafInternal (op : OperationType) (child : ∀ items, Keeps (Untouched s₀) (getter items)) :
    Keeps (Untouched s₀) (findLeafInternal op getter) := by
  refine keepsBind (keepsLatch _) fun _ => keepsBind (keepsBind keepsRead fun _ => keepsPure) fun empty =>
    keepsIte (fun _ => keepsExit) fun _ => ?_
  exact keepsBind keepsRead fun header => keepsBind (keepsFetchPage _ _ _) fun _ =>
    keepsBind keepsRead fun fuel => keepsDescend op child fuel _

theorem keepsFindLeaf (ops : KeyOps K) (op : OperationType) (key : K) : Keeps (Untouched s₀) (findLeaf ops op key) :=
  keepsFindLeafInternal op fun _ => keepsValueAt _ _

end

end MiniOb.BplusTree
