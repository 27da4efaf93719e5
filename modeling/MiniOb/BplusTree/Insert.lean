import MiniOb.BplusTree.Invariant

/-! `insert_entry`: a new entry goes into the leaf of its key, and splits go up the tree. -/
namespace MiniOb.BplusTree
open Prog PagedTree PagedTree.Bound Store List Function InternalIndexNodeHandler Node IndexFileHeader IndexNodeHandler

variable {K : Type}

variable [LinearOrder K]

/-- The page `p` has been split into `p` and `n` at the key `k`, and the parent of `p` is still
to be told. `V` is the tree before the split. -/
structure Pending (S : Store K) (V : PageNum → IndexNode K) (lab : PageNum → Option (Label K)) (height : Nat)
    (p n : PageNum) (k : K) (level : Nat) (lo hi : Bound K) : Prop where
  good : Good S V lab height (· = p)
  half : Half V S.node p n k
  atP : lab p = some ⟨level,lo,hi⟩
  fresh : lab n = none
  allocated : Allocated S.file n
  left : HalfFull S.header (S.node p)
  right : HalfFull S.header (S.node n)
  clean : S.disposed = []

section
variable {ops : KeyOps K} {S T : Store K} {V : PageNum → IndexNode K} {lab : PageNum → Option (Label K)}
  {height level : Nat} {p n q r : PageNum} {k : K} {lo hi : Bound K} {above : Label K}

theorem Pending.between (pending : Pending S V lab height p n k level lo hi) : lo < key k ∧ key k < hi :=
  halvesBetween pending.half.halves (pending.good.tree.nodes p _ pending.atP)

variable {parent next c m : PageNum} {before after lower upper : List (K × PageNum)} {kp k' : K} {α : Type}
  {low high : Bound K} {U : Store K}

theorem Pending.link (pending : Pending S V lab height p n k level lo hi) (atQ : lab q = some above)
    (node : V q = .internal parent (before ++ (kp,p) :: after)) :
    Good S (update (update S.node n ((S.node n).setParent q)) q
      (.internal parent (before ++ (kp,p) :: (k,n) :: after))) (cutLabels lab p n level lo hi k) height (· = q) ∧
    ∀ item, Holds (update (update S.node n ((S.node n).setParent q)) q
      (.internal parent (before ++ (kp,p) :: (k,n) :: after))) (cutLabels lab p n level lo hi k) item ↔
      Holds V lab item := by
  have good := pending.good
  have cut := pending.half.link good.tree pending.atP atQ pending.fresh node
  have pages := cutPages good.tree cut.child pending.atP atQ pending.fresh
  refine ⟨⟨cutTree good.tree cut pending.atP atQ pending.fresh (allocatedValid pending.allocated),?_,?_,good.file,?_,
    good.leafMax,good.internalMax⟩,cutHolds good.tree cut pending.atP atQ pending.fresh⟩
  · intro x label found notQ
    rw [update_of_ne notQ]
    rcases cutFound pages.pn found with ⟨rfl,-⟩ | ⟨rfl,-⟩ | ⟨isP,isN,kept⟩
    · rw [update_self,sizeOkSetParent]
      exact pending.right.sizeOk (labelNe good.tree.rootLabel pending.fresh).symm
    · rw [update_of_ne pages.pn]
      exact pending.left.sizeOk pages.notRoot
    · obtain ⟨_,body⟩ := cut.body isP isN notQ
      rw [update_of_ne notQ] at body
      rw [body,sizeOkSetParent]
      exact good.sized x label kept isP
  · intro x label found
    rcases cutFound pages.pn found with ⟨rfl,-⟩ | ⟨rfl,-⟩ | ⟨-,-,kept⟩
    · exact pending.allocated
    · exact good.allocated p _ pending.atP
    · exact good.allocated x label kept
  · rw [pending.clean]
    simp

theorem Pending.allocate (pending : Pending S V lab height p n k level lo hi) (fresh : Fresh S T r) :
    Pending T (update V r (T.node r)) lab height p n k level lo hi ∧ lab r = none ∧ r ≠ p ∧ r ≠ n := by
  have good := pending.good
  have notLabelled : lab r = none := by
    cases found : lab r with
    | none => rfl
    | some label => exact absurd (good.allocated r label found) fresh.before
  have different : ∀ {c : PageNum} {label : Label K}, lab c = some label → c ≠ r := fun found => labelNe found notLabelled
  have rn : n ≠ r := by
    rintro rfl
    exact fresh.before pending.allocated
  have rp := different pending.atP
  have same : ∀ c label, lab c = some label → update V r (T.node r) c = V c := fun c label found =>
    update_of_ne (different found) _ _
  refine ⟨⟨⟨?_,?_,?_,fresh.file,?_,?_,?_⟩,⟨?_,?_,?_,?_⟩,pending.atP,pending.fresh,fresh.keeps n pending.allocated,
    ?_,?_,fresh.disposed.trans pending.clean⟩,notLabelled,rp.symm,rn.symm⟩
  · rw [fresh.header]
    exact good.tree.congr same
  · intro c label found notP
    rw [fresh.header,same c label found]
    exact good.sized c label found notP
  · intro c label found
    exact fresh.keeps c (good.allocated c label found)
  · rw [fresh.disposed]
    exact good.gone
  · rw [fresh.header]
    exact good.leafMax
  · rw [fresh.header]
    exact good.internalMax
  · rw [update_of_ne rp,fresh.node p rp,fresh.node n rn]
    exact pending.half.halves
  · rw [update_of_ne rp,fresh.node p rp]
    exact pending.half.parent
  · intro c inside
    rw [fresh.node n rn] at inside
    obtain ⟨_,_,_,atC,-⟩ := good.tree.childLabel pending.atP (pending.half.movedChild inside)
    rw [fresh.node c (different atC),update_of_ne (different atC)]
    exact pending.half.moved c inside
  · intro c cp cn outside
    by_cases isR : c = r
    · rw [isR,update_self]
    · rw [fresh.node n rn] at outside
      rw [fresh.node c isR,update_of_ne isR]
      exact pending.half.same c cp cn outside
  · rw [fresh.header,fresh.node p rp]
    exact pending.left
  · rw [fresh.header,fresh.node n rn]
    exact pending.right

/-! ### Splitting a node -/

omit [LinearOrder K] in
theorem yieldsSplit {kind} {after : Store K → PageNum → Store K} (blank : PageNum → IndexNode K)
    (file : FileOk S.file) (allocated : Allocated S.file p) (node : S.node p = x)
    (init : ∀ {T : Store K} {n}, Takes Sees (initEmpty kind n) T (.ok ()) (T.set n (blank bpInvalidPageNum)))
    (named : ∀ up, (blank bpInvalidPageNum).setParent up = blank up)
    (move : ∀ {T : Store K} {n}, p ≠ n → T.node p = x →
      Takes Sees (moveHalfTo ops kind p n) (T.set n (blank x.parent)) (.ok ()) (after T n)) :
    Yields (split ops kind p) S fun n U => ∃ T, Fresh S T n ∧ n ≠ p ∧ U = after T n := by
  refine yieldsBind (yieldsMemoAllocatePage file) fun n T fresh => ?_
  have different : p ≠ n := by
    rintro rfl
    exact fresh.before allocated
  have kept : T.node p = x := (fresh.node p different).trans node
  have parent := takesSetParent (S := T.set n (blank bpInvalidPageNum)) n x.parent
  rw [setNodeSelf,setSet,named] at parent
  refine yieldsAfter takesLatch (yieldsAfter init (yieldsAfter (takesGetNode p) ?_))
  rw [setNodeOther different,kept]
  exact yieldsAfter parent (yieldsAfter (takesIgnore (move different kept)) (yieldsAfter takesMarkDirty
    (yieldsAfter takesMarkDirty (yieldsOk takesPure ⟨T,fresh,different.symm,rfl⟩))))

omit [LinearOrder K] in
theorem yieldsSplitLeaf (file : FileOk S.file) (allocated : Allocated S.file p)
    {items} (leaf : S.node p = .leaf parent next items) :
    Yields (split ops .leaf p) S fun n U => ∃ T, Fresh S T n ∧ n ≠ p ∧
      U = (T.set n (.leaf parent bpInvalidPageNum (items.drop (items.length / 2)))).set p
        (.leaf parent next (items.take (items.length / 2))) := by
  refine yieldsSplit (.leaf · bpInvalidPageNum []) file allocated leaf takesLeafInitEmpty (fun _ => rfl) fun {T n} different kept => ?_
  have moved := takesLeafMoveHalfTo ops (T.setNodeSelf n (.leaf parent bpInvalidPageNum [])) different ((setNodeOther different).trans kept)
  rwa [setSet,nil_append] at moved

omit [LinearOrder K] in
theorem yieldsSplitInternal (file : FileOk S.file) (allocated : Allocated S.file p)
    {items} (node : S.node p = .internal parent items) (outside : p ∉ items.map Prod.snd) :
    Yields (split ops .internal p) S fun n U => ∃ T, Fresh S T n ∧ n ≠ p ∧
      U = ((T.set n (.internal parent (items.drop (items.length / 2)))).adopt
        ((items.drop (items.length / 2)).map Prod.snd) n).set p (.internal parent (items.take (items.length / 2))) := by
  refine yieldsSplit (.internal · []) file allocated node takesInternalInitEmpty (fun _ => rfl) fun {T n} different kept => ?_
  have moved := takesInternalMoveHalfTo ops ((setNodeOther different).trans kept) (T.setNodeSelf n (.internal parent [])) different outside
  rwa [setSet,nil_append] at moved

/-! ### A new root -/

theorem Pending.linkRoot (pending : Pending S V lab height p n k level lo hi) (isRoot : p = S.header.rootPage)
    (fresh : lab r = none) (rn : r ≠ n) (allocated : Allocated S.file r) (z : K) :
    Settled ((((S.set p ((S.node p).setParent r)).set n ((S.node n).setParent r)).set r
      (.internal bpInvalidPageNum [(z,p),(k,n)])).setRoot r) (Holds V lab) := by
  have good := pending.good
  have tree := good.tree
  rw [← isRoot] at tree
  have cut := (show Half V S.node p n k from pending.half).linkRoot tree pending.fresh fresh rn z
  have grown := growRoot tree z fresh (allocatedValid allocated)
  have rp := labelNe pending.atP fresh
  have atP : update lab r (some ⟨height + 1,⊥,⊤⟩) p = some ⟨height,⊥,⊤⟩ := by
    rw [update_of_ne rp,tree.rootLabel]
  have atR : update lab r (some ⟨height + 1,⊥,⊤⟩) r = some ⟨height + 1,⊥,⊤⟩ := update_self ..
  have freshN : update lab r (some ⟨height + 1,⊥,⊤⟩) n = none := by
    rw [update_of_ne rn.symm,pending.fresh]
  refine ⟨_,height + 1,⟨cutTree grown cut atP atR freshN (allocatedValid pending.allocated),?_,?_,good.file,?_,
    good.leafMax,good.internalMax⟩,?_⟩
  · intro x label found _
    by_cases isR : x = r
    · subst isR
      simp only [setRoot]
      have := good.internalMax
      simp only [SizeOk,fill,isLeaf,size,maxSize]
      exact ⟨by simp,by simp; omega⟩
    · simp only [setRoot,setNodeOther isR]
      by_cases isN : x = n
      · subst isN
        rw [setNodeSelf,sizeOkSetParent]
        exact pending.right.sizeOk isR
      rw [setNodeOther isN]
      by_cases isP : x = p
      · subst isP
        rw [setNodeSelf,sizeOkSetParent]
        exact pending.left.sizeOk isR
      · rw [cutLabelsSame isP isN,update_of_ne isR] at found
        obtain ⟨_,body⟩ := cut.body isP isN isR
        rw [update_of_ne isR,update_of_ne isN,update_of_ne isP,update_of_ne isR,
          update_of_ne isP] at body
        rw [setNodeOther isP,body,sizeOkSetParent]
        have sized := good.sized x label found isP
        rw [SizeOk,fill,← isRoot,if_neg isP] at sized
        rw [SizeOk,fill,if_neg isR]
        exact sized
  · intro x label found
    by_cases isN : x = n
    · exact isN ▸ pending.allocated
    by_cases isP : x = p
    · exact isP ▸ good.allocated p _ pending.atP
    by_cases isR : x = r
    · exact isR ▸ allocated
    · rw [cutLabelsSame isP isN,update_of_ne isR] at found
      exact good.allocated x label found
  · show ∀ x ∈ S.disposed, _
    rw [pending.clean]
    simp
  · intro item
    refine (cutHolds grown cut atP atR freshN item).trans ?_
    constructor
    · rintro ⟨x,label,found,inside⟩
      by_cases isR : x = r
      · rw [isR,update_self] at inside
        simp [leafItems] at inside
      · rw [update_of_ne isR] at found inside
        by_cases isP : x = p
        · rw [isP,update_self,leafItemsSetParent] at inside
          exact ⟨p,label,isP ▸ found,inside⟩
        · rw [update_of_ne isP] at inside
          exact ⟨x,label,found,inside⟩
    · rintro ⟨x,label,found,inside⟩
      have isR := labelNe found fresh
      refine ⟨x,label,by rw [update_of_ne isR,found],?_⟩
      rw [update_of_ne isR]
      by_cases isP : x = p
      · rw [isP,update_self,leafItemsSetParent]
        exact isP ▸ inside
      · rw [update_of_ne isP]
        exact inside

theorem yieldsCreateRoot (pending : Pending S V lab height p n k level lo hi) (isRoot : p = S.header.rootPage) :
    Yields (createRoot ops p n k) S fun _ T => Settled T (Holds V lab) ∧ T.disposed = [] := by
  refine yieldsBind (yieldsAllocatePage pending.good.file) fun r T fresh => ?_
  obtain ⟨pendingT,freshR,rp,rn⟩ := pending.allocate fresh
  have settled := pendingT.linkRoot (isRoot.trans (congrArg _ fresh.header.symm)) freshR rn fresh.allocated ops.zeroKey
  have pn := labelNe pending.atP pending.fresh
  have same : ∀ item, Holds (update V r (T.node r)) lab item ↔ Holds V lab item :=
    Tree.holdsCongr fun c label found => update_of_ne (labelNe found freshR) _ _
  have root : Takes Sees (createNewRoot ops r p k n) (T.set r (.internal bpInvalidPageNum []))
      (.ok ()) (T.set r (.internal bpInvalidPageNum [(ops.zeroKey,p),(k,n)])) := by
    have := takesCreateNewRoot ops p n k (T.setNodeSelf r (.internal bpInvalidPageNum []))
    rwa [setSet] at this
  have left : Takes Sees (setParentPageNum p r : TreeM K Unit)
      (T.set r (.internal bpInvalidPageNum [(ops.zeroKey,p),(k,n)])) (.ok ())
      ((T.set p ((T.node p).setParent r)).set r (.internal bpInvalidPageNum [(ops.zeroKey,p),(k,n)])) := by
    have := takesSetParent (S := T.set r (.internal bpInvalidPageNum [(ops.zeroKey,p),(k,n)])) p r
    rwa [setNodeOther rp.symm,setComm rp] at this
  have right : Takes Sees (setParentPageNum n r : TreeM K Unit)
      ((T.set p ((T.node p).setParent r)).set r (.internal bpInvalidPageNum [(ops.zeroKey,p),(k,n)])) (.ok ())
      (((T.set p ((T.node p).setParent r)).set n ((T.node n).setParent r)).set r
        (.internal bpInvalidPageNum [(ops.zeroKey,p),(k,n)])) := by
    have := takesSetParent (S := (T.set p ((T.node p).setParent r)).set r
      (.internal bpInvalidPageNum [(ops.zeroKey,p),(k,n)])) n r
    rwa [setNodeOther rn.symm,setNodeOther pn.symm,setComm rn] at this
  refine yieldsOk (takesBind takesInternalInitEmpty (takesBind root (takesBind left (takesBind right
    (takesBind takesMarkDirty (takesBind takesMarkDirty (takesBind takesHold (takesBind (takesUpdateRoot r)
    (takesBind takesMarkDirty (takesBind (takesLetGo _) (takesLetGo _))))))))))) ?_
  exact ⟨settled.congr same,fresh.disposed.trans pending.clean⟩

/-! ### The parents -/

theorem cutSide (seg : Seg lab level low (before ++ (kp,p) :: after) high) (atP : lab p = some ⟨level,lo,hi⟩)
    (between : lo < key k ∧ key k < hi) (someLower : lower ≠ [])
    (split : lower ++ (k',c) :: upper = before ++ (kp,p) :: after) :
    (k' < k ∧ ∃ rest, before = lower ++ rest ∧ (k',c) :: upper = rest ++ (kp,p) :: after) ∨
    (k < k' ∧ ∃ rest, lower = before ++ (kp,p) :: rest ∧ after = rest ++ (k',c) :: upper) := by
  obtain ⟨mid,left,top,order,label,first,right⟩ := segAppend.mp seg
  cases Option.some.inj (label.symm.trans atP)
  -- the first key of the upper half is the end of the ranges before it
  have upperKey : ∀ {front : List (K × PageNum)} {start stop : Bound K} {back : List (K × PageNum)},
      Seg lab level start (front ++ (k',c) :: back) stop → start ≠ ⊥ → start ≤ key k' := by
    intro front start stop back seg notBottom
    exact (segKeys seg notBottom (k',c) (by simp)).1
  rcases append_eq_append_iff.mp split with ⟨rest,rfl,same⟩ | ⟨rest,rfl,same⟩
  · left
    refine ⟨?_,rest,rfl,same⟩
    cases rest with
    | nil =>
      simp only [nil_append,cons.injEq,Prod.mk.injEq] at same
      obtain ⟨⟨rfl,rfl⟩,-⟩ := same
      rw [append_nil] at left
      have atKey : lo = key k' := first.resolve_left fun bottom => by
        have := segLt left someLower
        rw [bottom] at this
        exact not_lt_bot this
      exact keyLt.mp (atKey ▸ between.1)
    | cons item rest =>
      obtain ⟨rfl,-⟩ := same
      have := segTail left (k',c) (by
        rw [tail_append_of_ne_nil someLower]
        simp)
      exact keyLt.mp (this.2.trans between.1)
  · cases rest with
    | nil =>
      left
      obtain ⟨⟨rfl,rfl⟩,rfl⟩ := same
      rw [append_nil] at someLower
      have atKey : lo = key kp := first.resolve_left fun bottom => by
        have := segLt left someLower
        rw [bottom] at this
        exact not_lt_bot this
      exact ⟨keyLt.mp (atKey ▸ between.1),[],by simp,rfl⟩
    | cons item rest =>
      right
      obtain ⟨rfl,rfl⟩ := same
      refine ⟨?_,rest,rfl,rfl⟩
      have := upperKey right (bot_lt_iff_ne_bot.mp (bot_le.trans_lt order))
      exact keyLt.mp (between.2.trans_le this)

theorem halfUp {W}
    {all : List (K × PageNum)} (someLower : lower ≠ []) (all_eq : all = lower ++ (k',c) :: upper)
    (whole : W q = .internal parent all)
    (atQ : U.node q = .internal parent lower) (atM : U.node m = .internal parent ((k',c) :: upper))
    (moved : ∀ x ∈ ((k',c) :: upper).map Prod.snd, U.node x = (W x).setParent m)
    (same : ∀ x, x ≠ q → x ≠ m → x ∉ ((k',c) :: upper).map Prod.snd → U.node x = W x) :
    Half W U.node q m k' := by
  refine ⟨?_,?_,?_,?_⟩
  · rw [whole,atQ,atM,all_eq]
    exact .internal someLower
  · rw [whole,atQ]; rfl
  · intro x child
    rw [atM] at child
    exact moved x child
  · intro x xq xm outside
    rw [atM] at outside
    exact same x xq xm outside

theorem Pending.up (pending : Pending S V lab height p n k level lo hi)
    (freshM : lab m = none) (mp : m ≠ p) (mn : m ≠ n) (allocated : Allocated S.file m)
    (atQ : lab q = some ⟨level + 1,low,high⟩)
    (node : V q = .internal parent (before ++ (kp,p) :: after))
    (half : Half (update (update S.node n ((S.node n).setParent q)) q
      (.internal parent (before ++ (kp,p) :: (k,n) :: after))) U.node q m k')
    (header : U.header = S.header) (file : U.file = S.file) (disposed : U.disposed = S.disposed)
    (left : HalfFull S.header (U.node q)) (right : HalfFull S.header (U.node m)) :
    ∃ W lab', Pending U W lab' height q m k' (level + 1) low high ∧ ∀ item, Holds W lab' item ↔ Holds V lab item := by
  obtain ⟨good,holds⟩ := pending.link atQ node
  have child : p ∈ (V q).children := by simp [node,children]
  have pages := cutPages pending.good.tree child pending.atP atQ pending.fresh
  refine ⟨_,_,⟨good.transfer header file disposed,half,?_,?_,file ▸ allocated,header ▸ left,header ▸ right,
    disposed.trans pending.clean⟩,holds⟩
  · rw [cutLabelsSame pages.pq.symm pages.qn,atQ]
  · rw [cutLabelsSame mp mn,freshM]

theorem Pending.parentNode (pending : Pending S V lab height p n k level lo hi)
    (hasParent : (S.node p).parent ≠ bpInvalidPageNum) : ∃ low high parent before kp after,
    lab (S.node p).parent = some ⟨level + 1,low,high⟩ ∧
    V (S.node p).parent = .internal parent (before ++ (kp,p) :: after) ∧
    S.node (S.node p).parent = V (S.node p).parent := by
  have tree := pending.good.tree
  rw [pending.half.parent] at hasParent ⊢
  have notRoot : p ≠ S.header.rootPage := by
    rintro same
    rw [same,tree.rootParent] at hasParent
    exact hasParent rfl
  obtain ⟨⟨level',low,high⟩,atQ,levelQ,child⟩ := tree.up p _ pending.atP notRoot
  obtain rfl : level' = level + 1 := levelQ
  have pages := cutPages tree child pending.atP atQ pending.fresh
  have outside : (V p).parent ∉ (S.node n).children := fun inside =>
    (pages.moved _ (pending.half.movedChild inside)).2.2.1 rfl
  have same := pending.half.same _ pages.pq.symm pages.qn outside
  cases node : V (V p).parent with
  | leaf parent next items => simp [node,children] at child
  | internal parent items =>
    rw [node] at child
    obtain ⟨⟨kp,c⟩,inside,rfl⟩ := mem_map.mp child
    obtain ⟨before,after,rfl⟩ := append_of_mem inside
    exact ⟨low,high,parent,before,kp,after,atQ,rfl,same.trans node⟩

theorem Pending.told (ordered : ops.Ordered) (pending : Pending S V lab height p n k level lo hi)
    (there : U.node q = .internal parent (before ++ (kp,p) :: after)) (seg : Seg lab level low (before ++ (kp,p) :: after) high)
    (different : n ≠ q) (same : U.node n = S.node n) :
    let T := U.set q (.internal parent (before ++ (kp,p) :: (k,n) :: after))
    Takes Sees (insert ops q k n) U (.ok ()) T ∧
      Takes Sees (setParentPageNum n q : TreeM K Unit) T (.ok ()) (T.set n ((S.node n).setParent q)) := by
  have position := (segLookup ordered seg pending.atP pending.between.1.le pending.between.2).2 pending.between.1
  have inserted := takesInternalInsert ops k n there
  rw [position,recoverInsertAfter] at inserted
  have named := takesSetParent (S := U.set q (.internal parent (before ++ (kp,p) :: (k,n) :: after))) n q
  rw [setNodeOther different,same] at named
  exact ⟨inserted,named⟩

def SplitUp (U : Store K) (V : PageNum → IndexNode K) (lab : PageNum → Option (Label K)) (height : Nat)
    (q m : PageNum) (k' : K) (level : Nat) (low high : Bound K) : Prop :=
  (∃ parent c upper, U.node m = .internal parent ((k',c) :: upper)) ∧
  ∃ W lab', Pending U W lab' height q m k' level low high ∧ ∀ item, Holds W lab' item ↔ Holds V lab item

theorem Pending.splitParent (ordered : ops.Ordered) (pending : Pending S V lab height p n k level lo hi)
    (freshM : lab m = none) (mp : m ≠ p) (mn : m ≠ n) (mq : m ≠ q) (allocated : Allocated S.file m)
    (atQ : lab q = some ⟨level + 1,low,high⟩) (node : V q = .internal parent (before ++ (kp,p) :: after))
    (parts : lower ++ (k',c) :: upper = before ++ (kp,p) :: after)
    (all : lower.length + (upper.length + 1) = natOf S.header.internalMaxSize)
    (half : lower.length = natOf S.header.internalMaxSize / 2) :
    let U := ((S.set m (.internal parent ((k',c) :: upper))).adopt (((k',c) :: upper).map Prod.snd) m).set q
      (.internal parent lower)
    U.node m = .internal parent ((k',c) :: upper) ∧
    ((k' < k ∧ ∃ U₁ U₂, Takes Sees (insert ops m k n) U (.ok ()) U₁ ∧
        Takes Sees (setParentPageNum n m : TreeM K Unit) U₁ (.ok ()) U₂ ∧
        SplitUp U₂ V lab height q m k' (level + 1) low high) ∨
      (k < k' ∧ ∃ U₁ U₂, Takes Sees (insert ops q k n) U (.ok ()) U₁ ∧
        Takes Sees (setParentPageNum n q : TreeM K Unit) U₁ (.ok ()) U₂ ∧
        SplitUp U₂ V lab height q m k' (level + 1) low high)) := by
  intro U
  have tree := pending.good.tree
  have child : p ∈ (V q).children := by simp [node,children]
  have pages := cutPages tree child pending.atP atQ pending.fresh
  have six := pending.good.internalMax
  have someLower : lower ≠ [] := by
    rintro rfl
    simp only [length_nil] at half
    omega
  have seg := tree.segAt atQ node
  -- the children of the upper half are in the tree, below `q`
  have upperChild : ∀ x ∈ ((k',c) :: upper).map Prod.snd, x ≠ q ∧ x ≠ m ∧ x ≠ n := by
    intro x inside
    obtain ⟨_,_,_,atX,levelX,-⟩ := tree.childLabel (c := x) atQ (by
      rw [node,← parts]
      simp only [children,map_append,mem_append]
      exact .inr inside)
    exact ⟨levelNe atX atQ (by simp only at levelX ⊢; omega),labelNe atX freshM,labelNe atX pending.fresh⟩
  have outsideM : m ∉ ((k',c) :: upper).map Prod.snd := fun inside => (upperChild m inside).2.1 rfl
  have outsideN : n ∉ ((k',c) :: upper).map Prod.snd := fun inside => (upperChild n inside).2.2 rfl
  have uQ : U.node q = .internal parent lower := setNodeSelf ..
  have uM : U.node m = .internal parent ((k',c) :: upper) := by
    rw [setNodeOther mq,adoptNodeOther outsideM,setNodeSelf]
  have uIn : ∀ x ∈ ((k',c) :: upper).map Prod.snd, U.node x = (S.node x).setParent m := by
    intro x inside
    obtain ⟨xq,xm,-⟩ := upperChild x inside
    rw [setNodeOther xq,adoptNodeMember inside,setNodeOther xm]
  have uOut : ∀ x, x ≠ q → x ≠ m → x ∉ ((k',c) :: upper).map Prod.snd → U.node x = S.node x := by
    intro x xq xm outside
    rw [setNodeOther xq,adoptNodeOther outside,setNodeOther xm]
  have uN : U.node n = S.node n := uOut n pages.qn.symm mn.symm outsideN
  have header : U.header = S.header := rfl
  have file : U.file = S.file := rfl
  have disposed : U.disposed = S.disposed := rfl
  refine ⟨uM,?_⟩
  clear_value U
  have wOther : ∀ x, x ≠ q → x ≠ n → update (update S.node n ((S.node n).setParent q)) q
      (.internal parent (before ++ (kp,p) :: (k,n) :: after)) x = S.node x := by
    intro x xq xn
    rw [update_of_ne xq,update_of_ne xn]
  have wN : update (update S.node n ((S.node n).setParent q)) q
      (.internal parent (before ++ (kp,p) :: (k,n) :: after)) n = (S.node n).setParent q := by
    rw [update_of_ne pages.qn.symm,update_self]
  rcases cutSide seg pending.atP pending.between someLower parts with
    ⟨less,rest,beforeEq,upperEq⟩ | ⟨less,rest,lowerEq,afterEq⟩
  · left
    rw [beforeEq,append_assoc] at seg
    obtain ⟨mid,-,segUpper⟩ := segAppend.mp seg
    obtain ⟨inserted,named⟩ := pending.told ordered (upperEq ▸ uM) segUpper mn.symm uN
    -- the new child does not come first, so the first key stays
    obtain ⟨upper',headEq⟩ : ∃ upper', rest ++ (kp,p) :: (k,n) :: after = (k',c) :: upper' := by
      cases rest with
      | nil =>
        simp only [nil_append,cons.injEq] at upperEq
        exact ⟨_,by rw [nil_append,upperEq.1]⟩
      | cons item rest =>
        simp only [cons_append,cons.injEq] at upperEq
        exact ⟨_,by rw [cons_append,upperEq.1]⟩
    have members : ∀ x, x ∈ ((k',c) :: upper').map Prod.snd ↔ x = n ∨ x ∈ ((k',c) :: upper).map Prod.snd := by
      intro x
      rw [← headEq,upperEq]
      grind
    have size : upper'.length = upper.length + 1 := by
      have first := congrArg length headEq
      have second := congrArg length upperEq
      simp only [length_append,length_cons] at first second
      omega
    refine ⟨less,_,_,inserted,named,⟨parent,c,upper',?_⟩,?_⟩
    · rw [setNodeOther mn,setNodeSelf,headEq]
    have atQ' : ((U.set m (.internal parent (rest ++ (kp,p) :: (k,n) :: after))).set n
        ((S.node n).setParent m)).node q = .internal parent lower := by
      rw [setNodeOther pages.qn,setNodeOther mq.symm,uQ]
    have atM' : ((U.set m (.internal parent (rest ++ (kp,p) :: (k,n) :: after))).set n
        ((S.node n).setParent m)).node m = .internal parent ((k',c) :: upper') := by
      rw [setNodeOther mn,setNodeSelf,headEq]
    refine pending.up freshM mp mn allocated atQ node (halfUp someLower ?_ (update_self ..) atQ' atM' ?_ ?_)
      header file disposed ?_ ?_
    · rw [beforeEq,append_assoc,headEq]
    · intro x inside
      by_cases isN : x = n
      · subst isN
        rw [setNodeSelf,wN,setParentTwice]
      · have old := ((members x).mp inside).resolve_left isN
        obtain ⟨xq,xm,-⟩ := upperChild x old
        rw [setNodeOther isN,setNodeOther xm,uIn x old,wOther x xq isN]
    · intro x xq xm outside
      have isN : x ≠ n := fun same => outside ((members x).mpr (.inl same))
      rw [setNodeOther isN,setNodeOther xm,
        uOut x xq xm fun inside => outside ((members x).mpr (.inr inside)),wOther x xq isN]
    · rw [atQ',HalfFull,maxSizeInternal,Node.size]
      omega
    · rw [atM',HalfFull,maxSizeInternal,Node.size,length_cons]
      omega
  · right
    rw [afterEq,show before ++ (kp,p) :: (rest ++ (k',c) :: upper) =
      (before ++ (kp,p) :: rest) ++ (k',c) :: upper by simp] at seg
    obtain ⟨mid,segLower,-⟩ := segAppend.mp seg
    obtain ⟨inserted,named⟩ := pending.told ordered (lowerEq ▸ uQ) segLower pages.qn.symm uN
    have size := congrArg length lowerEq
    simp only [length_append,length_cons] at size
    have atQ' : ((U.set q (.internal parent (before ++ (kp,p) :: (k,n) :: rest))).set n
        ((S.node n).setParent q)).node q = .internal parent (before ++ (kp,p) :: (k,n) :: rest) := by
      rw [setNodeOther pages.qn,setNodeSelf]
    have atM' : ((U.set q (.internal parent (before ++ (kp,p) :: (k,n) :: rest))).set n
        ((S.node n).setParent q)).node m = .internal parent ((k',c) :: upper) := by
      rw [setNodeOther mn,setNodeOther mq,uM]
    refine ⟨less,_,_,inserted,named,⟨parent,c,upper,atM'⟩,?_⟩
    refine pending.up freshM mp mn allocated atQ node (halfUp (by simp) ?_ (update_self ..) atQ' atM' ?_ ?_)
      header file disposed ?_ ?_
    · rw [afterEq]; simp
    · intro x inside
      obtain ⟨xq,xm,xn⟩ := upperChild x inside
      rw [setNodeOther xn,setNodeOther xq,uIn x inside,wOther x xq xn]
    · intro x xq xm outside
      by_cases isN : x = n
      · subst isN
        rw [setNodeSelf,wN]
      · rw [setNodeOther isN,setNodeOther xq,uOut x xq xm outside,wOther x xq isN]
    · rw [atQ',HalfFull,maxSizeInternal,Node.size,length_append,length_cons,length_cons]
      omega
    · rw [atM',HalfFull,maxSizeInternal,Node.size,length_cons]
      omega

theorem yieldsInsertIntoParent (ordered : ops.Ordered) : ∀ {fuel : Nat} {S : Store K} {V : PageNum → IndexNode K}
    {lab : PageNum → Option (Label K)} {p n : PageNum} {k : K} {level : Nat} {lo hi : Bound K},
    Pending S V lab height p n k level lo hi → height < level + fuel →
    Yields (insertEntryIntoParent ops fuel p n k) S fun _ T => Settled T (Holds V lab) ∧ T.disposed = [] := by
  intro fuel
  induction fuel with
  | zero =>
    intro S V lab p n k level lo hi pending enough
    have := pending.good.tree.bounded p _ pending.atP
    simp only at this
    omega
  | succ fuel ih =>
    intro S V lab p n k level lo hi pending enough
    have good := pending.good
    have tree := good.tree
    refine yieldsAfter (takesGetNode p) ?_
    by_cases noParent : (S.node p).parent = bpInvalidPageNum
    · rw [if_pos noParent]
      refine yieldsCreateRoot pending ?_
      rw [pending.half.parent] at noParent
      exact tree.rootOfNil pending.atP noParent
    rw [if_neg noParent]
    obtain ⟨low,high,parent,before,kp,after,atQ,node,same⟩ := pending.parentNode noParent
    generalize (S.node p).parent = q at atQ node same ⊢
    have child : p ∈ (V q).children := by simp [node,children]
    have pages := cutPages tree child pending.atP atQ pending.fresh
    have nodeS : S.node q = .internal parent (before ++ (kp,p) :: after) := same.trans node
    have sizedQ := good.sized q _ atQ pages.pq.symm
    rw [node] at sizedQ
    refine yieldsAfter (takesGetPage q) (yieldsAfter takesGetHeader (yieldsAfter (takesGetNode q) ?_))
    rw [nodeS]
    by_cases room : (internal parent (before ++ (kp,p) :: after) : IndexNode K).size <
        S.header.maxSize (internal parent (before ++ (kp,p) :: after) : IndexNode K)
    · rw [if_pos room]
      obtain ⟨inserted,named⟩ := pending.told ordered nodeS (tree.segAt atQ node) pages.qn.symm rfl
      rw [setComm pages.qn] at named
      obtain ⟨goodW,holds⟩ := pending.link atQ node
      refine yieldsOk (takesBind inserted (takesBind named (takesBind takesMarkDirty (takesBind takesMarkDirty
        takesMarkDirty)))) ⟨⟨_,height,Good.unexempt (goodW.transfer rfl rfl rfl) ?_,holds⟩,pending.clean⟩
      intro label _
      rw [setNodeSelf]
      simp only [SizeOk,size,maxSize,isLeaf,length_append,
        length_cons,setHeader] at sizedQ room ⊢
      simp only [Bool.false_eq_true] at room ⊢
      exact ⟨sizedQ.1.trans (by omega),by omega⟩
    · rw [if_neg room]
      have outside : q ∉ (before ++ (kp,p) :: after).map Prod.snd := by
        intro inside
        obtain ⟨_,_,_,atX,levelX,-⟩ := tree.childLabel (c := q) atQ (by rw [node]; exact inside)
        exact levelNe atX atQ (by simp only at levelX ⊢; omega) rfl
      simp only [SizeOk,size,maxSize,isLeaf,Bool.false_eq_true,if_false] at sizedQ room
      have full : (before ++ (kp,p) :: after).length = natOf S.header.internalMaxSize := by
        omega
      have six := good.internalMax
      refine yieldsBind (yieldsSplitInternal good.file (good.allocated q _ atQ) nodeS outside) ?_
      rintro m U ⟨T,fresh,mq,rfl⟩
      obtain ⟨pendingT,freshM,mp,mn⟩ := pending.allocate fresh
      have nodeT : update V m (T.node m) q = .internal parent (before ++ (kp,p) :: after) := by
        rw [update_of_ne mq.symm,node]
      have parts := take_append_drop ((before ++ (kp,p) :: after).length / 2) (before ++ (kp,p) :: after)
      have lowerSize : ((before ++ (kp,p) :: after).take ((before ++ (kp,p) :: after).length / 2)).length =
          natOf T.header.internalMaxSize / 2 := by
        rw [fresh.header,length_take,full]
        omega
      have upperSize : ((before ++ (kp,p) :: after).drop ((before ++ (kp,p) :: after).length / 2)).length =
          natOf T.header.internalMaxSize - natOf T.header.internalMaxSize / 2 := by
        rw [fresh.header,length_drop,full]
      rw [← fresh.header] at six
      generalize (before ++ (kp,p) :: after).drop ((before ++ (kp,p) :: after).length / 2) = part at *
      obtain _ | ⟨⟨k',c⟩,upper⟩ := part
      · simp only [length_nil] at upperSize
        omega
      rw [length_cons] at upperSize
      obtain ⟨atM,sides⟩ := pendingT.splitParent ordered freshM mp mn mq fresh.allocated atQ nodeT parts (by omega)
        lowerSize
      have holdsT : ∀ item, Holds (update V m (T.node m)) lab item ↔ Holds V lab item :=
        Tree.holdsCongr fun x label found => update_of_ne (labelNe found freshM) _ _
      have rest : ∀ {U : Store K}, SplitUp U (update V m (T.node m)) lab height q m k' (level + 1) low high →
          Yields (do
            let x ← view m
            let separator ← keyAt x.2 0
            insertEntryIntoParent ops fuel q m separator) U
            fun _ T => Settled T (Holds V lab) ∧ T.disposed = [] := by
        rintro U ⟨⟨parent',c',upper',atM'⟩,W,lab',pendingU,holdsU⟩
        refine yieldsAfter (takesInternalView atM') (yieldsAfter (takesKeyAt rfl) ?_)
        refine yieldsWeaken (ih pendingU (by omega)) ?_
        exact fun _ F done => ⟨done.1.congr fun item => (holdsU item).trans (holdsT item),done.2⟩
      refine yieldsAfter (takesInternalView atM) (yieldsAfter (takesKeyAt rfl) ?_)
      rcases sides with ⟨less,U₁,U₂,inserted,named,up⟩ | ⟨less,U₁,U₂,inserted,named,up⟩
      · rw [if_pos ((ordered.greater k k').mpr less)]
        exact yieldsAfter inserted (yieldsAfter named (rest up))
      · rw [if_neg (mt (ordered.greater k k').mp (lt_asymm less))]
        exact yieldsAfter inserted (yieldsAfter named (rest up))

/-! ### The leaf -/

omit [LinearOrder K] in
theorem insertIntoPart {lower upper before after} (new : α) (parts : lower ++ upper = before ++ after) :
    (before.length < lower.length ∧ recoverInsertItems before.length [new] lower ++ upper = before ++ new :: after) ∨
    (¬ before.length < lower.length ∧
      lower ++ recoverInsertItems (before.length - lower.length) [new] upper = before ++ new :: after) := by
  by_cases first : before.length < lower.length
  · left
    refine ⟨first,?_⟩
    rcases append_eq_append_iff.mp parts with ⟨rest,rfl,-⟩ | ⟨rest,rfl,rfl⟩
    · simp only [length_append] at first
      omega
    · rw [recoverInsertAt]; simp
  · right
    refine ⟨first,?_⟩
    rcases append_eq_append_iff.mp parts with ⟨rest,rfl,rfl⟩ | ⟨rest,rfl,same⟩
    · rw [length_append,Nat.add_sub_cancel_left,recoverInsertAt]; simp
    · have : rest = [] := by
        rw [← length_eq_zero_iff]
        simp only [length_append] at first
        omega
      subst this
      simp only [append_nil,nil_append] at same ⊢
      rw [Nat.sub_self,← same,← nil_append after]
      exact congrArg _ (recoverInsertAt [] _ new)

theorem leafPending (good : Good S S.node lab height (fun _ => False)) (clean : S.disposed = [])
    (fresh : Fresh S T n) {old lower upper} (rid : RID)
    (atP : lab p = some ⟨0,lo,hi⟩) (leaf : S.node p = .leaf parent next old)
    (sorted : Sorted (lower ++ (k,rid) :: upper)) (within : Within lo hi (lower ++ (k,rid) :: upper))
    (some : lower ≠ []) (left : natOf S.header.leafMaxSize / 2 ≤ lower.length)
    (left' : lower.length ≤ natOf S.header.leafMaxSize) (right : natOf S.header.leafMaxSize / 2 ≤ upper.length + 1)
    (right' : upper.length + 1 ≤ natOf S.header.leafMaxSize) :
    Pending ((T.set n (.leaf parent next ((k,rid) :: upper))).set p (.leaf parent n lower))
      (update S.node p (.leaf parent next (lower ++ (k,rid) :: upper))) lab height p n k 0 lo hi := by
  obtain ⟨goodT,freshN⟩ := (good.setItems _ atP leaf sorted within).allocate fresh
  have pn := labelNe atP freshN
  have atP' : ((T.set n (.leaf parent next ((k,rid) :: upper))).set p (.leaf parent n lower)).node p =
      .leaf parent n lower := setNodeSelf ..
  have atN' : ((T.set n (.leaf parent next ((k,rid) :: upper))).set p (.leaf parent n lower)).node n =
      .leaf parent next ((k,rid) :: upper) := by
    rw [setNodeOther pn.symm,setNodeSelf]
  obtain ⟨-,sortedUpper,across⟩ := pairwise_append.mp sorted
  refine ⟨⟨goodT.tree,?_,goodT.allocated,goodT.file,goodT.gone,goodT.leafMax,goodT.internalMax⟩,⟨?_,?_,?_,?_⟩,atP,
    freshN,fresh.allocated,?_,?_,fresh.disposed.trans clean⟩
  · exact fun x label found other => goodT.sized x label found (by simpa using other)
  · rw [update_self,atP',atN']
    refine .leaf some (by simp) (fun item inside => across item inside (k,rid) (by simp)) ?_
    intro item inside
    rcases mem_cons.mp inside with rfl | later
    · exact le_refl _
    · exact ((pairwise_cons.mp sortedUpper).1 item later).le
  · rw [atP',update_self]; rfl
  · rw [atN']
    simp [children]
  · intro c cp cn _
    rw [setNodeOther cp,setNodeOther cn,fresh.node c cn,update_of_ne cp]
  · rw [atP',setHeader,setHeader,fresh.header]
    exact ⟨left,left'⟩
  · rw [atN',setHeader,setHeader,fresh.header]
    exact ⟨right,right'⟩

theorem insertIntoLeaf (ordered : ops.Ordered) (good : Good S S.node lab height (fun _ => False))
    (clean : S.disposed = []) (atP : lab p = some ⟨0,lo,hi⟩) (starts : lo ≤ key k) (ends : key k < hi) (rid : RID) :
    ((∃ rid', Holds S.node lab (k,rid')) ∧ ∀ s, Sees s S →
      insertEntryIntoLeafNode ops p k rid s = (.error (.rc .recordDuplicateKey),s)) ∨
    ((∀ rid', ¬ Holds S.node lab (k,rid')) ∧ Yields (insertEntryIntoLeafNode ops p k rid) S fun _ T =>
      Settled T (fun item => item = (k,rid) ∨ Holds S.node lab item) ∧ T.disposed = []) := by
  have tree := good.tree
  obtain ⟨parent,next,items,leaf,sorted,within,-⟩ := tree.leafNode atP
  rcases leafLookup (ordered.at k) (fun _ _ => trivial) sorted with
    ⟨below,above,rfl,less,greater,looked⟩ | ⟨below,rid',above,rfl,looked⟩
  · right
    have absent : ∀ rid', (k,rid') ∉ below ++ above := by
      intro rid' inside
      rcases mem_append.mp inside with h | h
      · exact lt_irrefl _ (less _ h)
      · exact lt_irrefl _ (greater _ h)
    refine ⟨fun rid' holds => absent rid' ?_,?_⟩
    · have := tree.holdsAt atP rfl ⟨starts,ends⟩ holds
      rwa [leaf] at this
    have sorted' : Sorted (below ++ (k,rid) :: above) := by
      obtain ⟨sortedBelow,sortedAbove,across⟩ := pairwise_append.mp sorted
      refine pairwise_append.mpr ⟨sortedBelow,pairwise_cons.mpr ⟨greater,sortedAbove⟩,?_⟩
      intro a inA b inB
      rcases mem_cons.mp inB with rfl | inB
      · exact less a inA
      · exact across a inA b inB
    have within' : Within lo hi (below ++ (k,rid) :: above) := by
      intro item inside
      simp only [mem_append,mem_cons] at inside
      rcases inside with h | rfl | h
      · exact within item (mem_append_left _ h)
      · exact ⟨starts,ends⟩
      · exact within item (mem_append_right _ h)
    have holds' : ∀ item, Holds (update S.node p (.leaf parent next (below ++ (k,rid) :: above))) lab item ↔
        item = (k,rid) ∨ Holds S.node lab item := by
      intro item
      rw [holdsSetItems tree atP leaf]
      constructor
      · rintro (inside | ⟨-,old⟩)
        · simp only [mem_append,mem_cons] at inside
          rcases inside with h | rfl | h
          · exact .inr ⟨p,_,atP,by rw [leaf]; exact mem_append_left _ h⟩
          · exact .inl rfl
          · exact .inr ⟨p,_,atP,by rw [leaf]; exact mem_append_right _ h⟩
        · exact .inr old
      · rintro (rfl | old)
        · exact .inl (by simp)
        · by_cases here : item ∈ below ++ above
          · left
            simp only [mem_append,mem_cons] at here ⊢
            exact here.imp_right .inr
          · exact .inr ⟨here,old⟩
    have sized := good.sized p _ atP (fun h => h)
    rw [leaf] at sized
    simp only [SizeOk,size,maxSize,isLeaf,if_true] at sized
    refine yieldsAfter (takesLeafView leaf) ?_
    dsimp only
    rw [looked]
    refine yieldsAfter takesGetHeader (yieldsAfter (takesGetNode p) ?_)
    rw [leaf]
    simp only [maxSize,isLeaf,if_true]
    by_cases room : (below ++ above).length < natOf S.header.leafMaxSize
    · rw [if_pos room]
      have inserted := takesLeafInsertItems ops [(k,rid)] below.length leaf
      rw [recoverInsertAt] at inserted
      refine yieldsOk (takesBind inserted takesMarkDirty) ⟨⟨lab,height,?_,holds'⟩,clean⟩
      have updated := good.setItems _ atP leaf sorted' within'
      have only : Good S (update S.node p (.leaf parent next (below ++ (k,rid) :: above))) lab height
          (· = p) :=
        ⟨updated.tree,fun x label found other => updated.sized x label found (by simpa using other),
          updated.allocated,updated.file,updated.gone,updated.leafMax,updated.internalMax⟩
      refine Good.unexempt (only.transfer rfl rfl rfl) ?_
      intro label _
      rw [setNodeSelf]
      simp only [SizeOk,size,maxSize,isLeaf,if_true,setHeader,
        length_append,length_cons] at sized room ⊢
      exact ⟨sized.1.trans (by omega),by omega⟩
    · rw [if_neg room]
      have six := good.leafMax
      have full : (below ++ above).length = natOf S.header.leafMaxSize := by
        omega
      refine yieldsBind (yieldsSplitLeaf good.file (good.allocated p _ atP) leaf) ?_
      rintro n U ⟨T,fresh,np,rfl⟩
      have parts := take_append_drop ((below ++ above).length / 2) (below ++ above)
      have lowerSize : ((below ++ above).take ((below ++ above).length / 2)).length =
          natOf S.header.leafMaxSize / 2 := by
        rw [length_take,full]
        omega
      have upperSize : ((below ++ above).drop ((below ++ above).length / 2)).length =
          natOf S.header.leafMaxSize - natOf S.header.leafMaxSize / 2 := by
        rw [length_drop,full]
      generalize (below ++ above).take ((below ++ above).length / 2) = lower at *
      generalize (below ++ above).drop ((below ++ above).length / 2) = upper at *
      have step₁ : Takes Sees (LeafIndexNodeHandler.setNextPage n next)
          ((T.set n (.leaf parent bpInvalidPageNum upper)).set p (.leaf parent next lower)) (.ok ())
          ((T.set n (.leaf parent next upper)).set p (.leaf parent next lower)) := by
        have := takesSetNextPage next
          ((setNodeOther (S := T.set n (.leaf parent bpInvalidPageNum upper)) (x := .leaf parent next lower) np).trans
            (T.setNodeSelf n _))
        rwa [setComm np.symm,setSet] at this
      have step₂ : Takes Sees (setParentPageNum n parent : TreeM K Unit)
          ((T.set n (.leaf parent next upper)).set p (.leaf parent next lower)) (.ok ())
          ((T.set n (.leaf parent next upper)).set p (.leaf parent next lower)) := by
        have := takesSetParent (S := (T.set n (.leaf parent next upper)).set p (.leaf parent next lower)) n parent
        rwa [setParentSelf (by rw [setNodeOther np,setNodeSelf]; rfl),
          setSelf rfl] at this
      have step₃ : Takes Sees (LeafIndexNodeHandler.setNextPage p n)
          ((T.set n (.leaf parent next upper)).set p (.leaf parent next lower)) (.ok ())
          ((T.set n (.leaf parent next upper)).set p (.leaf parent n lower)) := by
        have := takesSetNextPage n (setNodeSelf (T.set n (.leaf parent next upper)) p (.leaf parent next lower))
        rwa [setSet] at this
      -- from both branches on, with the entry in its half
      have rest : ∀ {lower' upper' : List (K × RID)}, lower' ++ upper' = below ++ (k,rid) :: above →
          natOf S.header.leafMaxSize / 2 ≤ lower'.length → natOf S.header.leafMaxSize / 2 ≤ upper'.length →
          Yields (do
            let first ← firstLeafKey n
            let fuel ← Prog.read fun s : Handler K => s.disk.file.pageCount
            insertEntryIntoParent ops fuel p n first)
            ((T.set n (.leaf parent next upper')).set p (.leaf parent n lower'))
            fun _ F => Settled F (fun item => item = (k,rid) ∨ Holds S.node lab item) ∧ F.disposed = [] := by
        intro lower' upper' same leftSize rightSize
        have total := congrArg length same
        simp only [length_append] at total full
        obtain _ | ⟨⟨k',rid'⟩,tail⟩ := upper'
        · simp only [length_nil] at rightSize
          omega
        simp only [length_cons] at rightSize total
        have pending := leafPending good clean fresh rid' atP leaf (same ▸ sorted') (same ▸ within')
          (by rintro rfl; simp only [length_nil] at leftSize; omega) leftSize (by omega) rightSize (by omega)
        have first : Takes Sees (firstLeafKey n)
            ((T.set n (.leaf parent next ((k',rid') :: tail))).set p (.leaf parent n lower')) (.ok k')
            ((T.set n (.leaf parent next ((k',rid') :: tail))).set p (.leaf parent n lower')) :=
          takesBind (takesLeafView ((setNodeOther np).trans (T.setNodeSelf n _))) takesPure
        refine yieldsAfter first (yieldsAfter takesPageCount ?_)
        refine yieldsWeaken (yieldsInsertIntoParent ordered pending (by simpa using pending.good.heightLt)) ?_
        rw [same]
        exact fun _ F done => ⟨done.1.congr holds',done.2⟩
      refine yieldsAfter (takesLeafView (setNodeSelf _ _ _)) ?_
      refine yieldsAfter step₁ (yieldsAfter step₂ (yieldsAfter step₃ ?_))
      rcases insertIntoPart (k,rid) parts with ⟨first,same⟩ | ⟨second,same⟩
      · rw [if_pos first]
        have inserted := takesLeafInsertItems ops [(k,rid)] below.length
          (setNodeSelf (T.set n (.leaf parent next upper)) p (.leaf parent n lower))
        rw [setSet] at inserted
        refine yieldsAfter inserted (rest same ?_ (by omega))
        simp only [recoverInsertItems,length_append,length_take,length_drop]
        omega
      · rw [if_neg second]
        have inserted := takesLeafInsertItems ops [(k,rid)] (below.length - lower.length)
          ((setNodeOther (S := T.set n (.leaf parent next upper)) (x := .leaf parent n lower) np).trans
            (T.setNodeSelf n _))
        rw [setComm np.symm,setSet] at inserted
        refine yieldsAfter inserted (rest same (by omega) ?_)
        simp only [recoverInsertItems,length_append,length_take,length_drop]
        omega
  · left
    refine ⟨⟨rid',p,_,atP,by rw [leaf]; simp [leafItems]⟩,fun s seen => ?_⟩
    have viewed : LeafIndexNodeHandler.view p s = (.ok (parent,next,below ++ (k,rid') :: above),s) := by
      have node : s.disk.node p = .leaf parent next (below ++ (k,rid') :: above) := by rw [seen.node,leaf]
      simp [LeafIndexNodeHandler.view,getNode,bindApply,node]
    rw [insertEntryIntoLeafNode,bindOk viewed]
    dsimp only
    rw [looked]
    rfl

/-! ### The call -/

omit [LinearOrder K] in
theorem yieldsEnsure {m} {item : MemoItem} (run : Yields m S post) :
    Yields (ensure m (dropHeld item)) S post := by
  have drop : ∀ {T : Store K} (s : Handler K), Sees s T → Sees (dropHeld item s) T :=
    fun _ h => ⟨h.faults,h.header,h.node,h.file,h.disposed⟩
  rcases run with ⟨T,full⟩ | ⟨a,T,run,ok⟩
  · exact .inl ⟨T,takesEnsure full drop⟩
  · exact .inr ⟨a,T,takesEnsure run drop,ok⟩

theorem yieldsCreateNewTree (vacant : Vacant S) (clean : S.disposed = []) (rid : RID) :
    Yields (createNewTree ops k rid) S fun _ T => Settled T (fun item => item = (k,rid)) ∧ T.disposed = [] := by
  refine yieldsAfter takesIsEmpty ?_
  rw [if_pos (by simpa using vacant.root)]
  refine yieldsBind (yieldsMemoAllocatePage vacant.file) fun n T fresh => ?_
  have inserted := takesLeafInsertItems ops [(k,rid)] 0 (T.setNodeSelf n (.leaf bpInvalidPageNum bpInvalidPageNum []))
  rw [setSet] at inserted
  have only : ∀ {x : PageNum} {label : Label K}, update (fun _ => none) n (some ⟨0,⊥,⊤⟩) x = some label → x = n := by
    intro x label found
    by_contra other
    rw [update_of_ne other] at found
    cases found
  refine yieldsOk (takesBind takesLeafInitEmpty (takesBind inserted (takesBind (takesUpdateRoot n)
    takesMarkDirty))) ⟨⟨_,0,⟨singleLeaf (p := n) [(k,rid)] (setNodeSelf ..)
      (pairwise_singleton ..) fresh.valid,?_,?_,fresh.file,?_,?_,?_⟩,?_⟩,fresh.disposed.trans clean⟩
  · intro x label found _
    obtain rfl := only found
    have six : 6 ≤ natOf T.header.leafMaxSize := fresh.header ▸ vacant.leafMax
    show SizeOk T.header x x ((T.set x _).node x)
    rw [setNodeSelf]
    simp only [SizeOk,fill,maxSize]
    exact ⟨le_refl _,(by omega : 1 ≤ natOf T.header.leafMaxSize)⟩
  · exact fun x label found => only found ▸ fresh.allocated
  · show ∀ x ∈ T.disposed, _
    rw [fresh.disposed,clean]
    simp
  · show 6 ≤ natOf T.header.leafMaxSize
    rw [fresh.header]
    exact vacant.leafMax
  · show 6 ≤ natOf T.header.internalMaxSize
    rw [fresh.header]
    exact vacant.internalMax
  · intro item
    have atN : ((T.set n (.leaf bpInvalidPageNum bpInvalidPageNum (recoverInsertItems 0 [(k,rid)] []))).setRoot
        n).node n = .leaf bpInvalidPageNum bpInvalidPageNum [(k,rid)] := setNodeSelf ..
    constructor
    · rintro ⟨x,label,found,inside⟩
      rw [only found,atN] at inside
      simpa [leafItems] using inside
    · rintro rfl
      exact ⟨n,_,update_self ..,by rw [atN]; simp [leafItems]⟩

theorem insertBody (ordered : ops.Ordered) {E} (content : Content S E) (clean : S.disposed = [])
    (k : K) (rid : RID) :
    ((∃ rid', E (k,rid')) ∧ StopsAt (insertEntryBody ops k rid) S .recordDuplicateKey) ∨
    ((∀ rid', ¬ E (k,rid')) ∧ Yields (insertEntryBody ops k rid) S fun _ T =>
      Content T (fun item => item = (k,rid) ∨ E item) ∧ T.disposed = []) := by
  rcases content with ⟨vacant,none⟩ | ⟨lab,height,good,holds⟩
  · right
    refine ⟨fun _ => none _,yieldsAfter takesIsEmpty ?_⟩
    rw [if_pos (by simpa using vacant.root)]
    refine yieldsAfter takesHold (yieldsWeaken (yieldsEnsure (yieldsCreateNewTree vacant clean rid)) ?_)
    exact fun _ T done => ⟨.inr (done.1.congr fun item => ⟨.inl,fun h => h.resolve_right (none item)⟩),done.2⟩
  · obtain ⟨p,low,high,atP,starts,ends,run⟩ := takesFindLeaf ordered good.tree good.heightLt .insert k
    have empty : ∀ s, Sees s S → (isEmpty s : Except Exit Bool × Handler K) = (.ok false,s) := by
      intro s seen
      simp [isEmpty,getHeader,bindApply,seen.header,good.notEmpty]
    rcases insertIntoLeaf ordered good clean atP starts ends rid with ⟨⟨rid',present⟩,stops⟩ | ⟨absent,yields⟩
    · left
      refine ⟨⟨rid',(holds _).mp present⟩,fun s seen => ?_⟩
      obtain ⟨value,seenT⟩ := run s seen
      refine ⟨(findLeaf ops .insert k s).2,?_,seenT,(keepsFindLeaf ops .insert k s ⟨rfl,rfl,rfl,rfl,rfl,rfl,rfl⟩).entries⟩
      rw [insertEntryBody,bindOk (empty s seen)]
      simp only [Bool.false_eq_true,if_false]
      rw [bindOk (Prod.ext value rfl),stops _ seenT]
    · right
      refine ⟨fun rid' inside => absent rid' ((holds _).mpr inside),yieldsAfter takesIsEmpty ?_⟩
      rw [if_neg (by simpa using good.notEmpty)]
      refine yieldsAfter run (yieldsWeaken yields ?_)
      rintro - T ⟨⟨labT,heightT,goodT,holdsT⟩,cleanT⟩
      exact ⟨.inr ⟨labT,heightT,goodT,fun item => (holdsT item).trans (or_congr_right (holds item))⟩,cleanT⟩

end
end MiniOb.BplusTree
