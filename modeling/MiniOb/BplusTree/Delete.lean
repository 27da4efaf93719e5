import MiniOb.BplusTree.Invariant

/-! `delete_entry`: an entry leaves its leaf, and a node that has become too small takes an
item from a sibling or is merged with it. -/
namespace MiniOb.BplusTree
open Prog PagedTree PagedTree.Bound Store Node List Function IndexFileHeader

variable {K : Type}

section
variable {α : Type} {S : Store K} {p parent next : PageNum}

theorem eraseSecond (before after : List α) (x y : α) :
    (before ++ x :: y :: after).eraseIdx (before.length + 1) = before ++ x :: after := by
  rw [eraseIdx_append_of_length_le (by omega)]
  simp

theorem takesFirstKeyLeaf {item items}
    (leaf : S.node p = .leaf parent next (item :: items)) : Takes Sees (firstKey p) S (.ok item.1) S := by
  refine takesBind (takesGetNode p) ?_
  rw [leaf]
  exact takesPure

theorem takesFirstKeyInternal {item items}
    (node : S.node p = .internal parent (item :: items)) : Takes Sees (firstKey p) S (.ok item.1) S := by
  refine takesBind (takesGetNode p) ?_
  rw [node]
  exact takesPure

theorem setSecond (before after : List α) (x y z : α) :
    (before ++ x :: y :: after).set (before.length + 1) z = before ++ x :: z :: after := by
  rw [set_append_right _ _ (by omega)]
  simp

theorem getSecond (before after : List α) (x y : α) : (before ++ x :: y :: after)[before.length + 1]? = some y := by
  rw [getElem?_append_right (by omega)]
  simp

theorem lastOfTwo {list : List α} (two : 2 ≤ list.length) : ∃ front last, list = front ++ [last] ∧ front ≠ [] := by
  refine ⟨list.dropLast,list.getLast ?_,(dropLast_append_getLast _).symm,?_⟩
  · rintro rfl
    simp at two
  · intro nil
    have := congrArg List.length nil
    simp only [length_dropLast,length_nil] at this
    omega

end

variable [LinearOrder K]

/-! ### Siblings -/

structure Siblings (S : Store K) (lab : PageNum → Option (Label K)) (height : Nat) (q l r : PageNum) (k : K)
    (level : Nat) (lo hi low high : Bound K) (parent : PageNum) (before : List (K × PageNum)) (kl : K)
    (after : List (K × PageNum)) : Prop where
  tree : Tree bpInvalidPageNum S.node lab S.header.rootPage height
  atQ : lab q = some ⟨level + 1,low,high⟩
  node : S.node q = .internal parent (before ++ (kl,l) :: (k,r) :: after)
  atL : lab l = some ⟨level,lo,key k⟩
  atR : lab r = some ⟨level,key k,hi⟩
  orderL : lo < key k
  orderR : key k < hi

section
variable {ops : KeyOps K} {S T : Store K} {V W : PageNum → IndexNode K} {lab : PageNum → Option (Label K)}
  {height level : Nat} {p q l r parent : PageNum} {k kl : K} {lo hi low high : Bound K}
  {before after : List (K × PageNum)}

variable (before) in
theorem siblingsOf (tree : Tree bpInvalidPageNum S.node lab S.header.rootPage height)
    (atQ : lab q = some ⟨level + 1,low,high⟩)
    (node : S.node q = .internal parent (before ++ (kl,l) :: (k,r) :: after)) :
    ∃ lo hi, Siblings S lab height q l r k level lo hi low high parent before kl after := by
  obtain ⟨lo,-,mid,orderL,atL,-,hi,orderR,atR,first,-⟩ := segAppend.mp (tree.segAt atQ node)
  have atKey : mid = key k := first.resolve_left fun bottom => by
    rw [bottom] at orderL
    exact absurd orderL not_lt_bot
  subst atKey
  exact ⟨lo,hi,tree,atQ,node,atL,atR,orderL,orderR⟩

variable {F : Store K} {next : PageNum} {items : List (K × RID)} {k' : K} {rid : RID}

theorem Good.recut {F : PageNum → IndexNode K} (good : Good S W lab height (fun x => x = q ∨ x = l))
    (cut : Cut W F q l r k) (atL : lab l = some ⟨level,lo,hi⟩) (atQ : lab q = some ⟨level + 1,low,high⟩)
    (fresh : lab r = none) (allocated : Allocated S.file r) (notGone : r ∉ S.disposed)
    (sizeL : HalfFull S.header (F l)) (sizeR : HalfFull S.header (F r))
    (sizeQ : SizeOk S.header S.header.rootPage q (F q)) :
    Good S F (cutLabels lab l r level lo hi k) height (fun _ => False) ∧
    ∀ item, Holds F (cutLabels lab l r level lo hi k) item ↔ Holds W lab item := by
  have tree := good.tree
  have pages := cutPages tree cut.child atL atQ fresh
  have rootR := (labelNe tree.rootLabel fresh).symm
  refine ⟨⟨cutTree tree cut atL atQ fresh (allocatedValid allocated),?_,?_,good.file,?_,good.leafMax,good.internalMax⟩,
    cutHolds tree cut atL atQ fresh⟩
  · intro x label found _
    rcases cutFound pages.pn found with ⟨rfl,-⟩ | ⟨rfl,-⟩ | ⟨isL,isR,kept⟩
    · exact sizeR.sizeOk rootR
    · exact sizeL.sizeOk pages.notRoot
    by_cases isQ : x = q
    · exact isQ ▸ sizeQ
    obtain ⟨_,body⟩ := cut.body isL isR isQ
    rw [body,sizeOkSetParent]
    exact good.sized x label kept fun h => h.elim isQ isL
  · intro x label found
    rcases cutFound pages.pn found with ⟨rfl,-⟩ | ⟨rfl,-⟩ | ⟨-,-,kept⟩
    · exact allocated
    · exact good.allocated l _ atL
    · exact good.allocated x label kept
  · intro x inside
    obtain ⟨none,two⟩ := good.gone x inside
    refine ⟨?_,two⟩
    have isR : x ≠ r := fun h => notGone (h ▸ inside)
    rw [cutLabelsSame (labelNe atL none).symm isR,none]

def kindAt (level : Nat) : NodeKind := if level = 0 then .leaf else .internal

section
variable (sib : Siblings S lab height q l r k level lo hi low high parent before kl after)
include sib

namespace Siblings

theorem pages : JoinPages lab S.node S.header.rootPage q l r level :=
  joinDistinct sib.tree (by simp [sib.node,children]) (by simp [sib.node,children]) sib.atQ rfl sib.atL
    sib.atR sib.orderL

theorem parentL : (S.node l).parent = q :=
  sib.tree.down q _ l sib.atQ (by simp [sib.node,children])

theorem parentR : (S.node r).parent = q :=
  sib.tree.down q _ r sib.atQ (by simp [sib.node,children])

theorem upL (c : PageNum) (inside : c ∈ (S.node l).children) : (S.node c).parent = l :=
  sib.tree.down l _ c sib.atL inside

theorem upR (c : PageNum) (inside : c ∈ (S.node r).children) : (S.node c).parent = r :=
  sib.tree.down r _ c sib.atR inside

theorem halves (someL : (S.node l).size ≠ 0) (someR : (S.node r).size ≠ 0) :
    (∃ next items items', level = 0 ∧ S.node l = .leaf q r items ∧ S.node r = .leaf q next items' ∧
      Halves r k (.leaf q next (items ++ items')) (S.node l) (S.node r)) ∨
    (∃ items items', level ≠ 0 ∧ S.node l = .internal q items ∧ S.node r = .internal q items' ∧
      Halves r k (.internal q (items ++ items')) (S.node l) (S.node r)) := by
  have okL := sib.tree.nodes l _ sib.atL
  have okR := sib.tree.nodes r _ sib.atR
  have parentL := sib.parentL
  have parentR := sib.parentR
  cases nodeL : S.node l with
  | leaf parent' next items =>
    left
    rw [nodeL] at okL someL parentL
    obtain ⟨zero,-,sorted,within,link⟩ := okL
    cases nodeR : S.node r with
    | internal parent'' items' =>
      rw [nodeR] at okR
      obtain ⟨-,lower,wrong,-⟩ := okR
      simp only at zero wrong
      omega
    | leaf parent'' next' items' =>
      rw [nodeR] at okR someR parentR
      obtain ⟨-,-,sorted',within',-⟩ := okR
      -- the leaf after `l` starts at `k`, and so does `r`
      have nextIsR : next = r := by
        rcases link with ⟨-,top⟩ | ⟨end',found⟩
        · exact absurd top (keyLtTop k).ne
        · have atR := sib.atR
          simp only at zero
          rw [zero] at atR
          exact sib.tree.unique found atR rfl
            ⟨le_refl _,nodeOkLt (sib.tree.nodes next _ found)⟩ ⟨le_refl _,sib.orderR⟩
      obtain rfl : parent' = q := parentL
      obtain rfl : parent'' = parent' := parentR
      subst nextIsR
      refine ⟨next',items,items',zero,rfl,rfl,.leaf ?_ ?_ ?_ ?_⟩
      · rintro rfl; exact someL rfl
      · rintro rfl; exact someR rfl
      · exact fun item inside => keyLt.mp (within item inside).2
      · exact fun item inside => keyLe.mp (within' item inside).1
  | internal parent' items =>
    right
    rw [nodeL] at okL someL parentL
    obtain ⟨someItems,lower,levelL,seg⟩ := okL
    cases nodeR : S.node r with
    | leaf parent'' next' items' =>
      rw [nodeR] at okR
      have wrong := okR.1
      simp only at levelL wrong
      omega
    | internal parent'' items' =>
      rw [nodeR] at okR someR parentR
      obtain ⟨someItems',lower',levelR,seg'⟩ := okR
      obtain rfl : parent' = q := parentL
      obtain rfl : parent'' = parent' := parentR
      refine ⟨items,items',by simp only at levelL; omega,rfl,rfl,?_⟩
      obtain _ | ⟨⟨k',c⟩,rest⟩ := items'
      · exact absurd rfl someItems'
      obtain ⟨-,-,-,first,-⟩ := segCons.mp seg'
      obtain rfl : k = k' := keyInj.mp (first.resolve_left (keyNeBot k))
      exact .internal someItems

theorem cut {whole} (halves : Halves r k whole (S.node l) (S.node r)) (parentWhole : whole.parent = q)
    (atL : W l = whole) (atQ : W q = .internal parent (before ++ (kl,l) :: after))
    (moved : ∀ c ∈ (S.node r).children, W c = (S.node c).setParent l)
    (same : ∀ c, c ≠ l → c ≠ r → c ≠ q → c ∉ (S.node r).children → W c = S.node c) :
    Cut W S.node q l r k := by
  refine ⟨atL ▸ halves,sib.parentL,sib.parentR,by rw [atL,parentWhole],⟨parent,before,kl,after,atQ,sib.node⟩,?_,?_⟩
  · intro c inside
    refine ⟨?_,moved c inside⟩
    rw [moved c inside,setParentTwice,setParentSelf (sib.tree.down r _ c sib.atR inside)]
  · exact fun c cl cr cq outside => (same c cl cr cq outside).symm

theorem join (good : Good S S.node lab height (· = p)) (here : p = l ∨ p = r) (cut : Cut W S.node q l r k) :
    Good S W (joinLabels lab l r level lo hi) height (fun x => x = q ∨ x = l) ∧
    ∀ item, Holds W (joinLabels lab l r level lo hi) item ↔ Holds S.node lab item := by
  refine ⟨⟨joinTree sib.tree cut sib.atQ sib.atL rfl sib.atR sib.orderL sib.orderR,?_,?_,good.file,?_,good.leafMax,
    good.internalMax⟩,joinHolds sib.tree cut sib.atQ sib.atL rfl sib.atR sib.orderL⟩
  · intro x label found other
    have isQ : x ≠ q := fun h => other (.inl h)
    have isL : x ≠ l := fun h => other (.inr h)
    have isR := labelNe found joinLabelsGone
    rw [joinLabelsSame isL isR] at found
    obtain ⟨_,body⟩ := cut.bodyWhole isL isR isQ
    rw [body,sizeOkSetParent]
    refine good.sized x label found ?_
    rintro rfl
    exact here.elim isL isR
  · intro x label found
    rcases joinFound sib.pages.pn found with ⟨rfl,-⟩ | ⟨-,-,kept⟩
    · exact good.allocated l _ sib.atL
    · exact good.allocated x label kept
  · intro x inside
    obtain ⟨none,two⟩ := good.gone x inside
    refine ⟨?_,two⟩
    by_cases isR : x = r
    · rw [isR,joinLabelsGone]
    rw [joinLabelsSame (labelNe sib.atL none).symm isR,none]

end Siblings

/-! ### Merging -/

variable (ops) in
theorem takesMerge (someL : (S.node l).size ≠ 0) (someR : (S.node r).size ≠ 0) :
    ∃ T, Takes Sees (mergeNodes ops (kindAt level) l r q (before.length + 1)) S (.ok ()) T ∧
      Cut T.node S.node q l r k ∧ T.header = S.header ∧ T.file = S.file ∧ T.disposed = S.disposed ++ [r] ∧
      (T.node l).isLeaf = (S.node l).isLeaf ∧ (T.node l).size = (S.node l).size + (S.node r).size ∧
      T.node q = .internal parent (before ++ (kl,l) :: after) := by
  have pages := sib.pages
  have removed := takesInternalRemove ops (before.length + 1) sib.node (by simp)
  rw [eraseSecond] at removed
  rcases sib.halves someL someR with
    ⟨next,items,items',zero,nodeL,nodeR,halves⟩ | ⟨items,items',some,nodeL,nodeR,halves⟩
  · have nodeL' : (S.set q (.internal parent (before ++ (kl,l) :: after))).node l = .leaf q r items := by
      rw [setNodeOther pages.pq,nodeL]
    have nodeR' : (S.set q (.internal parent (before ++ (kl,l) :: after))).node r = .leaf q next items' := by
      rw [setNodeOther pages.qn.symm,nodeR]
    have moved := takesLeafMoveTo ops nodeL' pages.pn.symm nodeR'
    generalize hU : ((S.set q (.internal parent (before ++ (kl,l) :: after))).set l
      (.leaf q next (items ++ items'))).set r (.leaf q next []) = U at moved
    have atL : U.node l = .leaf q next (items ++ items') := by
      rw [← hU,setNodeOther pages.pn,setNodeSelf]
    have atR : U.node r = .leaf q next [] := by rw [← hU,setNodeSelf]
    have atQ : U.node q = .internal parent (before ++ (kl,l) :: after) := by
      rw [← hU,setNodeOther pages.qn,setNodeOther pages.pq.symm,setNodeSelf]
    have linked := takesSetNextPage next atL
    rw [setSelf atL] at linked
    refine ⟨U.dispose r,takesBind removed ?_,?_,?_,?_,?_,?_,?_,atQ⟩
    · rw [kindAt,if_pos zero]
      exact takesBind moved (takesBind (takesLeafView atR) (takesBind linked (takesDisposePage r)))
    · refine sib.cut halves rfl atL atQ ?_ ?_
      · intro c inside
        simp [nodeR,children] at inside
      · intro c cl cr cq _
        show U.node c = _
        rw [← hU,setNodeOther cr,setNodeOther cl,setNodeOther cq]
    · rw [← hU]; rfl
    · rw [← hU]; rfl
    · rw [← hU]; rfl
    · show (U.node l).isLeaf = _
      rw [atL,nodeL]; rfl
    · show (U.node l).size = _
      rw [atL,nodeL,nodeR]
      simp [size]
  · have nodeL' : (S.set q (.internal parent (before ++ (kl,l) :: after))).node l = .internal q items := by
      rw [setNodeOther pages.pq,nodeL]
    have nodeR' : (S.set q (.internal parent (before ++ (kl,l) :: after))).node r = .internal q items' := by
      rw [setNodeOther pages.qn.symm,nodeR]
    have below : ∀ c ∈ items'.map Prod.snd, c ≠ l ∧ c ≠ r ∧ c ≠ q := by
      intro c inside
      obtain ⟨cl,cr,cq,-⟩ := pages.below c (.inr (by rw [nodeR]; exact inside))
      exact ⟨cl,cr,cq⟩
    have moved := takesInternalMoveTo ops nodeR' nodeL' pages.pn.symm fun inside => (below r inside).2.1 rfl
    generalize hU : (((S.set q (.internal parent (before ++ (kl,l) :: after))).set l
      (.internal q (items ++ items'))).adopt (items'.map Prod.snd) l).set r (.internal q []) = U at moved
    have atL : U.node l = .internal q (items ++ items') := by
      rw [← hU,setNodeOther pages.pn,adoptNodeOther fun inside => (below l inside).1 rfl,
        setNodeSelf]
    have atQ : U.node q = .internal parent (before ++ (kl,l) :: after) := by
      rw [← hU,setNodeOther pages.qn,adoptNodeOther fun inside => (below q inside).2.2 rfl,
        setNodeOther pages.pq.symm,setNodeSelf]
    refine ⟨U.dispose r,takesBind removed ?_,?_,?_,?_,?_,?_,?_,atQ⟩
    · rw [kindAt,if_neg some]
      exact takesBind moved (takesDisposePage r)
    · refine sib.cut halves rfl atL atQ ?_ ?_
      · intro c child
        have inside : c ∈ items'.map Prod.snd := by rwa [nodeR] at child
        obtain ⟨cl,cr,cq⟩ := below c inside
        show U.node c = _
        rw [← hU,setNodeOther cr,adoptNodeMember inside,setNodeOther cl,
          setNodeOther cq]
      · intro c cl cr cq stays
        have outside : c ∉ items'.map Prod.snd := by rwa [nodeR] at stays
        show U.node c = _
        rw [← hU,setNodeOther cr,adoptNodeOther outside,setNodeOther cl,
          setNodeOther cq]
    · rw [← hU]; rfl
    · rw [← hU]; rfl
    · rw [← hU]; rfl
    · show (U.node l).isLeaf = _
      rw [atL,nodeL]; rfl
    · show (U.node l).size = _
      rw [atL,nodeL,nodeR]
      simp [size]

/-! ### Redistribution -/

structure Regroup (S F : Store K) (W : PageNum → IndexNode K) (q l r : PageNum) (k : K) (parent : PageNum)
    (before : List (K × PageNum)) (kl : K) (after : List (K × PageNum)) : Prop where
  halves : Halves r k (W l) (F.node l) (F.node r)
  parentL : (F.node l).parent = q
  parentR : (F.node r).parent = q
  node : F.node q = .internal parent (before ++ (kl,l) :: (k,r) :: after)
  lower : ∀ c ∈ (F.node l).children, F.node c = (S.node c).setParent l
  upper : ∀ c ∈ (F.node r).children, F.node c = (S.node c).setParent r
  same : ∀ c, c ≠ l → c ≠ r → c ≠ q → c ∉ (F.node l).children → c ∉ (F.node r).children → F.node c = S.node c

theorem Regroup.cut (joined : Cut W S.node q l r k) (regroup : Regroup S F W q l r k' parent before kl after) :
    Cut W F.node q l r k' := by
  have pages := sib.pages
  have above : W q = .internal parent (before ++ (kl,l) :: after) := by
    obtain ⟨parent',before',kl',after',whole,split⟩ := joined.above
    have shape := sib.node.symm.trans split
    simp only [internal.injEq] at shape
    obtain ⟨rfl,shape⟩ := shape
    have seg := sib.tree.segAt sib.atQ sib.node
    have away := segNotAgain seg
    have away' := segNotAgain (shape ▸ seg)
    -- the page `l` stands in one place only
    obtain ⟨sameBefore,sameRest⟩ : before = before' ∧ (kl,l) :: (k,r) :: after = (kl',l) :: (k,r) :: after' := by
      rcases append_eq_append_iff.mp shape with ⟨rest,rfl,same⟩ | ⟨rest,rfl,same⟩
      · cases rest with
        | nil => exact ⟨by simp,by simpa using same⟩
        | cons item rest =>
          simp only [cons_append,List.cons.injEq] at same
          exact absurd (by simp [← same.1]) away'.1
      · cases rest with
        | nil => exact ⟨by simp,by simpa using same.symm⟩
        | cons item rest =>
          simp only [cons_append,List.cons.injEq] at same
          exact absurd (by simp [← same.1]) away.1
    simp only [List.cons.injEq,Prod.mk.injEq,and_true,true_and] at sameRest
    rw [whole,sameBefore,sameRest.1,sameRest.2]
  have wholeChild : ∀ c ∈ (W l).children, W c = (S.node c).setParent l ∧ c ≠ l ∧ c ≠ r ∧ c ≠ q := by
    intro c inside
    rw [joined.halves.children,mem_append] at inside
    obtain ⟨cl,cr,cq,-⟩ := pages.below c inside
    refine ⟨?_,cl,cr,cq⟩
    by_cases right : c ∈ (S.node r).children
    · exact (joined.moved c right).2
    · have left := inside.resolve_right right
      rw [← joined.same c cl cr cq right,setParentSelf (sib.tree.down l _ c sib.atL left)]
  refine ⟨regroup.halves,regroup.parentL,regroup.parentR,joined.parentWhole,
    ⟨parent,before,kl,after,above,regroup.node⟩,?_,?_⟩
  · intro c inside
    obtain ⟨atW,-⟩ := wholeChild c (by rw [regroup.halves.children]; exact mem_append_right _ inside)
    rw [regroup.upper c inside,atW,setParentTwice,setParentTwice]
    exact ⟨rfl,rfl⟩
  · intro c cl cr cq outside
    by_cases left : c ∈ (F.node l).children
    · obtain ⟨atW,-⟩ := wholeChild c (by rw [regroup.halves.children]; exact mem_append_left _ left)
      rw [regroup.lower c left,atW]
    · rw [regroup.same c cl cr cq left outside]
      refine joined.same c cl cr cq fun right => ?_
      have inside : c ∈ (W l).children := by
        rw [joined.halves.children]; exact mem_append_right _ right
      rw [regroup.halves.children] at inside
      exact (mem_append.mp inside).elim left outside

theorem regroupLeaf {items' lower upper}
    (nodeL : S.node l = .leaf q r items) (nodeR : S.node r = .leaf q next items')
    (parts : lower ++ (k',rid) :: upper = items ++ items') (some : lower ≠ [])
    (atL : F.node l = .leaf q r lower) (atR : F.node r = .leaf q next ((k',rid) :: upper))
    (atQ : F.node q = .internal parent (before ++ (kl,l) :: (k',r) :: after))
    (same : ∀ c, c ≠ l → c ≠ r → c ≠ q → F.node c = S.node c) (joined : Cut W S.node q l r k) :
    Regroup S F W q l r k' parent before kl after := by
  have sorted : Sorted (lower ++ (k',rid) :: upper) := by
    have okL := sib.tree.nodes l _ sib.atL
    have okR := sib.tree.nodes r _ sib.atR
    rw [nodeL] at okL
    rw [nodeR] at okR
    rw [parts]
    refine pairwise_append.mpr ⟨okL.2.2.1,okR.2.2.1,?_⟩
    intro a inA b inB
    exact keyLt.mp ((okL.2.2.2.1 a inA).2.trans_le (okR.2.2.2.1 b inB).1)
  have whole : W l = .leaf q next (items ++ items') := by
    have halves := joined.halves
    have parentW := joined.parentWhole
    rw [nodeL,nodeR] at halves
    cases shape : W l with
    | internal parent' all => rw [shape] at halves; cases halves
    | leaf parent' next' all =>
      rw [shape] at halves parentW
      cases halves
      obtain rfl : parent' = q := parentW
      rfl
  obtain ⟨-,sortedUpper,across⟩ := pairwise_append.mp sorted
  refine ⟨?_,by rw [atL]; rfl,by rw [atR]; rfl,atQ,?_,?_,fun c cl cr cq _ _ => same c cl cr cq⟩
  · rw [whole,atL,atR,← parts]
    refine .leaf some (by simp) (fun item inside => across item inside (k',rid) (by simp)) ?_
    intro item inside
    rcases mem_cons.mp inside with rfl | later
    · exact le_refl _
    · exact ((pairwise_cons.mp sortedUpper).1 item later).le
  · rw [atL]; simp [children]
  · rw [atR]; simp [children]

omit sib in
theorem regroupInternal {items items' lower upper c'}
    (nodeL : S.node l = .internal q items) (nodeR : S.node r = .internal q items')
    (parts : lower ++ (k',c') :: upper = items ++ items') (some : lower ≠ [])
    (atL : F.node l = .internal q lower) (atR : F.node r = .internal q ((k',c') :: upper))
    (atQ : F.node q = .internal parent (before ++ (kl,l) :: (k',r) :: after))
    (inL : ∀ c ∈ lower.map Prod.snd, F.node c = (S.node c).setParent l)
    (inR : ∀ c ∈ ((k',c') :: upper).map Prod.snd, F.node c = (S.node c).setParent r)
    (same : ∀ c, c ≠ l → c ≠ r → c ≠ q → c ∉ lower.map Prod.snd → c ∉ ((k',c') :: upper).map Prod.snd →
      F.node c = S.node c) (joined : Cut W S.node q l r k) :
    Regroup S F W q l r k' parent before kl after := by
  have whole : W l = .internal q (items ++ items') := by
    have halves := joined.halves
    have parentW := joined.parentWhole
    rw [nodeL,nodeR] at halves
    cases shape : W l with
    | leaf parent' next' all => rw [shape] at halves; cases halves
    | internal parent' all =>
      rw [shape] at halves parentW
      cases halves
      obtain rfl : parent' = q := parentW
      rfl
  refine ⟨?_,by rw [atL]; rfl,by rw [atR]; rfl,atQ,?_,?_,?_⟩
  · rw [whole,atL,atR,← parts]
    exact .internal some
  · rw [atL]; exact inL
  · rw [atR]; exact inR
  · rw [atL,atR]; exact same

structure Redistributed (S F : Store K) (q l r : PageNum) (k : K) (parent : PageNum) (before : List (K × PageNum))
    (kl : K) (after : List (K × PageNum)) (sizeL sizeR : Nat) : Prop where
  regroup : ∀ W, Cut W S.node q l r k → ∃ k', Regroup S F W q l r k' parent before kl after
  header : F.header = S.header
  file : F.file = S.file
  disposed : F.disposed = S.disposed
  leafL : (F.node l).isLeaf = (S.node l).isLeaf
  leafR : (F.node r).isLeaf = (S.node r).isLeaf
  sizeL : (F.node l).size = sizeL
  sizeR : (F.node r).size = sizeR

/-- An item has changed sides, and the new first key `k'` of `r` is still to be told to `q`. -/
structure ItemMoved (S U : Store K) (q l r : PageNum) (k' : K) (lower upper : IndexNode K) : Prop where
  atL : U.node l = lower
  atR : U.node r = upper
  atQ : U.node q = S.node q
  first : Takes Sees (firstKey r) U (.ok k') U
  header : U.header = S.header
  file : U.file = S.file
  disposed : U.disposed = S.disposed

variable (ops) in
theorem ItemMoved.redistributed {U lower upper} (moved : ItemMoved S U q l r k' lower upper)
    (leafL : lower.isLeaf = (S.node l).isLeaf) (leafR : upper.isLeaf = (S.node r).isLeaf)
    (regroup : ∀ {F : Store K} {W : PageNum → IndexNode K}, F.node l = lower → F.node r = upper →
      F.node q = .internal parent (before ++ (kl,l) :: (k',r) :: after) → (∀ c, c ≠ q → F.node c = U.node c) →
      Cut W S.node q l r k → Regroup S F W q l r k' parent before kl after) (x y z : PageNum) :
    ∃ F, Takes Sees (do
        let first ← firstKey r
        InternalIndexNodeHandler.setKeyAt ops q (before.length + 1) first
        markDirty x
        markDirty y
        markDirty z) U (.ok ()) F ∧ Redistributed S F q l r k parent before kl after lower.size upper.size := by
  have pages := sib.pages
  have keyed := takesSetKeyAt ops _ k' (moved.atQ.trans sib.node) (getSecond before after (kl,l) (k,r))
  rw [setSecond] at keyed
  obtain ⟨F,hF⟩ : ∃ F, U.set q (.internal parent (before ++ (kl,l) :: (k',r) :: after)) = F := ⟨_,rfl⟩
  have other : ∀ c, c ≠ q → F.node c = U.node c := fun c cq => hF ▸ setNodeOther cq
  have atL : F.node l = lower := (other l pages.pq).trans moved.atL
  have atR : F.node r = upper := (other r pages.qn.symm).trans moved.atR
  have atQ : F.node q = .internal parent (before ++ (kl,l) :: (k',r) :: after) := hF ▸ U.setNodeSelf ..
  refine ⟨F,?_,fun W joined => ⟨k',regroup atL atR atQ other joined⟩,hF ▸ moved.header,hF ▸ moved.file,
    hF ▸ moved.disposed,by rw [atL,leafL],by rw [atR,leafR],by rw [atL],by rw [atR]⟩
  exact takesBind moved.first (takesBind (hF ▸ keyed) (takesBind takesMarkDirty (takesBind takesMarkDirty
    takesMarkDirty)))

theorem regroupMoved {U F : Store K} {items items' lower upper}
    (nodeL : S.node l = .internal q items) (nodeR : S.node r = .internal q items')
    (parts : lower ++ (k',c') :: upper = items ++ items') (some : lower ≠ [])
    (item : U.node i = (S.node i).setParent new) (same : ∀ c, c ≠ l → c ≠ r → c ≠ i → U.node c = S.node c)
    (here : i ∈ (items ++ items').map Prod.snd)
    (inL : ∀ c ∈ lower.map Prod.snd, c = i ∧ new = l ∨ c ≠ i ∧ (S.node c).parent = l)
    (inR : ∀ c ∈ ((k',c') :: upper).map Prod.snd, c = i ∧ new = r ∨ c ≠ i ∧ (S.node c).parent = r)
    (atL : F.node l = .internal q lower) (atR : F.node r = .internal q ((k',c') :: upper))
    (atQ : F.node q = .internal parent (before ++ (kl,l) :: (k',r) :: after))
    (other : ∀ c, c ≠ q → F.node c = U.node c) (joined : Cut W S.node q l r k) :
    Regroup S F W q l r k' parent before kl after := by
  have children : ∀ c, c ∈ lower.map Prod.snd ∨ c ∈ ((k',c') :: upper).map Prod.snd → c ≠ l ∧ c ≠ r ∧ c ≠ q := by
    intro c inside
    have inside : c ∈ (items ++ items').map Prod.snd := by
      rw [← parts,map_append]
      exact mem_append.mpr inside
    rw [map_append] at inside
    obtain ⟨cl,cr,cq,-⟩ := sib.pages.below c (by rw [nodeL,nodeR]; exact mem_append.mp inside)
    exact ⟨cl,cr,cq⟩
  have placed : ∀ {c side}, c ≠ l ∧ c ≠ r ∧ c ≠ q → c = i ∧ new = side ∨ c ≠ i ∧ (S.node c).parent = side →
      F.node c = (S.node c).setParent side := by
    rintro c side ⟨cl,cr,cq⟩ (⟨rfl,rfl⟩ | ⟨ci,up⟩)
    · rw [other c cq,item]
    · rw [other c cq,same c cl cr ci,setParentSelf up]
  refine regroupInternal nodeL nodeR parts some atL atR atQ (fun c inside => placed (children c (.inl inside)) (inL c inside))
    (fun c inside => placed (children c (.inr inside)) (inR c inside)) ?_ joined
  intro c cl cr cq outside outside'
  refine (other c cq).trans (same c cl cr ?_)
  rintro rfl
  rw [← parts,map_append] at here
  exact (mem_append.mp here).elim outside outside'

omit sib in
variable (ops) in
theorem takesRedistributeFirst (sib : Siblings S lab height q l r k level lo hi low high parent [] kl after)
    (someL : (S.node l).size ≠ 0) (two : 2 ≤ (S.node r).size) :
    ∃ F, Takes Sees (redistribute ops (kindAt level) r l q 0) S (.ok ()) F ∧
      Redistributed S F q l r k parent [] kl after ((S.node l).size + 1) ((S.node r).size - 1) := by
  have pages := sib.pages
  rcases sib.halves someL (by omega) with
    ⟨next,items,items',zero,nodeL,nodeR,-⟩ | ⟨items,items',some,nodeL,nodeR,-⟩
  · rw [nodeR] at two
    obtain _ | ⟨item,_ | ⟨⟨k',rid⟩,upper⟩⟩ := items'
    · simp [size] at two
    · simp [size] at two
    have run := takesLeafMoveFirstToEnd ops nodeL pages.pn.symm nodeR
    generalize hU : (S.set l (.leaf q r (items ++ [item]))).set r (.leaf q next ((k',rid) :: upper)) = U at run
    have atR : U.node r = .leaf q next ((k',rid) :: upper) := hU ▸ setNodeSelf ..
    have same : ∀ c, c ≠ l → c ≠ r → U.node c = S.node c := by
      intro c cl cr
      rw [← hU,setNodeOther cr,setNodeOther cl]
    have moved : ItemMoved S U q l r k' (.leaf q r (items ++ [item])) (.leaf q next ((k',rid) :: upper)) := by
      refine ⟨?_,atR,same q pages.pq.symm pages.qn,takesFirstKeyLeaf atR,hU ▸ rfl,hU ▸ rfl,hU ▸ rfl⟩
      rw [← hU,setNodeOther pages.pn,setNodeSelf]
    obtain ⟨F,told,done⟩ := moved.redistributed ops sib (by rw [nodeL]; rfl) (by rw [nodeR]; rfl)
      (fun atL atR atQ other => regroupLeaf sib nodeL nodeR (by simp) (by simp) atL atR atQ
        fun c cl cr cq => (other c cq).trans (same c cl cr)) r l q
    refine ⟨F,?_,by rw [nodeL,nodeR]; simpa [size] using done⟩
    rw [redistribute,kindAt,if_pos zero,if_pos rfl]
    exact takesBind (takesIgnore run) told
  · rw [nodeR] at two
    have upL := sib.upL
    have upR := sib.upR
    have below := pages.below
    rw [nodeL] at upL below
    rw [nodeR] at upR below
    obtain _ | ⟨item,_ | ⟨⟨k',c'⟩,upper⟩⟩ := items'
    · simp [size] at two
    · simp [size] at two
    obtain ⟨il,ir,iq,-⟩ := below item.2 (.inr (by simp [children]))
    have run := takesInternalMoveFirstToEnd ops nodeR nodeL pages.pn.symm ir.symm
    generalize hU : ((S.set l (.internal q (items ++ [item]))).adopt [item.2] l).set r
      (.internal q ((k',c') :: upper)) = U at run
    have atR : U.node r = .internal q ((k',c') :: upper) := hU ▸ setNodeSelf ..
    have same : ∀ c, c ≠ l → c ≠ r → c ≠ item.2 → U.node c = S.node c := by
      intro c cl cr ci
      rw [← hU,setNodeOther cr,adoptNodeOther (by simpa using ci),setNodeOther cl]
    have moved : ItemMoved S U q l r k' (.internal q (items ++ [item])) (.internal q ((k',c') :: upper)) := by
      refine ⟨?_,atR,same q pages.pq.symm pages.qn iq.symm,takesFirstKeyInternal atR,hU ▸ rfl,hU ▸ rfl,hU ▸ rfl⟩
      rw [← hU,setNodeOther pages.pn,adoptNodeOther (by simpa using il.symm),setNodeSelf]
    have inItem : U.node item.2 = (S.node item.2).setParent l := by
      rw [← hU,setNodeOther ir,adoptNodeMember (by simp),setNodeOther il]
    obtain ⟨F,told,done⟩ := moved.redistributed ops sib (by rw [nodeL]; rfl) (by rw [nodeR]; rfl)
      (regroupMoved sib nodeL nodeR (by simp) (by simp) inItem same (by simp) (by
        intro c inside
        simp only [map_append,map_cons,map_nil,mem_append,mem_singleton] at inside
        rcases inside with old | rfl
        · refine .inr ⟨?_,upL c old⟩
          rintro rfl
          exact pages.pn ((upL _ old).symm.trans (upR _ (by simp [children])))
        · exact .inl ⟨rfl,rfl⟩) (by
        intro c inside
        refine .inr ⟨?_,upR c (mem_cons_of_mem _ inside)⟩
        rintro rfl
        have okR := sib.tree.nodes r _ sib.atR
        rw [nodeR] at okR
        obtain ⟨-,_,-,seg⟩ := okR
        exact (segNotAgain (k := item.1) (c := item.2) (show Seg _ _ _ ([] ++ _) _ from seg)).2 inside)) r l q
    refine ⟨F,?_,by rw [nodeL,nodeR]; simpa [size] using done⟩
    rw [redistribute,kindAt,if_neg some,if_pos rfl]
    exact takesBind (takesIgnore run) told

variable (ops) in
theorem takesRedistributeLast (two : 2 ≤ (S.node l).size) (someR : (S.node r).size ≠ 0) :
    ∃ F, Takes Sees (redistribute ops (kindAt level) l r q (before.length + 1)) S (.ok ()) F ∧
      Redistributed S F q l r k parent before kl after ((S.node l).size - 1) ((S.node r).size + 1) := by
  have pages := sib.pages
  rcases sib.halves (by omega) someR with
    ⟨next,items,items',zero,nodeL,nodeR,-⟩ | ⟨items,items',some,nodeL,nodeR,-⟩
  · rw [nodeL] at two
    obtain ⟨lower,⟨k',rid⟩,rfl,someLower⟩ := lastOfTwo two
    have run := takesLeafMoveLastToFront ops nodeR pages.pn nodeL
    generalize hU : (S.set r (.leaf q next ((k',rid) :: items'))).set l (.leaf q r lower) = U at run
    have atR : U.node r = .leaf q next ((k',rid) :: items') := by
      rw [← hU,setNodeOther pages.pn.symm,setNodeSelf]
    have same : ∀ c, c ≠ l → c ≠ r → U.node c = S.node c := by
      intro c cl cr
      rw [← hU,setNodeOther cl,setNodeOther cr]
    have moved : ItemMoved S U q l r k' (.leaf q r lower) (.leaf q next ((k',rid) :: items')) :=
      ⟨hU ▸ setNodeSelf ..,atR,same q pages.pq.symm pages.qn,takesFirstKeyLeaf atR,hU ▸ rfl,hU ▸ rfl,hU ▸ rfl⟩
    obtain ⟨F,told,done⟩ := moved.redistributed ops sib (by rw [nodeL]; rfl) (by rw [nodeR]; rfl)
      (fun atL atR atQ other => regroupLeaf sib nodeL nodeR (by simp) someLower atL atR atQ
        fun c cl cr cq => (other c cq).trans (same c cl cr)) l r q
    refine ⟨F,?_,by rw [nodeL,nodeR]; simpa [size] using done⟩
    rw [redistribute,kindAt,if_pos zero,if_neg (Nat.succ_ne_zero _)]
    exact takesBind (takesIgnore run) told
  · rw [nodeL] at two
    have upL := sib.upL
    have upR := sib.upR
    have below := pages.below
    rw [nodeL] at upL below
    rw [nodeR] at upR below
    obtain ⟨lower,⟨k',i⟩,rfl,someLower⟩ := lastOfTwo two
    obtain ⟨il,ir,iq,-⟩ := below i (.inl (by simp [children]))
    have run := takesInternalMoveLastToFront ops nodeL nodeR pages.pn il.symm
    generalize hU : ((S.set r (.internal q ((k',i) :: items'))).adopt [(k',i).2] r).set l
      (.internal q lower) = U at run
    have atR : U.node r = .internal q ((k',i) :: items') := by
      rw [← hU,setNodeOther pages.pn.symm,adoptNodeOther (by simpa using ir.symm),setNodeSelf]
    have same : ∀ c, c ≠ l → c ≠ r → c ≠ i → U.node c = S.node c := by
      intro c cl cr ci
      rw [← hU,setNodeOther cl,adoptNodeOther (by simpa using ci),setNodeOther cr]
    have moved : ItemMoved S U q l r k' (.internal q lower) (.internal q ((k',i) :: items')) :=
      ⟨hU ▸ setNodeSelf ..,atR,same q pages.pq.symm pages.qn iq.symm,takesFirstKeyInternal atR,hU ▸ rfl,hU ▸ rfl,
        hU ▸ rfl⟩
    have inItem : U.node i = (S.node i).setParent r := by
      rw [← hU,setNodeOther il,adoptNodeMember (by simp),setNodeOther ir]
    obtain ⟨F,told,done⟩ := moved.redistributed ops sib (by rw [nodeL]; rfl) (by rw [nodeR]; rfl)
      (regroupMoved sib nodeL nodeR (by simp) someLower inItem same (by simp) (by
        intro c inside
        refine .inr ⟨?_,upL c (by simp [children,mem_map.mp inside])⟩
        rintro rfl
        have okL := sib.tree.nodes l _ sib.atL
        rw [nodeL] at okL
        obtain ⟨-,_,-,seg⟩ := okL
        exact (segNotAgain seg).1 inside) (by
        intro c inside
        rw [map_cons,mem_cons] at inside
        rcases inside with rfl | old
        · exact .inl ⟨rfl,rfl⟩
        · refine .inr ⟨?_,upR c old⟩
          rintro rfl
          exact pages.pn ((upL _ (by simp [children])).symm.trans (upR _ old)))) l r q
    refine ⟨F,?_,by rw [nodeL,nodeR]; simpa [size] using done⟩
    rw [redistribute,kindAt,if_neg some,if_neg (Nat.succ_ne_zero _)]
    exact takesBind (takesIgnore run) told

theorem Redistributed.settled {sizeL sizeR} (good : Good S S.node lab height (· = p)) (here : p = l ∨ p = r)
    (someL : (S.node l).size ≠ 0) (someR : (S.node r).size ≠ 0)
    (done : Redistributed S F q l r k parent before kl after sizeL sizeR)
    (okL : S.header.maxSize (S.node l) / 2 ≤ sizeL ∧ sizeL ≤ S.header.maxSize (S.node l))
    (okR : S.header.maxSize (S.node r) / 2 ≤ sizeR ∧ sizeR ≤ S.header.maxSize (S.node r)) :
    Settled F (Holds S.node lab) := by
  obtain ⟨T,-,joined,-⟩ := takesMerge ⟨fun _ _ => 0,0,fun _ => [],fun _ => k⟩ sib someL someR
  obtain ⟨k',regroup⟩ := done.regroup T.node joined
  have pages := sib.pages
  obtain ⟨goodW,holdsW⟩ := sib.join good here joined
  have notGone : r ∉ S.disposed := fun gone => labelNe sib.atR (good.gone r gone).1 rfl
  have sameMax : ∀ {x y : IndexNode K}, x.isLeaf = y.isLeaf → S.header.maxSize x = S.header.maxSize y := by
    intro x y same
    simp only [maxSize,same]
  have sizedQ : SizeOk S.header S.header.rootPage q (F.node q) := by
    have sized := good.sized q _ sib.atQ (by rintro rfl; exact here.elim pages.pq.symm pages.qn)
    have sameSize : (F.node q).size = (S.node q).size := by
      rw [sib.node,regroup.node]
      simp only [size,length_append,length_cons]
    have sameLeaf : (F.node q).isLeaf = (S.node q).isLeaf := by
      rw [sib.node,regroup.node]
      rfl
    rw [SizeOk,fill,maxSize,sameSize,sameLeaf]
    exact sized
  obtain ⟨goodF,holdsF⟩ := goodW.recut (regroup.cut sib joined) (joinLabelsWhole pages.pn)
    ((joinLabelsSame pages.pq.symm pages.qn).trans sib.atQ) joinLabelsGone (good.allocated r _ sib.atR) notGone
    (by rw [HalfFull,sameMax done.leafL,done.sizeL]; exact okL)
    (by rw [HalfFull,sameMax done.leafR,done.sizeR]; exact okR) sizedQ
  exact ⟨_,height,goodF.transfer done.header done.file done.disposed,fun item => (holdsF item).trans (holdsW item)⟩

theorem Siblings.sameMax (someL : (S.node l).size ≠ 0) (someR : (S.node r).size ≠ 0) :
    S.header.maxSize (S.node l) = S.header.maxSize (S.node r) := by
  rcases sib.halves someL someR with ⟨_,_,_,-,nodeL,nodeR,-⟩ | ⟨_,_,-,nodeL,nodeR,-⟩ <;> rw [nodeL,nodeR] <;> rfl

variable (ops) in
theorem mergeStep (good : Good S S.node lab height (· = p)) (here : p = l ∨ p = r)
    (someL : (S.node l).size ≠ 0) (someR : (S.node r).size ≠ 0)
    (least : S.header.maxSize (S.node l) / 2 ≤ (S.node l).size + (S.node r).size)
    (most : (S.node l).size + (S.node r).size ≤ S.header.maxSize (S.node l)) :
    ∃ T, Takes Sees (mergeNodes ops (kindAt level) l r q (before.length + 1)) S (.ok ()) T ∧
      Good T T.node (joinLabels lab l r level lo hi) height (· = q) ∧
      (∀ item, Holds T.node (joinLabels lab l r level lo hi) item ↔ Holds S.node lab item) ∧
      joinLabels lab l r level lo hi q = some ⟨level + 1,low,high⟩ ∧ T.header = S.header ∧
      T.node q = .internal parent (before ++ (kl,l) :: after) := by
  obtain ⟨T,run,cut,header,file,disposed,leafL,sizeL,nodeQ⟩ := takesMerge ops sib someL someR
  obtain ⟨joined,holds⟩ := sib.join good here cut
  have pages := sib.pages
  refine ⟨T,run,⟨?_,?_,?_,?_,?_,?_,?_⟩,holds,(joinLabelsSame pages.pq.symm pages.qn).trans sib.atQ,header,nodeQ⟩
  · rw [header]; exact joined.tree
  · intro x label found isQ
    rw [header]
    by_cases isL : x = l
    · subst isL
      refine HalfFull.sizeOk ?_ pages.rootP.symm
      have sameMax : S.header.maxSize (T.node x) = S.header.maxSize (S.node x) := by
        simp only [maxSize,leafL]
      rw [HalfFull,sameMax,sizeL]
      exact ⟨least,most⟩
    · exact joined.sized x label found (by rintro (h | h); exacts [isQ h,isL h])
  · rw [file]; exact joined.allocated
  · rw [file]; exact joined.file
  · rw [disposed]
    intro x inside
    rcases mem_append.mp inside with old | new
    · exact joined.gone x old
    · rw [mem_singleton.mp new]
      exact ⟨joinLabelsGone,(good.allocated r _ sib.atR).1⟩
  · rw [header]; exact good.leafMax
  · rw [header]; exact good.internalMax

end

/-! ### The root -/

theorem takesAdjustRoot (good : Good S S.node lab height (· = p)) (isRoot : p = S.header.rootPage)
    (small : (S.node p).size ≤ 1) (hasChild : (S.node p).isLeaf = false → (S.node p).size ≠ 0) :
    ∃ T, Takes Sees (adjustRoot p) S (.ok ()) T ∧ Content T (Holds S.node lab) := by
  have tree := good.tree
  rw [← isRoot] at tree
  have okP := tree.nodes p _ tree.rootLabel
  have allocated := good.allocated p _ tree.rootLabel
  cases node : S.node p with
  | leaf parent next items =>
    rw [node] at okP small
    have zero : height = 0 := okP.1
    cases items with
    | cons item rest =>
      refine ⟨S,takesBind (takesGetNode p) ?_,.inr ⟨lab,height,good.unexempt fun label _ => ?_,fun _ => Iff.rfl⟩⟩
      · rw [node]
        exact takesMarkDirty
      · have six := good.leafMax
        rw [node]
        simp only [size,length_cons] at small
        simp only [SizeOk,fill,isRoot,if_true,isLeaf,size,maxSize,length_cons]
        omega
    | nil =>
      refine ⟨(S.setRoot bpInvalidPageNum).dispose p,takesBind (takesGetNode p) ?_,.inl ⟨⟨rfl,good.file,?_,good.leafMax,
        good.internalMax⟩,?_⟩⟩
      · rw [node]
        exact takesBind (takesUpdateRoot _) (takesDisposePage p)
      · intro x inside
        rcases mem_append.mp inside with old | new
        · exact (good.gone x old).2
        · exact mem_singleton.mp new ▸ allocated.1
      · rintro item ⟨x,label,found,inside⟩
        have low := tree.bounded x label found
        have same := tree.topIsRoot found (by omega)
        rw [same,node] at inside
        simp [leafItems] at inside
  | internal parent items =>
    rw [node] at okP small hasChild
    have single : ∃ z c, items = [(z,c)] := by
      have notNone := hasChild rfl
      obtain _ | ⟨⟨z,c⟩,_ | ⟨_,_⟩⟩ := items
      · exact absurd rfl notNone
      · exact ⟨z,c,rfl⟩
      · simp [size] at small
    obtain ⟨z,c,rfl⟩ := single
    obtain ⟨-,lower,levelP,-⟩ := okP
    obtain rfl : height = lower + 1 := levelP
    have shrunk := shrinkRoot tree node
    have old : ∀ {x : PageNum} {label : Label K}, update lab p none x = some label →
        x ≠ p ∧ lab x = some label := by
      intro x label found
      by_cases isP : x = p
      · rw [isP,update_self] at found; cases found
      · rw [update_of_ne isP] at found
        exact ⟨isP,found⟩
    have items : ∀ x, (update S.node c ((S.node c).setParent bpInvalidPageNum) x).leafItems =
        (S.node x).leafItems := by
      intro x
      by_cases isC : x = c
      · rw [isC,update_self,leafItemsSetParent]
      · rw [update_of_ne isC]
    refine ⟨((S.set c ((S.node c).setParent bpInvalidPageNum)).setRoot c).dispose p,takesBind (takesGetNode p) ?_,
      .inr ⟨_,lower,⟨shrunk,?_,?_,good.file,?_,good.leafMax,good.internalMax⟩,?_⟩⟩
    · rw [node]
      exact takesBind (takesValueAt rfl) (takesBind (takesGetPage c) (takesBind (takesSetParent _ _)
        (takesBind (takesUpdateRoot c) (takesDisposePage p))))
    · intro x label found _
      obtain ⟨isP,found⟩ := old found
      have sized := good.sized x label found isP
      rw [SizeOk,fill,← isRoot,if_neg isP] at sized
      have six := good.maxSize (S.node x)
      show SizeOk S.header c x (update S.node c ((S.node c).setParent bpInvalidPageNum) x)
      by_cases isC : x = c
      · subst isC
        rw [update_self,sizeOkSetParent,SizeOk,fill,if_pos rfl]
        refine ⟨?_,sized.2⟩
        split <;> omega
      · rw [update_of_ne isC,SizeOk,fill,if_neg isC]
        exact sized
    · intro x label found
      exact good.allocated x label (old found).2
    · intro x inside
      rcases mem_append.mp inside with before | new
      · obtain ⟨none,two⟩ := good.gone x before
        refine ⟨?_,two⟩
        by_cases isP : x = p
        · rw [isP,update_self]
        · rw [update_of_ne isP,none]
      · rw [mem_singleton.mp new]
        exact ⟨update_self ..,allocated.1⟩
    · intro item
      constructor
      · rintro ⟨x,label,found,inside⟩
        exact ⟨x,label,(old found).2,items x ▸ inside⟩
      · rintro ⟨x,label,found,inside⟩
        have isP : x ≠ p := by
          rintro rfl
          rw [node] at inside
          simp [leafItems] at inside
        exact ⟨x,label,by rw [update_of_ne isP,found],(items x).symm ▸ inside⟩

/-! ### Too small a node -/

theorem takesLastKey (tree : Tree bpInvalidPageNum S.node lab S.header.rootPage height)
    (atP : lab p = some ⟨level,lo,hi⟩) (two : 2 ≤ (S.node p).size) :
    ∃ last, Takes Sees (lastKey p) S (.ok last) S ∧ lo ≤ key last ∧ key last < hi := by
  have ok := tree.nodes p _ atP
  cases node : S.node p with
  | leaf parent next items =>
    rw [node] at ok two
    obtain ⟨-,-,-,within,-⟩ := ok
    cases last : items.getLast? with
    | none =>
      rw [getLast?_eq_none_iff.mp last] at two
      simp [size] at two
    | some item =>
      refine ⟨item.1,takesBind (takesGetNode p) ?_,within item (mem_of_getLast? last)⟩
      rw [node]
      dsimp only
      rw [last]
      exact takesPure
  | internal parent items =>
    rw [node] at ok two
    obtain ⟨-,lower,-,seg⟩ := ok
    obtain ⟨front,⟨last,c⟩,rfl,someFront⟩ := lastOfTwo two
    obtain ⟨mid,left,top,order,-,first,right⟩ := segAppend.mp seg
    have below := segLt left someFront
    obtain rfl : mid = key last := first.resolve_left fun bottom => by
      rw [bottom] at below
      exact absurd below not_lt_bot
    refine ⟨last,takesBind (takesGetNode p) ?_,below.le,order.trans_le (segLe right)⟩
    rw [node]
    dsimp only
    rw [getLast?_append_cons,getLast?_singleton]
    exact takesPure

structure Short (S : Store K) (lab : PageNum → Option (Label K)) (height : Nat) (p : PageNum) (level : Nat)
    (lo hi : Bound K) : Prop where
  good : Good S S.node lab height (· = p)
  atP : lab p = some ⟨level,lo,hi⟩
  most : (S.node p).size ≤ S.header.maxSize (S.node p)
  least : p ≠ S.header.rootPage → S.header.maxSize (S.node p) / 2 ≤ (S.node p).size + 1
  child : (S.node p).isLeaf = false → (S.node p).size ≠ 0

theorem Short.content (short : Short S lab height p level lo hi)
    (full : S.header.minSize (S.node p) ≤ (S.node p).size) : Content S (Holds S.node lab) := by
  have six := short.good.maxSize (S.node p)
  refine .inr ⟨lab,height,short.good.unexempt fun _ _ => ⟨?_,short.most⟩,fun _ => Iff.rfl⟩
  unfold minSize at full
  unfold fill
  split
  · split <;> omega
  · omega

theorem siblingSizes {m n max} (six : 6 ≤ max) (few : m < max - max / 2) (least : max / 2 ≤ m + 1)
    (half : max / 2 ≤ n) (most : n ≤ max) :
    m ≠ 0 ∧ 2 ≤ n ∧ max / 2 ≤ m + n ∧ (max < m + n → max / 2 ≤ m + 1 ∧ m + 1 ≤ max ∧ max / 2 ≤ n - 1 ∧ n - 1 ≤ max) := by
  omega

theorem Short.parentOf (short : Short S lab height p level lo hi) (notRoot : p ≠ S.header.rootPage) :
    ∃ low high parent before kp after, lab (S.node p).parent = some ⟨level + 1,low,high⟩ ∧
      S.node (S.node p).parent = .internal parent (before ++ (kp,p) :: after) ∧ (before = [] → after ≠ []) := by
  have tree := short.good.tree
  obtain ⟨⟨levelQ,low,high⟩,atQ,levelP,child⟩ := tree.up p _ short.atP notRoot
  subst levelP
  have notP : (S.node p).parent ≠ p := by
    intro same
    rw [same,short.atP] at atQ
    simp only [Option.some.injEq,Label.mk.injEq] at atQ
    omega
  have sized := short.good.sized _ _ atQ notP
  have six := short.good.maxSize (S.node (S.node p).parent)
  cases node : S.node (S.node p).parent with
  | leaf _ _ _ => simp [node,children] at child
  | internal parent items =>
    rw [node] at child sized six
    obtain ⟨⟨kp,c⟩,inside,same⟩ := mem_map.mp child
    obtain ⟨before,after,rfl⟩ := append_of_mem inside
    subst same
    refine ⟨low,high,parent,before,kp,after,atQ,rfl,?_⟩
    rintro rfl rfl
    have two : 2 ≤ fill S.header S.header.rootPage (S.node c).parent (.internal parent [(kp,c)]) := by
      unfold fill
      split
      · simp [isLeaf]
      · rw [maxSizeInternal] at six ⊢
        omega
    have few := two.trans sized.1
    simp [size] at few

variable (ops) in
theorem Short.merge (sib : Siblings S lab height q l r k level lo hi low high parent before kl after)
    (good : Good S S.node lab height (· = p)) (here : p = l ∨ p = r)
    (someL : (S.node l).size ≠ 0) (someR : (S.node r).size ≠ 0)
    (least : S.header.maxSize (S.node l) / 2 ≤ (S.node l).size + (S.node r).size)
    (most : (S.node l).size + (S.node r).size ≤ S.header.maxSize (S.node l)) :
    ∃ T lab', Takes Sees (mergeNodes ops (kindAt level) l r q (before.length + 1)) S (.ok ()) T ∧
      Short T lab' height q (level + 1) low high ∧ ∀ item, Holds T.node lab' item ↔ Holds S.node lab item := by
  obtain ⟨T,run,goodT,holds,atQ,header,nodeQ⟩ := mergeStep ops sib good here someL someR least most
  have pages := sib.pages
  have sized := good.sized q _ sib.atQ (by rintro rfl; exact here.elim pages.pq.symm pages.qn)
  rw [sib.node] at sized
  refine ⟨T,_,run,⟨goodT,atQ,?_,?_,?_⟩,holds⟩
  · have := sized.2
    rw [nodeQ,header]
    simp only [size,maxSizeInternal,length_append,length_cons] at this ⊢
    omega
  · intro notRoot
    rw [header] at notRoot
    have := sized.1
    rw [fill,if_neg notRoot] at this
    rw [nodeQ,header]
    simp only [size,maxSizeInternal,length_append,length_cons] at this ⊢
    omega
  · rw [nodeQ]
    simp [size]

theorem Short.sibling (short : Short S lab height p level lo hi) {c label}
    (found : lab c = some label) (notP : c ≠ p) (notRoot : c ≠ S.header.rootPage) :
    HalfFull S.header (S.node c) ∧ (S.node c).size ≠ 0 := by
  have sized := short.good.sized c label found notP
  have six := short.good.maxSize (S.node c)
  rw [SizeOk,fill,if_neg notRoot] at sized
  exact ⟨sized,by omega⟩

section
variable {fuel : Nat} (short : Short S lab height p level lo hi) (notRoot : p ≠ S.header.rootPage)
  (few : (S.node p).size < S.header.maxSize (S.node p) - S.header.maxSize (S.node p) / 2)
  (above : ∀ {T : Store K} {lab' : PageNum → Option (Label K)}, Short T lab' height q (level + 1) low high →
    ∃ U, Takes Sees (coalesceOrRedistribute ops fuel .internal q) T (.ok ()) U ∧ Content U (Holds T.node lab'))
include short notRoot few above

theorem Short.withRight {kp} (atQ : lab q = some ⟨level + 1,low,high⟩)
    (node : S.node q = .internal parent ((kp,p) :: (k,r) :: after)) :
    ∃ T, Takes Sees (if S.header.maxSize (S.node p) < (S.node p).size + (S.node r).size then
        redistribute ops (kindAt level) r p q 0
      else do
        mergeNodes ops (kindAt level) p r q 1
        coalesceOrRedistribute ops fuel .internal q) S (.ok ()) T ∧ Content T (Holds S.node lab) := by
  have good := short.good
  have six := good.maxSize (S.node p)
  obtain ⟨lo',hi',sib⟩ := siblingsOf [] good.tree atQ node
  have pages := sib.pages
  obtain ⟨half,someR⟩ := short.sibling sib.atR pages.pn.symm pages.rootN.symm
  have least := short.least notRoot
  have someP : (S.node p).size ≠ 0 := by omega
  have sameMax := sib.sameMax someP someR
  rw [HalfFull,← sameMax] at half
  obtain ⟨-,twoR,enough,moved⟩ := siblingSizes six few least half.1 half.2
  split
  · rename_i much
    obtain ⟨F,run,done⟩ := takesRedistributeFirst ops sib someP twoR
    obtain ⟨leastP,mostP,leastR,mostR⟩ := moved much
    exact ⟨F,run,.inr (done.settled sib good (.inl rfl) someP someR ⟨leastP,mostP⟩ (sameMax ▸ ⟨leastR,mostR⟩))⟩
  · obtain ⟨T,lab',run,shortT,holds⟩ := Short.merge ops sib good (.inl rfl) someP someR enough (by omega)
    obtain ⟨U,runU,content⟩ := above shortT
    exact ⟨U,takesBind run runU,content.congr holds⟩

theorem Short.withLeft (atQ : lab q = some ⟨level + 1,low,high⟩)
    (node : S.node q = .internal parent (before ++ (kl,l) :: (k,p) :: after)) :
    ∃ T, Takes Sees (if S.header.maxSize (S.node p) < (S.node p).size + (S.node l).size then
        redistribute ops (kindAt level) l p q (before.length + 1)
      else do
        mergeNodes ops (kindAt level) l p q (before.length + 1)
        coalesceOrRedistribute ops fuel .internal q) S (.ok ()) T ∧ Content T (Holds S.node lab) := by
  have good := short.good
  have six := good.maxSize (S.node p)
  obtain ⟨lo',hi',sib⟩ := siblingsOf _ good.tree atQ node
  have pages := sib.pages
  obtain ⟨half,someL⟩ := short.sibling sib.atL pages.pn pages.rootP.symm
  have least := short.least notRoot
  have someP : (S.node p).size ≠ 0 := by omega
  have sameMax := sib.sameMax someL someP
  rw [HalfFull,sameMax] at half
  obtain ⟨-,twoL,enough,moved⟩ := siblingSizes six few least half.1 half.2
  split
  · rename_i much
    obtain ⟨F,run,done⟩ := takesRedistributeLast ops sib twoL someP
    obtain ⟨leastP,mostP,leastL,mostL⟩ := moved much
    exact ⟨F,run,.inr (done.settled sib good (.inr rfl) someL someP (sameMax ▸ ⟨leastL,mostL⟩) ⟨leastP,mostP⟩)⟩
  · obtain ⟨T,lab',run,shortT,holds⟩ := Short.merge ops sib good (.inr rfl) someL someP
      (by rw [sameMax]; omega) (by omega)
    obtain ⟨U,runU,content⟩ := above shortT
    exact ⟨U,takesBind run runU,content.congr holds⟩

end

theorem takesCoalesce (ordered : ops.Ordered) : ∀ (fuel : Nat) {S : Store K} {lab : PageNum → Option (Label K)}
    {p : PageNum} {level : Nat} {lo hi : Bound K}, Short S lab height p level lo hi → height < level + fuel →
    ∃ T, Takes Sees (coalesceOrRedistribute ops fuel (kindAt level) p) S (.ok ()) T ∧ Content T (Holds S.node lab) := by
  intro fuel
  induction fuel with
  | zero =>
    intro S lab p level lo hi short enough
    have := short.good.tree.bounded p _ short.atP
    simp only at this
    omega
  | succ fuel ih =>
    intro S lab p level lo hi short enough
    have good := short.good
    have tree := good.tree
    have six := good.maxSize (S.node p)
    suffices next : ∃ T, Takes Sees (coalesceOrRedistribute ops (fuel + 1) (kindAt level) p) S (.ok ()) T ∧
        Content T (Holds S.node lab) from next
    by_cases full : S.header.minSize (S.node p) ≤ (S.node p).size
    · refine ⟨S,takesBind takesGetHeader (takesBind (takesGetNode p) ?_),short.content full⟩
      rw [if_pos full]
      exact takesPure
    by_cases isRoot : p = S.header.rootPage
    · have top : (S.node p).parent = bpInvalidPageNum := isRoot ▸ tree.rootParent
      by_cases many : 1 < (S.node p).size
      · refine ⟨S,takesBind takesGetHeader (takesBind (takesGetNode p) ?_),
          .inr ⟨lab,height,good.unexempt fun _ _ => ⟨?_,short.most⟩,fun _ => Iff.rfl⟩⟩
        · rw [if_neg full,if_pos top,if_pos many]
          exact takesPure
        · rw [fill,if_pos isRoot]
          split <;> omega
      · obtain ⟨T,run,content⟩ := takesAdjustRoot good isRoot (by omega) short.child
        refine ⟨T,takesBind takesGetHeader (takesBind (takesGetNode p) ?_),content⟩
        rw [if_neg full,if_pos top,if_neg many]
        exact takesIgnore run
    obtain ⟨low,high,parent,before,kp,after,atQ,nodeQ,siblings⟩ := short.parentOf isRoot
    have inner : ¬ (S.node p).parent = bpInvalidPageNum := fun h => isRoot (tree.rootOfNil short.atP h)
    obtain ⟨q,isParent⟩ : ∃ q, (S.node p).parent = q := ⟨_,rfl⟩
    rw [isParent] at atQ nodeQ inner
    have two : 2 ≤ (S.node p).size := by
      have := short.least isRoot
      omega
    obtain ⟨last,lastRun,starts,ends⟩ := takesLastKey tree short.atP two
    have index := (segLookup ordered (tree.segAt atQ nodeQ) short.atP starts ends).1
    have atIndex : (before ++ (kp,p) :: after)[before.length]? = some (kp,p) := by simp
    -- up to the sibling the run only reads
    have opens : ∀ {k : K} {c : PageNum} {T : Store K},
        (before ++ (kp,p) :: after)[if before.length = 0 then 1 else before.length - 1]? = some (k,c) →
        Takes Sees (if S.header.maxSize (S.node p) < (S.node p).size + (S.node c).size then
            redistribute ops (kindAt level) c p q before.length
          else if before.length = 0 then do
            mergeNodes ops (kindAt level) p c q 1
            coalesceOrRedistribute ops fuel .internal q
          else do
            mergeNodes ops (kindAt level) c p q before.length
            coalesceOrRedistribute ops fuel .internal q) S (.ok ()) T →
        Takes Sees (coalesceOrRedistribute ops (fuel + 1) (kindAt level) p) S (.ok ()) T := by
      intro k c T sibling rest
      refine takesBind takesGetHeader (takesBind (takesGetNode p) ?_)
      rw [if_neg full,if_neg (isParent ▸ inner),isParent]
      refine takesBind (takesGetPage q) (takesBind (takesInternalView nodeQ) (takesBind lastRun ?_))
      rw [index]
      exact takesBind (takesValueAt atIndex) (takesBind (takesAssert rfl)
        (takesBind (takesValueAt sibling) (takesBind (takesGetPage c) (takesBind takesLatch
          (takesBind (takesGetNode c) rest)))))
    have few : (S.node p).size < S.header.maxSize (S.node p) - S.header.maxSize (S.node p) / 2 := by
      unfold minSize at full
      omega
    have above : ∀ {T : Store K} {lab' : PageNum → Option (Label K)}, Short T lab' height q (level + 1) low high →
        ∃ U, Takes Sees (coalesceOrRedistribute ops fuel .internal q) T (.ok ()) U ∧ Content U (Holds T.node lab') := by
      intro T lab' shortT
      have := ih shortT (by omega)
      rwa [kindAt,if_neg (Nat.succ_ne_zero _)] at this
    rcases eq_nil_or_concat before with rfl | ⟨front,⟨kl,l⟩,rfl⟩
    · obtain ⟨⟨kr,r⟩,rest,rfl⟩ := exists_cons_of_ne_nil (siblings rfl)
      obtain ⟨T,run,content⟩ := short.withRight isRoot few above atQ nodeQ
      exact ⟨T,opens (c := r) rfl run,content⟩
    · rw [concat_eq_append,append_assoc,singleton_append] at nodeQ
      obtain ⟨T,run,content⟩ := short.withLeft isRoot few above atQ nodeQ
      refine ⟨T,opens (k := kl) (c := l) (by simp) ?_,content⟩
      rw [if_neg (by simp : ¬ (front.concat (kl,l)).length = 0),length_concat]
      exact run

/-! ### The call -/

omit [LinearOrder K] in
theorem viewLeaf {s} (seen : Sees s S)
    (leaf : S.node p = .leaf parent next items) : LeafIndexNodeHandler.view p s = (.ok (parent,next,items),s) := by
  have node : s.disk.node p = .leaf parent next items := by rw [seen.node,leaf]
  simp [LeafIndexNodeHandler.view,getNode,bindApply,node]

theorem sortedErase {below above} (sorted : Sorted (below ++ (k,rid) :: above))
    (item : K × RID) : item ∈ below ++ above ↔ item.1 ≠ k ∧ item ∈ below ++ (k,rid) :: above := by
  obtain ⟨-,sortedAbove,across⟩ := pairwise_append.mp sorted
  have greater := (pairwise_cons.mp sortedAbove).1
  simp only [mem_append,mem_cons]
  constructor
  · rintro (h | h)
    · exact ⟨(across item h (k,rid) (by simp)).ne,.inl h⟩
    · exact ⟨(greater item h).ne',.inr (.inr h)⟩
  · rintro ⟨other,h | rfl | h⟩
    · exact .inl h
    · exact absurd rfl other
    · exact .inr h

theorem deleteFromLeaf (ordered : ops.Ordered) (good : Good S S.node lab height (fun _ => False))
    (atP : lab p = some ⟨0,lo,hi⟩) (starts : lo ≤ key k) (ends : key k < hi) :
    ((∀ rid, ¬ Holds S.node lab (k,rid)) ∧ ∀ s, Sees s S →
      deleteEntryInternal ops p k s = (.error (.rc .recordNotExist),s)) ∨
    ((∃ rid, Holds S.node lab (k,rid)) ∧ ∃ T, Takes Sees (deleteEntryInternal ops p k) S (.ok ()) T ∧
      Content T (fun item => item.1 ≠ k ∧ Holds S.node lab item)) := by
  have tree := good.tree
  have sizeP := good.sized p _ atP id
  obtain ⟨parent,next,items,leaf,sorted,within,-⟩ := tree.leafNode atP
  rw [leaf] at sizeP
  rcases leafLookup (ordered.at k) (fun _ _ => trivial) sorted with
    ⟨below,above,rfl,less,greater,looked⟩ | ⟨below,rid,above,rfl,looked⟩
  · left
    refine ⟨fun rid holds => ?_,fun s seen => ?_⟩
    · have inside := tree.holdsAt atP rfl ⟨starts,ends⟩ holds
      rw [leaf] at inside
      rcases mem_append.mp inside with h | h
      · exact lt_irrefl _ (less _ h)
      · exact lt_irrefl _ (greater _ h)
    · rw [deleteEntryInternal,bindOk (viewLeaf seen leaf)]
      dsimp only
      rw [looked]
      rfl
  · right
    refine ⟨⟨rid,p,_,atP,by rw [leaf]; simp [leafItems]⟩,?_⟩
    have removed := takesLeafRemove ops below.length leaf (by simp)
    rw [show (below ++ (k,rid) :: above).eraseIdx below.length = below ++ above by
      rw [eraseIdx_append_of_length_le (le_refl _)]; simp] at removed
    have smaller := sortedErase sorted
    have goodT : Good (S.set p (.leaf parent next (below ++ above)))
        (S.set p (.leaf parent next (below ++ above))).node lab height (· = p) := by
      have sub : (below ++ above).Sublist (below ++ (k,rid) :: above) :=
        (append_sublist_append_left below).mpr (sublist_cons_self _ _)
      have := good.setItems (below ++ above) atP leaf (sorted.sublist sub)
        fun item inside => within item ((smaller item).mp inside).2
      simp only [or_false] at this
      exact this.transfer rfl rfl rfl
    have holdsT : ∀ item, Holds (S.set p (.leaf parent next (below ++ above))).node lab item ↔
        item.1 ≠ k ∧ Holds S.node lab item := by
      intro item
      refine (holdsSetItems tree atP leaf item).trans ?_
      constructor
      · rintro (inside | ⟨outside,holds⟩)
        · exact ⟨((smaller item).mp inside).1,p,_,atP,by rw [leaf]; exact ((smaller item).mp inside).2⟩
        · refine ⟨?_,holds⟩
          rintro rfl
          have inside := tree.holdsAt atP rfl ⟨starts,ends⟩ (k := item.1) (v := item.2) holds
          rw [leaf] at inside
          exact outside inside
      · rintro ⟨other,holds⟩
        by_cases inside : item ∈ below ++ (k,rid) :: above
        · exact .inl ((smaller item).mpr ⟨other,inside⟩)
        · exact .inr ⟨inside,holds⟩
    obtain ⟨U,hU⟩ : ∃ U, S.set p (.leaf parent next (below ++ above)) = U := ⟨_,rfl⟩
    have header : U.header = S.header := hU ▸ rfl
    have count : U.file.pageCount = S.file.pageCount := hU ▸ rfl
    have node : U.node p = .leaf parent next (below ++ above) := hU ▸ S.setNodeSelf ..
    rw [hU] at removed goodT holdsT
    have short : Short U lab height p 0 lo hi := by
      refine ⟨goodT,atP,?_,?_,?_⟩
      · have := sizeP.2
        rw [node,header]
        simp only [size,maxSizeLeaf,length_append,length_cons] at this ⊢
        omega
      · intro notRoot
        have := sizeP.1
        rw [fill,if_neg (header ▸ notRoot)] at this
        rw [node,header]
        simp only [size,maxSizeLeaf,length_append,length_cons] at this ⊢
        omega
      · rw [node]
        simp [isLeaf]
    have opens : ∀ {T : Store K}, Takes Sees (if U.header.minSize (U.node p) ≤ (U.node p).size then pure () else do
        let fuel ← read fun s => s.disk.file.pageCount
        coalesceOrRedistribute ops fuel .leaf p) U (.ok ()) T →
        Takes Sees (deleteEntryInternal ops p k) S (.ok ()) T := by
      intro T rest
      refine takesBind (takesLeafView leaf) ?_
      dsimp only
      rw [looked]
      exact takesBind removed (takesBind takesMarkDirty (takesBind takesGetHeader
        (takesBind (takesGetNode p) rest)))
    by_cases full : U.header.minSize (U.node p) ≤ (U.node p).size
    · refine ⟨U,opens ?_,(short.content full).congr holdsT⟩
      rw [if_pos full]
      exact takesPure
    · obtain ⟨T,run,content⟩ := takesCoalesce ordered U.file.pageCount short (by
        have := good.heightLt
        omega)
      refine ⟨T,opens ?_,content.congr holdsT⟩
      rw [if_neg full]
      exact takesBind takesPageCount run

theorem deleteBody (ordered : ops.Ordered) {E} (content : Content S E) (k : K) :
    ((∀ rid, ¬ E (k,rid)) ∧ StopsAt (deleteEntryBody ops k) S .recordNotExist) ∨
    ((∃ rid, E (k,rid)) ∧ ∃ T, Takes Sees (deleteEntryBody ops k) S (.ok ()) T ∧
      Content T (fun item => item.1 ≠ k ∧ E item)) := by
  have keeps := fun s : Handler K => (keepsFindLeaf ops .delete k s ⟨rfl,rfl,rfl,rfl,rfl,rfl,rfl⟩).entries
  rcases content with ⟨vacant,none⟩ | ⟨lab,height,good,holds⟩
  · left
    refine ⟨fun rid => none _,fun s seen => ?_⟩
    have run : Takes Sees (findLeaf ops .delete k) S (.error (.rc .empty)) S := by
      refine takesBind takesLatch (takesBind takesIsEmpty ?_)
      rw [if_pos (by simpa using vacant.root)]
      exact takesExit
    obtain ⟨value,seenT⟩ := run s seen
    refine ⟨(findLeaf ops .delete k s).2,?_,seenT,keeps s⟩
    rw [deleteEntryBody,← Prod.eta (findLeaf ops .delete k s),value]
  · obtain ⟨p,low,high,atP,starts,ends,run⟩ := takesFindLeaf ordered good.tree good.heightLt .delete k
    rcases deleteFromLeaf ordered good atP starts ends with ⟨absent,stops⟩ | ⟨⟨rid,present⟩,T,rest,content⟩
    · left
      refine ⟨fun rid inside => absent rid ((holds _).mpr inside),fun s seen => ?_⟩
      obtain ⟨value,seenT⟩ := run s seen
      refine ⟨(findLeaf ops .delete k s).2,?_,seenT,keeps s⟩
      rw [deleteEntryBody,← Prod.eta (findLeaf ops .delete k s),value]
      exact stops _ seenT
    · right
      refine ⟨⟨rid,(holds _).mp present⟩,T,fun s seen => ?_,
        content.congr fun item => and_congr_right fun _ => holds item⟩
      obtain ⟨value,seenT⟩ := run s seen
      rw [deleteEntryBody,← Prod.eta (findLeaf ops .delete k s),value]
      exact rest _ seenT

end
end MiniOb.BplusTree
