import MiniOb.Lib.PagedTree.Basic

/-! Changes of a paged tree that keep it a tree: other items in one leaf, a node cut into
two and two nodes joined into one below the same parent, and a root added or taken away. -/
namespace MiniOb.PagedTree
open MiniOb.PagedTree.Bound List Option Node Function
open Function (update_of_ne update_self update)

variable {P K V : Type} [LinearOrder K]

/-! ### One node in two halves -/

/-- `left` and `right` together hold what `whole` holds, parted at the key `k`; `n` is the
page of `right`. Parents are left open. -/
inductive Halves (n : P) (k : K) : Node P K V → Node P K V → Node P K V → Prop where
  | leaf {parent parent' parent'' next : P} {before after : List (K × V)}
      (someBefore : before ≠ []) (someAfter : after ≠ [])
      (below : ∀ item ∈ before, item.1 < k) (above : ∀ item ∈ after, k ≤ item.1) :
      Halves n k (.leaf parent next (before ++ after)) (.leaf parent' n before) (.leaf parent'' next after)
  | internal {parent parent' parent'' c : P} {before after : List (K × P)} (someBefore : before ≠ []) :
      Halves n k (.internal parent (before ++ (k,c) :: after)) (.internal parent' before)
        (.internal parent'' ((k,c) :: after))

section
variable {nil n : P} {k : K} {whole left right : Node P K V} {lab lab' : P → Option (Label K)}
  {level : Nat} {lo hi : Bound K}

section
variable (halves : Halves n k whole left right)
include halves

theorem Halves.children : whole.children = left.children ++ right.children := by
  cases halves <;> simp [children]

theorem Halves.leafItems : whole.leafItems = left.leafItems ++ right.leafItems := by
  cases halves <;> simp [leafItems]

theorem halvesBetween (ok : NodeOk nil lab ⟨level,lo,hi⟩ whole) : lo < key k ∧ key k < hi := by
  cases halves with
  | @leaf parent parent' parent'' after before behind someBefore someAfter below above =>
    obtain ⟨-,-,-,within,-⟩ := ok
    obtain ⟨first,firstIn⟩ := exists_mem_of_ne_nil _ someBefore
    obtain ⟨last,lastIn⟩ := exists_mem_of_ne_nil _ someAfter
    exact ⟨(within first (by simp [firstIn])).1.trans_lt (keyLt.mpr (below first firstIn)),
      (keyLe.mpr (above last lastIn)).trans_lt (within last (by simp [lastIn])).2⟩
  | @internal parent parent' parent'' c before after someBefore =>
    obtain ⟨-,lower,-,seg⟩ := ok
    refine segTail seg (k,c) ?_
    rw [tail_append_of_ne_nil someBefore]
    simp

theorem halvesNodes (ok : NodeOk nil lab ⟨level,lo,hi⟩ whole) (same : ∀ c ∈ whole.children, lab' c = lab c)
    (next : ∀ c low high, lab c = some ⟨0,low,high⟩ → ∃ after, lab' c = some ⟨0,low,after⟩)
    (new : lab' n = some ⟨level,key k,hi⟩) :
    NodeOk nil lab' ⟨level,lo,key k⟩ left ∧ NodeOk nil lab' ⟨level,key k,hi⟩ right := by
  have between := halvesBetween halves ok
  cases halves with
  | @leaf parent parent' parent'' after before behind someBefore someAfter below above =>
    obtain ⟨zero,lt,sorted,within,link⟩ := ok
    obtain ⟨sortedBefore,sortedAfter,-⟩ := pairwise_append.mp sorted
    subst zero
    constructor
    · refine ⟨rfl,between.1,sortedBefore,?_,.inr ⟨hi,new⟩⟩
      intro item inside
      exact ⟨(within item (by simp [inside])).1,keyLt.mpr (below item inside)⟩
    · refine ⟨rfl,between.2,sortedAfter,?_,?_⟩
      · intro item inside
        exact ⟨keyLe.mpr (above item inside),(within item (by simp [inside])).2⟩
      · rcases link with end' | ⟨high,found⟩
        · exact .inl end'
        · exact .inr (next _ _ _ found)
  | @internal parent parent' parent'' c before after someBefore =>
    obtain ⟨-,lower,eq,seg⟩ := ok
    obtain ⟨mid,first,second⟩ := segAppend.mp (segCongr same seg)
    have above := segLt first someBefore
    have atKey : mid = key k := by
      obtain ⟨-,-,-,bottom | same,-⟩ := segCons.mp second
      · rw [bottom] at above
        exact absurd above not_lt_bot
      · exact same
    subst atKey
    exact ⟨⟨someBefore,lower,eq,first⟩,⟨by simp,lower,eq,second⟩⟩

theorem Halves.setParents (q r s : P) : Halves n k (whole.setParent q) (left.setParent r) (right.setParent s) := by
  cases halves with
  | leaf someBefore someAfter below above => exact .leaf someBefore someAfter below above
  | internal someBefore => exact .internal someBefore

theorem Halves.setParentRight (q : P) : Halves n k whole left (right.setParent q) := by
  have := halves.setParents whole.parent left.parent q
  rwa [setParentSelf rfl,setParentSelf rfl] at this

theorem halvesWhole (okLeft : NodeOk nil lab ⟨level,lo,key k⟩ left) (okRight : NodeOk nil lab ⟨level,key k,hi⟩ right)
    (same : ∀ c ∈ whole.children, lab' c = lab c)
    (next : ∀ c high, lab c = some ⟨0,hi,high⟩ → ∃ after, lab' c = some ⟨0,hi,after⟩) :
    NodeOk nil lab' ⟨level,lo,hi⟩ whole := by
  cases halves with
  | @leaf parent parent' parent'' after before behind someBefore someAfter below above =>
    obtain ⟨zero,lt,sorted,within,-⟩ := okLeft
    obtain ⟨-,lt',sorted',within',link⟩ := okRight
    refine ⟨zero,lt.trans lt',?_,?_,?_⟩
    · refine pairwise_append.mpr ⟨sorted,sorted',?_⟩
      intro a inA b inB
      exact (below a inA).trans_le (above b inB)
    · intro item inside
      rcases mem_append.mp inside with inA | inB
      · exact ⟨(within item inA).1,(within item inA).2.trans lt'⟩
      · exact ⟨lt.le.trans (within' item inB).1,(within' item inB).2⟩
    · rcases link with end' | ⟨high,found⟩
      · exact .inl end'
      · exact .inr (next _ _ found)
  | @internal parent parent' parent'' c before after someBefore =>
    obtain ⟨-,lower,eq,seg⟩ := okLeft
    obtain ⟨-,lower',eq',seg'⟩ := okRight
    obtain rfl : lower = lower' := by simp only at eq eq'; omega
    exact ⟨by simp,lower,eq,segCongr same (segAppend.mpr ⟨key k,seg,seg'⟩)⟩

end

end

/-- `split` is `whole` with the page `p` cut at `k`: its upper half is on the page `n`, which
stands after `p` among the children of `q`. -/
structure Cut (whole split : P → Node P K V) (q p n : P) (k : K) : Prop where
  halves : Halves n k (whole p) (split p) (split n)
  parentLeft : (split p).parent = q
  parentRight : (split n).parent = q
  parentWhole : (whole p).parent = q
  above : ∃ parent before kp after, whole q = .internal parent (before ++ (kp,p) :: after) ∧
    split q = .internal parent (before ++ (kp,p) :: (k,n) :: after)
  moved : ∀ c ∈ (split n).children, split c = (whole c).setParent n ∧ whole c = (split c).setParent p
  same : ∀ c, c ≠ p → c ≠ n → c ≠ q → c ∉ (split n).children → split c = whole c

/-! ### Cutting -/

section
variable {P K : Type} [DecidableEq P] {lab : P → Option (Label K)} {p n : P} {k : K} {level : Nat} {lo hi : Bound K}

def cutLabels (lab : P → Option (Label K)) (p n : P) (level : Nat) (lo hi : Bound K) (k : K) : P → Option (Label K) :=
  update (update lab p (some ⟨level,lo,key k⟩)) n (some ⟨level,key k,hi⟩)

theorem cutLabelsNew : cutLabels lab p n level lo hi k n = some ⟨level,key k,hi⟩ := by
  simp [cutLabels]

theorem cutLabelsOld (different : p ≠ n) : cutLabels lab p n level lo hi k p = some ⟨level,lo,key k⟩ := by
  simp [cutLabels,update_of_ne different]

theorem cutLabelsSame (notP : c ≠ p) (notN : c ≠ n) : cutLabels lab p n level lo hi k c = lab c := by
  simp [cutLabels,update_of_ne notP,update_of_ne notN]

theorem cutFound (different : p ≠ n) (found : cutLabels lab p n level lo hi k c = some label) :
    n = c ∧ ⟨level,key k,hi⟩ = label ∨ p = c ∧ ⟨level,lo,key k⟩ = label ∨ c ≠ p ∧ c ≠ n ∧ lab c = some label := by
  by_cases isN : c = n
  · subst isN
    exact .inl ⟨rfl,some.inj (cutLabelsNew.symm.trans found)⟩
  by_cases isP : c = p
  · subst isP
    exact .inr (.inl ⟨rfl,some.inj ((cutLabelsOld different).symm.trans found)⟩)
  · exact .inr (.inr ⟨isP,isN,(cutLabelsSame isP isN).symm.trans found⟩)

end

section
variable {nil : P} {whole split : P → Node P K V} {lab : P → Option (Label K)} {root q p n : P} {k : K}
  {height level : Nat} {lo hi : Bound K} {above : Label K}

theorem Cut.movedChild (cut : Cut whole split q p n k) (inside : c ∈ (split n).children) :
    c ∈ (whole p).children := by
  rw [cut.halves.children]
  exact mem_append_right _ inside

theorem Cut.child (cut : Cut whole split q p n k) : p ∈ (whole q).children := by
  obtain ⟨parent,before,kp,after,same,-⟩ := cut.above
  simp [same,children]

theorem Cut.body (cut : Cut whole split q p n k) (notP : c ≠ p) (notN : c ≠ n) (notQ : c ≠ q) :
    ∃ parent, split c = (whole c).setParent parent := by
  by_cases inside : c ∈ (split n).children
  · exact ⟨n,(cut.moved c inside).1⟩
  · exact ⟨(whole c).parent,by rw [cut.same c notP notN notQ inside,setParentSelf rfl]⟩

theorem Cut.leafItems (cut : Cut whole split q p n k) (notP : c ≠ p) (notN : c ≠ n) :
    (split c).leafItems = (whole c).leafItems := by
  by_cases isQ : c = q
  · obtain ⟨parent,before,kp,after,old,new⟩ := cut.above
    rw [isQ,old,new]
    rfl
  · obtain ⟨_,same⟩ := cut.body notP notN isQ
    rw [same,leafItemsSetParent]

theorem Cut.members (cut : Cut whole split q p n k) (notP : c ≠ p) (notN : c ≠ n) (other : d ≠ n) :
    d ∈ (split c).children ↔ d ∈ (whole c).children := by
  by_cases isQ : c = q
  · obtain ⟨parent,before,kp,after,old,new⟩ := cut.above
    rw [isQ,old,new]
    simp [children,other]
  · obtain ⟨_,same⟩ := cut.body notP notN isQ
    rw [same,childrenSetParent]

theorem Cut.parent (cut : Cut whole split q p n k) (notP : c ≠ p) (notN : c ≠ n) (stays : c ∉ (split n).children) :
    (split c).parent = (whole c).parent := by
  by_cases isQ : c = q
  · obtain ⟨parent,before,kp,after,old,new⟩ := cut.above
    rw [isQ,old,new]
    rfl
  · rw [cut.same c notP notN isQ stays]

structure CutPages (lab : P → Option (Label K)) (whole : P → Node P K V) (root q p n : P)
    (level : Nat) (above : Label K) : Prop where
  pn : p ≠ n
  qn : q ≠ n
  pq : p ≠ q
  notRoot : p ≠ root
  levelQ : above.level = level + 1
  moved : ∀ c ∈ (whole p).children, c ≠ p ∧ c ≠ n ∧ c ≠ q ∧ c ≠ root ∧
    ∃ label, lab c = some label ∧ level = label.level + 1

theorem cutPages (tree : Tree nil whole lab root height) (child : p ∈ (whole q).children)
    (atP : lab p = some ⟨level,lo,hi⟩) (atQ : lab q = some above) (fresh : lab n = none) :
    CutPages lab whole root q p n level above := by
  obtain ⟨below,low,high,found,levelQ,-⟩ := tree.childLabel atQ child
  cases some.inj (found.symm.trans atP)
  refine ⟨labelNe atP fresh,labelNe atQ fresh,levelNe atP atQ (by simp only; omega),tree.childNotRoot atQ child,levelQ,?_⟩
  intro c child
  obtain ⟨lower,low',high',foundC,levelC,-⟩ := tree.childLabel atP child
  simp only at levelC
  exact ⟨levelNe foundC atP (by simp only; omega),labelNe foundC fresh,levelNe foundC atQ (by simp only; omega),
    tree.childNotRoot atP child,⟨_,foundC,levelC⟩⟩

/-- A cut that the parent does not know of yet: `n` is filled, its children belong to it, but
it hangs nowhere. -/
structure Half (whole split : P → Node P K V) (p n : P) (k : K) : Prop where
  halves : Halves n k (whole p) (split p) (split n)
  parent : (split p).parent = (whole p).parent
  moved : ∀ c ∈ (split n).children, split c = (whole c).setParent n
  same : ∀ c, c ≠ p → c ≠ n → c ∉ (split n).children → split c = whole c

theorem Half.movedChild (half : Half whole split p n k) (inside : c ∈ (split n).children) :
    c ∈ (whole p).children := by
  rw [half.halves.children]
  exact mem_append_right _ inside

variable [DecidableEq P]

theorem Half.link (half : Half whole split p n k) (tree : Tree nil whole lab root height)
    (atP : lab p = some ⟨level,lo,hi⟩) (atQ : lab q = some above) (fresh : lab n = none)
    {parent before after kp}
    (node : whole q = .internal parent (before ++ (kp,p) :: after)) :
    Cut whole (update (update split n ((split n).setParent q)) q
      (.internal parent (before ++ (kp,p) :: (k,n) :: after))) q p n k := by
  have child : p ∈ (whole q).children := by simp [node,children]
  have pages := cutPages tree child atP atQ fresh
  have parentP := tree.down q above p atQ child
  have atP' : update (update split n ((split n).setParent q)) q
      (.internal parent (before ++ (kp,p) :: (k,n) :: after)) p = split p := by
    rw [update_of_ne pages.pq,update_of_ne pages.pn]
  have atN' : update (update split n ((split n).setParent q)) q
      (.internal parent (before ++ (kp,p) :: (k,n) :: after)) n = (split n).setParent q := by
    rw [update_of_ne pages.qn.symm,update_self]
  refine ⟨?_,?_,?_,parentP,⟨parent,before,kp,after,node,by rw [update_self]⟩,?_,?_⟩
  · rw [atP',atN']
    exact half.halves.setParentRight q
  · rw [atP',half.parent,parentP]
  · rw [atN',parentSetParent]
  · intro c inside
    rw [atN',childrenSetParent] at inside
    obtain ⟨cp,cn,cq,-⟩ := pages.moved c (half.movedChild inside)
    rw [update_of_ne cq,update_of_ne cn,half.moved c inside,setParentTwice,
      setParentSelf (tree.down p _ c atP (half.movedChild inside))]
    exact ⟨rfl,rfl⟩
  · intro c cp cn cq outside
    rw [atN',childrenSetParent] at outside
    rw [update_of_ne cq,update_of_ne cn]
    exact half.same c cp cn outside

theorem Half.linkRoot (half : Half whole split root n k) (tree : Tree nil whole lab root height)
    (fresh : lab n = none) (freshRoot : lab r = none) (different : r ≠ n) (z : K) :
    Cut (update (update whole root ((whole root).setParent r)) r (.internal nil [(z,root)]))
      (update (update (update split root ((split root).setParent r)) n
        ((split n).setParent r)) r (.internal nil [(z,root),(k,n)])) r root n k := by
  have rootN := labelNe tree.rootLabel fresh
  have rootR := labelNe tree.rootLabel freshRoot
  have atRoot : update (update (update split root ((split root).setParent r)) n
      ((split n).setParent r)) r (.internal nil [(z,root),(k,n)]) root = (split root).setParent r := by
    rw [update_of_ne rootR,update_of_ne rootN,update_self]
  have atN : update (update (update split root ((split root).setParent r)) n
      ((split n).setParent r)) r (.internal nil [(z,root),(k,n)]) n = (split n).setParent r := by
    rw [update_of_ne different.symm,update_self]
  have atWhole : update (update whole root ((whole root).setParent r)) r
      (.internal nil [(z,root)]) root = (whole root).setParent r := by
    rw [update_of_ne rootR,update_self]
  refine ⟨?_,?_,?_,?_,⟨nil,[],z,[],by rw [update_self]; rfl,by rw [update_self]; rfl⟩,?_,?_⟩
  · rw [atRoot,atN,atWhole]
    exact half.halves.setParents r r r
  · rw [atRoot,parentSetParent]
  · rw [atN,parentSetParent]
  · rw [atWhole,parentSetParent]
  · intro c inside
    rw [atN,childrenSetParent] at inside
    have child := half.movedChild inside
    obtain ⟨level,low,high,atC,-⟩ := tree.childLabel tree.rootLabel child
    have parentC := tree.down root _ c tree.rootLabel child
    have cRoot := tree.childNotRoot tree.rootLabel child
    have cn := labelNe atC fresh
    have cr := labelNe atC freshRoot
    rw [update_of_ne cr,update_of_ne cn,update_of_ne cRoot,update_of_ne cr,
      update_of_ne cRoot,half.moved c inside,setParentTwice,setParentSelf parentC]
    exact ⟨rfl,rfl⟩
  · intro c cRoot cn cr outside
    rw [atN,childrenSetParent] at outside
    rw [update_of_ne cr,update_of_ne cn,update_of_ne cRoot,update_of_ne cr,
      update_of_ne cRoot]
    exact half.same c cRoot cn outside

section
variable (tree : Tree nil whole lab root height) (cut : Cut whole split q p n k) (atP : lab p = some ⟨level,lo,hi⟩)
  (atQ : lab q = some above) (fresh : lab n = none)
include tree cut atP atQ fresh

theorem cutNodes (x : P) (label : Label K) (told : cutLabels lab p n level lo hi k x = some label) :
    NodeOk nil (cutLabels lab p n level lo hi k) label (split x) := by
  have pages := cutPages tree cut.child atP atQ fresh
  have next : ∀ c low high, lab c = some ⟨0,low,high⟩ →
      ∃ after, cutLabels lab p n level lo hi k c = some ⟨0,low,after⟩ := by
    intro c low high atC
    have notN := labelNe atC fresh
    by_cases isP : c = p
    · subst isP
      cases some.inj (atP.symm.trans atC)
      exact ⟨_,cutLabelsOld pages.pn⟩
    · exact ⟨high,by rw [cutLabelsSame isP notN,atC]⟩
  have halves := halvesNodes cut.halves (tree.nodes p _ atP)
    (fun c child => cutLabelsSame (pages.moved c child).1 (pages.moved c child).2.1) next cutLabelsNew
  rcases cutFound pages.pn told with ⟨rfl,rfl⟩ | ⟨rfl,rfl⟩ | ⟨isP,isN,found⟩
  · exact halves.2
  · exact halves.1
  by_cases isQ : x = q
  · subst isQ
    cases some.inj (atQ.symm.trans found)
    obtain ⟨parent,before,kp,after,old,new⟩ := cut.above
    have ok := tree.nodes x _ atQ
    rw [old] at ok
    rw [new]
    obtain ⟨-,lower,eq,seg⟩ := ok
    obtain rfl : lower = level := by have := pages.levelQ; omega
    have away := segNotAgain seg
    obtain ⟨low,first,high,order,labelP,kpOk,second⟩ := segAppend.mp seg
    cases some.inj (labelP.symm.trans atP)
    have notN : ∀ c ∈ (whole x).children, c ≠ n := by
      intro c child
      obtain ⟨_,_,_,atC,-⟩ := tree.childLabel atQ child
      exact labelNe atC fresh
    have keep : ∀ c ∈ (whole x).children, c ≠ p → cutLabels lab p n lower lo hi k c = lab c :=
      fun c child notP => cutLabelsSame notP (notN c child)
    refine ⟨by simp,lower,eq,segAppend.mpr ⟨lo,segCongr ?_ first,?_⟩⟩
    · intro c inside
      refine keep c (by simp only [old,children,map_append,mem_append]; exact .inl inside) ?_
      rintro rfl; exact away.1 inside
    · refine ⟨key k,nodeOkLt halves.1,cutLabelsOld pages.pn,kpOk,hi,nodeOkLt halves.2,cutLabelsNew,.inr rfl,
        segCongr ?_ second⟩
      intro c inside
      refine keep c (by simp [old,children]; right; right; simpa using inside) ?_
      rintro rfl; exact away.2 inside
  · obtain ⟨parent,body⟩ := cut.body isP isN isQ
    rw [body,nodeOkSetParent]
    refine nodeOkFrame (tree.nodes x _ found) ?_ fun _ c high => next c _ high
    intro c child
    obtain ⟨_,_,_,atC,-⟩ := tree.childLabel found child
    refine cutLabelsSame ?_ (labelNe atC fresh)
    rintro rfl; exact isQ (tree.childUnique found atQ child cut.child)

theorem Cut.apart (first : c ∈ (split p).children) : c ∉ (split n).children := by
  intro second
  have nodes := cutNodes tree cut atP atQ fresh
  obtain ⟨_,low,high,found,-,-,order,ends⟩ :=
    nodeOkChild (nodes p _ (cutLabelsOld (cutPages tree cut.child atP atQ fresh).pn)) first
  obtain ⟨_,low',high',found',-,starts,-⟩ := nodeOkChild (nodes n _ cutLabelsNew) second
  cases some.inj (found.symm.trans found')
  exact absurd (order.trans_le ends) (not_lt.mpr starts)

theorem cutDown (x : P) (label : Label K) (c : P) (found : cutLabels lab p n level lo hi k x = some label)
    (child : c ∈ (split x).children) : (split c).parent = x := by
  have pages := cutPages tree cut.child atP atQ fresh
  by_cases isN : x = n
  · subst isN
    rw [(cut.moved c child).1,parentSetParent]
  by_cases isP : x = p
  · subst isP
    have inside : c ∈ (whole x).children := by
      rw [cut.halves.children]; exact mem_append_left _ child
    obtain ⟨cp,cn,-⟩ := pages.moved c inside
    rw [cut.parent cp cn (cut.apart tree atP atQ fresh child)]
    exact tree.down x _ c atP inside
  rw [cutLabelsSame isP isN] at found
  by_cases cn : c = n
  · subst cn
    by_cases isQ : x = q
    · rw [isQ,cut.parentRight]
    · obtain ⟨_,body⟩ := cut.body isP isN isQ
      rw [body,childrenSetParent] at child
      obtain ⟨_,_,_,atC,-⟩ := tree.childLabel found child
      exact absurd rfl (labelNe atC fresh)
  have inside := (cut.members isP isN cn).mp child
  by_cases cp : c = p
  · subst cp
    rw [cut.parentLeft,tree.childUnique found atQ inside cut.child]
  · rw [cut.parent cp cn fun moved => isP (tree.childUnique found atP inside (cut.movedChild moved))]
    exact tree.down x label c found inside

theorem cutUp
    (x : P) (label : Label K) (told : cutLabels lab p n level lo hi k x = some label) (notRoot : x ≠ root) :
    ∃ above, cutLabels lab p n level lo hi k (split x).parent = some above ∧ above.level = label.level + 1 ∧
      x ∈ (split (split x).parent).children := by
  have pages := cutPages tree cut.child atP atQ fresh
  obtain ⟨parent,before,kp,after,old,new⟩ := cut.above
  rcases cutFound pages.pn told with ⟨rfl,rfl⟩ | ⟨rfl,rfl⟩ | ⟨isP,isN,found⟩
  · refine ⟨above,?_,pages.levelQ,?_⟩
    · rw [cut.parentRight,cutLabelsSame pages.pq.symm pages.qn,atQ]
    · simp [cut.parentRight,new,children]
  · refine ⟨above,?_,pages.levelQ,?_⟩
    · rw [cut.parentLeft,cutLabelsSame pages.pq.symm pages.qn,atQ]
    · simp [cut.parentLeft,new,children]
  obtain ⟨above,atOver,levelOver,inside⟩ := tree.up x label found notRoot
  have overN := labelNe atOver fresh
  by_cases moved : x ∈ (split n).children
  · obtain ⟨-,-,-,-,l,atX,levelX⟩ := pages.moved x (cut.movedChild moved)
    cases some.inj (atX.symm.trans found)
    rw [(cut.moved x moved).1,parentSetParent]
    exact ⟨_,cutLabelsNew,levelX,moved⟩
  rw [cut.parent isP isN moved]
  by_cases overP : (whole x).parent = p
  · rw [overP] at atOver inside ⊢
    cases some.inj (atP.symm.trans atOver)
    refine ⟨_,cutLabelsOld pages.pn,levelOver,?_⟩
    rw [cut.halves.children] at inside
    exact (mem_append.mp inside).resolve_right moved
  exact ⟨above,by rw [cutLabelsSame overP overN,atOver],levelOver,(cut.members overP overN isN).mpr inside⟩

theorem cutTree (page : n ≠ nil) : Tree nil split (cutLabels lab p n level lo hi k) root height := by
  have pages := cutPages tree cut.child atP atQ fresh
  have rootN := labelNe tree.rootLabel fresh
  refine ⟨?_,?_,?_,cutNodes tree cut atP atQ fresh,cutDown tree cut atP atQ fresh,cutUp tree cut atP atQ fresh,?_⟩
  · rw [cutLabelsSame pages.notRoot.symm rootN,tree.rootLabel]
  · rw [cut.parent pages.notRoot.symm rootN fun moved => (pages.moved root (cut.movedChild moved)).2.2.2.1 rfl,tree.rootParent]
  · rw [cutLabelsSame (labelNe atP tree.nilLabel).symm page.symm,tree.nilLabel]
  · intro x label found
    rcases cutFound pages.pn found with ⟨rfl,rfl⟩ | ⟨rfl,rfl⟩ | ⟨-,-,found⟩
    · exact tree.bounded p ⟨level,lo,hi⟩ atP
    · exact tree.bounded p ⟨level,lo,hi⟩ atP
    · exact tree.bounded x label found

theorem cutHolds (item : K × V) : Holds split (cutLabels lab p n level lo hi k) item ↔ Holds whole lab item := by
  have pages := cutPages tree cut.child atP atQ fresh
  constructor
  · rintro ⟨x,label,found,inside⟩
    rcases cutFound pages.pn found with ⟨rfl,-⟩ | ⟨rfl,-⟩ | ⟨isP,isN,found⟩
    · refine ⟨p,_,atP,?_⟩
      rw [cut.halves.leafItems]
      exact mem_append_right _ inside
    · refine ⟨p,_,atP,?_⟩
      rw [cut.halves.leafItems]
      exact mem_append_left _ inside
    · exact ⟨x,label,found,cut.leafItems isP isN ▸ inside⟩
  · rintro ⟨x,label,found,inside⟩
    by_cases isP : x = p
    · subst isP
      rw [cut.halves.leafItems] at inside
      rcases mem_append.mp inside with left | right
      · exact ⟨x,_,cutLabelsOld pages.pn,left⟩
      · exact ⟨n,_,cutLabelsNew,right⟩
    · have isN := labelNe found fresh
      exact ⟨x,label,by rw [cutLabelsSame isP isN,found],(cut.leafItems isP isN).symm ▸ inside⟩

end

end

/-! ### Joining -/

section
variable {nil : P} {whole split : P → Node P K V} {lab : P → Option (Label K)} {root q p n : P} {k : K}
  {height level : Nat} {lo hi : Bound K} {above : Label K}

theorem Cut.bodyWhole (cut : Cut whole split q p n k) (notP : c ≠ p) (notN : c ≠ n) (notQ : c ≠ q) :
    ∃ parent, whole c = (split c).setParent parent := by
  obtain ⟨_,body⟩ := cut.body notP notN notQ
  exact ⟨(whole c).parent,by rw [body,setParentTwice,setParentSelf rfl]⟩

theorem Cut.childLeft (cut : Cut whole split q p n k) : p ∈ (split q).children := by
  obtain ⟨parent,before,kp,after,-,same⟩ := cut.above
  simp [same,children]

theorem Cut.childRight (cut : Cut whole split q p n k) : n ∈ (split q).children := by
  obtain ⟨parent,before,kp,after,-,same⟩ := cut.above
  simp [same,children]

structure JoinPages (lab : P → Option (Label K)) (split : P → Node P K V) (root q p n : P) (level : Nat) :
    Prop where
  pn : p ≠ n
  qn : q ≠ n
  pq : p ≠ q
  rootP : root ≠ p
  rootN : root ≠ n
  below : ∀ c, c ∈ (split p).children ∨ c ∈ (split n).children →
    c ≠ p ∧ c ≠ n ∧ c ≠ q ∧ c ≠ root ∧ ∃ label, lab c = some label ∧ level = label.level + 1

theorem joinDistinct (tree : Tree nil split lab root height) (childP : p ∈ (split q).children)
    (childN : n ∈ (split q).children) (atQ : lab q = some above) (levelQ : above.level = level + 1) (atP : lab p = some ⟨level,lo,key k⟩)
    (atN : lab n = some ⟨level,key k,hi⟩) (order : lo < key k) :
    JoinPages lab split root q p n level := by
  have pn : p ≠ n := by
    rintro rfl
    cases some.inj (atP.symm.trans atN)
    exact absurd order (lt_irrefl _)
  refine ⟨pn,levelNe atQ atN (by simp only; omega),levelNe atP atQ (by simp only; omega),
    (tree.childNotRoot atQ childP).symm,(tree.childNotRoot atQ childN).symm,?_⟩
  intro c child
  obtain ⟨d,a,atD,levelD,inside⟩ : ∃ d a, lab d = some a ∧ a.level = level ∧ c ∈ (split d).children := by
    rcases child with inside | inside
    · exact ⟨p,_,atP,rfl,inside⟩
    · exact ⟨n,_,atN,rfl,inside⟩
  obtain ⟨lower,low,high,atC,levelC,-⟩ := tree.childLabel atD inside
  exact ⟨levelNe atC atP (by simp only; omega),levelNe atC atN (by simp only; omega),
    levelNe atC atQ (by simp only; omega),tree.childNotRoot atD inside,_,atC,by simp only; omega⟩

variable [DecidableEq P]

def joinLabels (lab : P → Option (Label K)) (p n : P) (level : Nat) (lo hi : Bound K) : P → Option (Label K) :=
  update (update lab p (some ⟨level,lo,hi⟩)) n none

omit [LinearOrder K] in
theorem joinLabelsGone : joinLabels lab p n level lo hi n = none := by
  simp [joinLabels]

omit [LinearOrder K] in
theorem joinLabelsWhole (different : p ≠ n) : joinLabels lab p n level lo hi p = some ⟨level,lo,hi⟩ := by
  simp [joinLabels,update_of_ne different]

omit [LinearOrder K] in
theorem joinLabelsSame (notP : c ≠ p) (notN : c ≠ n) : joinLabels lab p n level lo hi c = lab c := by
  simp [joinLabels,update_of_ne notP,update_of_ne notN]

omit [LinearOrder K] in
theorem joinFound (different : p ≠ n) (found : joinLabels lab p n level lo hi c = some label) :
    p = c ∧ ⟨level,lo,hi⟩ = label ∨ c ≠ p ∧ c ≠ n ∧ lab c = some label := by
  have isN := labelNe found joinLabelsGone
  by_cases isP : c = p
  · subst isP
    exact .inl ⟨rfl,some.inj ((joinLabelsWhole different).symm.trans found)⟩
  · exact .inr ⟨isP,isN,(joinLabelsSame isP isN).symm.trans found⟩

section
variable (tree : Tree nil split lab root height) (cut : Cut whole split q p n k) (atQ : lab q = some above)
  (atP : lab p = some ⟨level,lo,key k⟩)
include tree cut atQ atP

section
variable (pages : JoinPages lab split root q p n level)
include pages

theorem joinNodes (levelQ : above.level = level + 1) (atN : lab n = some ⟨level,key k,hi⟩) (orderP : lo < key k)
    (orderN : key k < hi) (x : P) (label : Label K) (told : joinLabels lab p n level lo hi x = some label) :
    NodeOk nil (joinLabels lab p n level lo hi) label (whole x) := by
  rcases joinFound pages.pn told with ⟨rfl,rfl⟩ | ⟨isP,isN,found⟩
  · refine halvesWhole cut.halves (tree.nodes p _ atP) (tree.nodes n _ atN) ?_ ?_
    · intro c child
      rw [cut.halves.children,mem_append] at child
      obtain ⟨cp,cn,-⟩ := pages.below c child
      exact joinLabelsSame cp cn
    · intro c high atC
      refine ⟨high,?_⟩
      rw [joinLabelsSame ?_ ?_,atC]
      · rintro rfl
        cases some.inj (atC.symm.trans atP)
        exact absurd (orderP.trans orderN) (lt_irrefl _)
      · rintro rfl
        cases some.inj (atC.symm.trans atN)
        exact absurd orderN (lt_irrefl _)
  by_cases isQ : x = q
  · subst isQ
    cases some.inj (atQ.symm.trans found)
    obtain ⟨parent,before,kp,after,old,new⟩ := cut.above
    have ok := tree.nodes x _ atQ
    rw [new] at ok
    rw [old]
    obtain ⟨-,lower,eq,seg⟩ := ok
    obtain rfl : lower = level := by omega
    have awayP := segNotAgain seg
    have awayN : n ∉ (before ++ [(kp,p)]).map Prod.snd ∧ n ∉ after.map Prod.snd :=
      segNotAgain (by rw [append_assoc]; exact seg)
    obtain ⟨low,first,mid,_,labelP,kpOk,high,_,labelN,-,second⟩ := segAppend.mp seg
    cases some.inj (labelP.symm.trans atP)
    cases some.inj (labelN.symm.trans atN)
    refine ⟨by simp,lower,eq,segAppend.mpr ⟨lo,segCongr ?_ first,hi,orderP.trans orderN,
      joinLabelsWhole pages.pn,kpOk,segCongr ?_ second⟩⟩
    · intro c inside
      refine joinLabelsSame ?_ ?_
      · rintro rfl; exact awayP.1 inside
      · rintro rfl; exact awayN.1 (by rw [map_append]; exact mem_append_left _ inside)
    · intro c inside
      refine joinLabelsSame ?_ ?_
      · rintro rfl; exact awayP.2 (by rw [map_cons]; exact mem_cons_of_mem _ inside)
      · rintro rfl; exact awayN.2 inside
  · obtain ⟨parent,body⟩ := cut.bodyWhole isP isN isQ
    rw [body,nodeOkSetParent]
    have order := nodeOkLt (tree.nodes x _ found)
    refine nodeOkFrame (tree.nodes x _ found) ?_ ?_
    · intro c child
      refine joinLabelsSame ?_ ?_
      · rintro rfl; exact isQ (tree.childUnique found atQ child cut.childLeft)
      · rintro rfl; exact isQ (tree.childUnique found atQ child cut.childRight)
    · intro zero c high atC
      by_cases cp : c = p
      · subst cp
        cases some.inj (atC.symm.trans atP)
        exact ⟨hi,joinLabelsWhole pages.pn⟩
      · -- a leaf that ends where `n` starts is `p`
        have cn : c ≠ n := by
          rintro rfl
          have ends : label.hi = key k ∧ level = 0 := by
            have same := some.inj (atC.symm.trans atN)
            simp only [Label.mk.injEq] at same
            exact ⟨same.2.1,same.1.symm⟩
          rw [ends.1] at order
          exact isP (tree.unique found atP (zero.trans ends.2.symm)
            ⟨le_max_left label.lo lo,by rw [ends.1]; exact max_lt order orderP⟩
            ⟨le_max_right label.lo lo,max_lt order orderP⟩)
        exact ⟨high,by rw [joinLabelsSame cp cn,atC]⟩

theorem joinDown (atN : lab n = some ⟨level,key k,hi⟩) (x : P) (label : Label K) (c : P) (told : joinLabels lab p n level lo hi x = some label)
    (child : c ∈ (whole x).children) : (whole c).parent = x := by
  rcases joinFound pages.pn told with ⟨rfl,-⟩ | ⟨isP,isN,found⟩
  · rw [cut.halves.children,mem_append] at child
    obtain ⟨cp,cn,-⟩ := pages.below c child
    rcases child with left | right
    · rw [← cut.parent cp cn fun moved => pages.pn (tree.childUnique atP atN left moved)]
      exact tree.down p _ c atP left
    · rw [(cut.moved c right).2,parentSetParent]
  have cn : c ≠ n := by
    rintro rfl
    by_cases isQ : x = q
    · subst isQ
      obtain ⟨parent,before,kp,after,old,new⟩ := cut.above
      have ok := tree.nodes x _ found
      rw [new] at ok
      obtain ⟨-,_,-,seg⟩ := ok
      have away : c ∉ (before ++ [(kp,p)]).map Prod.snd ∧ c ∉ after.map Prod.snd :=
        segNotAgain (by rw [append_assoc]; exact seg)
      simp only [old,children,map_append,map_cons,mem_append,mem_cons,
        map_nil,not_mem_nil,or_false] at child away
      grind
    · obtain ⟨_,body⟩ := cut.bodyWhole isP isN isQ
      rw [body,childrenSetParent] at child
      exact isQ (tree.childUnique found atQ child cut.childRight)
  have inside := (cut.members isP isN cn).mpr child
  by_cases cp : c = p
  · subst cp
    rw [cut.parentWhole,tree.childUnique found atQ inside cut.childLeft]
  · rw [← cut.parent cp cn fun moved => isN (tree.childUnique found atN inside moved)]
    exact tree.down x label c found inside

theorem joinUp (levelQ : above.level = level + 1)
    (x : P) (label : Label K) (told : joinLabels lab p n level lo hi x = some label) (notRoot : x ≠ root) :
    ∃ above, joinLabels lab p n level lo hi (whole x).parent = some above ∧ above.level = label.level + 1 ∧
      x ∈ (whole (whole x).parent).children := by
  rcases joinFound pages.pn told with ⟨rfl,rfl⟩ | ⟨isP,isN,found⟩
  · rw [cut.parentWhole]
    exact ⟨above,by rw [joinLabelsSame pages.pq.symm pages.qn,atQ],levelQ,cut.child⟩
  by_cases moved : x ∈ (split n).children
  · obtain ⟨-,-,-,-,l,atX,levelX⟩ := pages.below x (.inr moved)
    cases some.inj (atX.symm.trans found)
    rw [(cut.moved x moved).2,parentSetParent]
    exact ⟨_,joinLabelsWhole pages.pn,levelX,cut.movedChild moved⟩
  obtain ⟨above,atOver,levelOver,inside⟩ := tree.up x label found notRoot
  rw [← cut.parent isP isN moved]
  have overN : (split x).parent ≠ n := fun same => moved (same ▸ inside)
  by_cases overP : (split x).parent = p
  · rw [overP] at atOver inside ⊢
    cases some.inj (atP.symm.trans atOver)
    refine ⟨_,joinLabelsWhole pages.pn,levelOver,?_⟩
    rw [cut.halves.children]
    exact mem_append_left _ inside
  exact ⟨above,by rw [joinLabelsSame overP overN,atOver],levelOver,(cut.members overP overN isN).mp inside⟩

end

variable (levelQ : above.level = level + 1) (atN : lab n = some ⟨level,key k,hi⟩) (orderP : lo < key k)
include levelQ atN orderP

theorem joinTree (orderN : key k < hi) : Tree nil whole (joinLabels lab p n level lo hi) root height := by
  have pages := joinDistinct tree cut.childLeft cut.childRight atQ levelQ atP atN orderP
  refine ⟨?_,?_,?_,joinNodes tree cut atQ atP pages levelQ atN orderP orderN,
    joinDown tree cut atQ atP pages atN,joinUp tree cut atQ atP pages levelQ,?_⟩
  · rw [joinLabelsSame pages.rootP pages.rootN,tree.rootLabel]
  · rw [← cut.parent pages.rootP pages.rootN fun moved => (pages.below root (.inr moved)).2.2.2.1 rfl,tree.rootParent]
  · by_cases isN : nil = n
    · rw [isN,joinLabelsGone]
    · rw [joinLabelsSame (labelNe atP tree.nilLabel).symm isN,tree.nilLabel]
  · intro x label found
    rcases joinFound pages.pn found with ⟨rfl,rfl⟩ | ⟨-,-,found⟩
    · exact tree.bounded p ⟨level,lo,key k⟩ atP
    · exact tree.bounded x label found

theorem joinHolds (item : K × V) : Holds whole (joinLabels lab p n level lo hi) item ↔ Holds split lab item := by
  have pages := joinDistinct tree cut.childLeft cut.childRight atQ levelQ atP atN orderP
  constructor
  · rintro ⟨x,label,found,inside⟩
    rcases joinFound pages.pn found with ⟨rfl,-⟩ | ⟨isP,isN,found⟩
    · rw [cut.halves.leafItems] at inside
      rcases mem_append.mp inside with left | right
      · exact ⟨p,_,atP,left⟩
      · exact ⟨n,_,atN,right⟩
    · exact ⟨x,label,found,(cut.leafItems isP isN).symm ▸ inside⟩
  · rintro ⟨x,label,found,inside⟩
    by_cases isN : x = n
    · refine ⟨p,_,joinLabelsWhole pages.pn,?_⟩
      rw [cut.halves.leafItems]
      exact mem_append_right _ (isN ▸ inside)
    by_cases isP : x = p
    · refine ⟨p,_,joinLabelsWhole pages.pn,?_⟩
      rw [cut.halves.leafItems]
      exact mem_append_left _ (isP ▸ inside)
    · exact ⟨x,label,by rw [joinLabelsSame isP isN,found],cut.leafItems isP isN ▸ inside⟩

end

end

/-! ### One leaf, and the root -/

section
variable [DecidableEq P] {nil : P} {heap : P → Node P K V} {lab : P → Option (Label K)} {root p : P}
  {height : Nat} {label : Label K}

theorem setLeaf (tree : Tree nil heap lab root height) {parent next old items}
    (atP : lab p = some label) (leaf : heap p = .leaf parent next old)
    (sorted : Sorted items) (within : Within label.lo label.hi items) :
    Tree nil (update heap p (.leaf parent next items)) lab root height := by
  have parents : ∀ c, (update heap p (.leaf parent next items) c).parent = (heap c).parent := by
    intro c
    by_cases isP : c = p
    · subst isP; simp [leaf,Node.parent]
    · rw [update_of_ne isP]
  have children : ∀ c, (update heap p (.leaf parent next items) c).children = (heap c).children := by
    intro c
    by_cases isP : c = p
    · subst isP; simp [leaf,children]
    · rw [update_of_ne isP]
  refine ⟨tree.rootLabel,by rw [parents,tree.rootParent],tree.nilLabel,?_,?_,?_,tree.bounded⟩
  · intro x l found
    by_cases isP : x = p
    · subst isP
      cases some.inj (found.symm.trans atP)
      have ok := tree.nodes x _ atP
      rw [leaf] at ok
      rw [update_self]
      exact ⟨ok.1,ok.2.1,sorted,within,ok.2.2.2.2⟩
    · rw [update_of_ne isP]
      exact tree.nodes x l found
  · intro x l c found child
    rw [children] at child
    rw [parents]
    exact tree.down x l c found child
  · intro x l found notRoot
    rw [parents,children]
    exact tree.up x l found notRoot

theorem growRoot (tree : Tree nil heap lab root height) (k : K) (fresh : lab r = none) (page : r ≠ nil) :
    Tree nil (update (update heap root ((heap root).setParent r)) r (.internal nil [(k,root)]))
      (update lab r (some ⟨height + 1,⊥,⊤⟩)) r (height + 1) := by
  have different : ∀ {c : P} {l : Label K}, lab c = some l → c ≠ r := fun found => labelNe found fresh
  have rootR := different tree.rootLabel
  have old : ∀ {c : P} {l : Label K}, c ≠ r → update lab r (some ⟨height + 1,⊥,⊤⟩) c = some l →
      lab c = some l := by
    intro c l notR found
    rwa [update_of_ne notR] at found
  have body : ∀ {c : P}, c ≠ r → ∃ q, update (update heap root ((heap root).setParent r)) r
      (.internal nil [(k,root)]) c = (heap c).setParent q ∧ (c = root → q = r) ∧
      (c ≠ root → q = (heap c).parent) := by
    intro c notR
    rw [update_of_ne notR]
    by_cases isRoot : c = root
    · subst isRoot
      exact ⟨r,by rw [update_self],fun _ => rfl,fun h => absurd rfl h⟩
    · exact ⟨(heap c).parent,by rw [update_of_ne isRoot,setParentSelf rfl],
        fun h => absurd h isRoot,fun _ => rfl⟩
  refine ⟨by simp,by simp [parent],?_,?_,?_,?_,?_⟩
  · rw [update_of_ne page.symm,tree.nilLabel]
  · intro x l found
    by_cases isR : x = r
    · subst isR
      rw [update_self] at found ⊢
      cases some.inj found
      refine ⟨by simp,height,rfl,⊤,WithBot.bot_lt_coe _,?_,.inl rfl,rfl⟩
      rw [update_of_ne rootR,tree.rootLabel]
    · obtain ⟨q,same,-⟩ := body isR
      rw [same,nodeOkSetParent]
      have found := old isR found
      refine nodeOkFrame (tree.nodes x l found) ?_ ?_
      · intro c child
        obtain ⟨_,_,_,atC,-⟩ := tree.childLabel found child
        rw [update_of_ne (different atC)]
      · intro _ c high atC
        exact ⟨high,by rw [update_of_ne (different atC),atC]⟩
  · intro x l c found child
    by_cases isR : x = r
    · subst isR
      simp only [update_self,children,map_cons,map_nil,mem_singleton] at child
      subst child
      obtain ⟨q,same,isX,-⟩ := body rootR
      rw [same,parentSetParent,isX rfl]
    · obtain ⟨q,same,-⟩ := body isR
      rw [same,childrenSetParent] at child
      have found := old isR found
      obtain ⟨_,_,_,atC,-⟩ := tree.childLabel found child
      obtain ⟨q',sameC,-,keeps⟩ := body (different atC)
      have parentC := tree.down x l c found child
      rw [sameC,parentSetParent,keeps (tree.childNotRoot found child),parentC]
  · intro x l found isNew
    have found := old isNew found
    obtain ⟨q,same,isX,keeps⟩ := body isNew
    rw [same,parentSetParent]
    by_cases isRoot : x = root
    · subst isRoot
      rw [isX rfl,update_self]
      cases some.inj (found.symm.trans tree.rootLabel)
      exact ⟨_,rfl,rfl,by simp [children]⟩
    · obtain ⟨above,atOver,levelOver,inside⟩ := tree.up x l found isRoot
      rw [keeps isRoot,update_of_ne (different atOver)]
      obtain ⟨q',sameOver,-⟩ := body (different atOver)
      refine ⟨above,atOver,levelOver,?_⟩
      rw [sameOver,childrenSetParent]
      exact inside
  · intro x l found
    by_cases isR : x = r
    · subst isR
      rw [update_self] at found
      cases some.inj found
      exact le_refl _
    · exact (tree.bounded x l (old isR found)).trans (Nat.le_succ _)

theorem shrinkRoot (tree : Tree nil heap lab root (height + 1)) {parent c k}
    (single : heap root = .internal parent [(k,c)]) :
    Tree nil (update heap c ((heap c).setParent nil)) (update lab root none) c height := by
  have ok := tree.nodes root _ tree.rootLabel
  rw [single] at ok
  obtain ⟨-,level,levelC,mid,-,atC,-,rfl⟩ := ok
  obtain rfl : level = height := by simp only at levelC; omega
  have notRoot : ∀ {x : P} {l : Label K}, lab x = some l → l.level ≤ level → x ≠ root := by
    rintro x l found low rfl
    cases some.inj (found.symm.trans tree.rootLabel)
    exact absurd low (Nat.not_succ_le_self _)
  have cRoot := notRoot atC (le_refl _)
  have old : ∀ {x : P} {l : Label K}, update lab root none x = some l → x ≠ root ∧ lab x = some l := by
    intro x l found
    by_cases isRoot : x = root
    · subst isRoot; simp at found
    · rw [update_of_ne isRoot] at found
      exact ⟨isRoot,found⟩
  have children : ∀ x, (update heap c ((heap c).setParent nil) x).children = (heap x).children := by
    intro x
    by_cases isC : x = c
    · subst isC; simp
    · rw [update_of_ne isC]
  have childC : c ∈ (heap root).children := by simp [single,Node.children]
  refine ⟨?_,by simp,?_,?_,?_,?_,?_⟩
  · rw [update_of_ne cRoot,atC]
  · by_cases isRoot : nil = root
    · rw [isRoot,update_self]
    · rw [update_of_ne isRoot,tree.nilLabel]
  · intro x l found
    obtain ⟨-,found⟩ := old found
    have ok : NodeOk nil (update lab root none) l (heap x) := by
      refine nodeOkFrame (tree.nodes x l found) ?_ ?_
      · intro d child
        obtain ⟨_,_,_,atD,levelD,-⟩ := tree.childLabel found child
        have := tree.bounded x l found
        rw [update_of_ne (notRoot atD (by simp only at levelD ⊢; omega))]
      · intro _ d high atD
        exact ⟨high,by rw [update_of_ne (notRoot atD (Nat.zero_le _)),atD]⟩
    by_cases isC : x = c
    · subst isC
      rw [update_self,nodeOkSetParent]
      exact ok
    · rw [update_of_ne isC]
      exact ok
  · intro x l d found child
    obtain ⟨xRoot,found⟩ := old found
    rw [children] at child
    have notC : d ≠ c := by
      rintro rfl
      exact xRoot (tree.childUnique found tree.rootLabel child childC)
    rw [update_of_ne notC]
    exact tree.down x l d found child
  · intro x l found notC
    obtain ⟨xRoot,found⟩ := old found
    obtain ⟨above,atOver,levelOver,inside⟩ := tree.up x l found xRoot
    rw [update_of_ne notC,children]
    refine ⟨above,?_,levelOver,inside⟩
    rw [update_of_ne ?_,atOver]
    intro isRoot
    rw [isRoot,single] at inside
    exact notC (by simpa [Node.children] using inside)
  · intro x l found
    obtain ⟨xRoot,found⟩ := old found
    have := tree.bounded x l found
    by_contra high
    exact xRoot (tree.topIsRoot found (by omega))

theorem singleLeaf (items : List (K × V)) (leaf : heap p = .leaf nil nil items) (sorted : Sorted items)
    (page : p ≠ nil) : Tree nil heap (update (fun _ => none) p (some ⟨0,⊥,⊤⟩)) p 0 := by
  have only : ∀ {x : P} {l : Label K}, update (fun _ => none) p (some ⟨0,⊥,⊤⟩) x = some l →
      x = p ∧ l = ⟨0,⊥,⊤⟩ := by
    intro x l found
    by_cases isP : x = p
    · subst isP
      rw [update_self] at found
      exact ⟨rfl,(some.inj found).symm⟩
    · rw [update_of_ne isP] at found
      cases found
  refine ⟨by simp,by simp [leaf,parent],by rw [update_of_ne page.symm],?_,?_,?_,?_⟩
  · intro x l found
    obtain ⟨rfl,rfl⟩ := only found
    rw [leaf]
    exact ⟨rfl,WithBot.bot_lt_coe _,sorted,fun item _ => ⟨bot_le,keyLtTop _⟩,.inl ⟨rfl,rfl⟩⟩
  · intro x l c found child
    obtain ⟨rfl,-⟩ := only found
    simp [leaf,children] at child
  · intro x l found notRoot
    exact absurd (only found).1 notRoot
  · intro x l found
    rw [(only found).2]

end
end MiniOb.PagedTree
