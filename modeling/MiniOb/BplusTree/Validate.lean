import MiniOb.BplusTree.Invariant

/-! `validate_tree` of the index, and that it accepts every tree under the invariant. -/
namespace MiniOb.BplusTree
open Prog PagedTree PagedTree.Bound List InternalIndexNodeHandler

variable {K : Type}

/-! ### The check -/

def peekPage (page : PageNum) : TreeM K Unit := do
  fault
  hold (.pin page)
  letGo (.pin page)

def IndexNodeHandler.validate (node : IndexNode K) : Bool :=
  if node.parent = bpInvalidPageNum then 1 ≤ node.size && (node.isLeaf || 2 ≤ node.size) else true

def keysIncrease (ops : KeyOps K) : List K → Bool
  | a :: b :: rest => ops.compare a b < 0 && keysIncrease ops (b :: rest)
  | _ => true

def nodeKeyAt (keys : List K) (index : Nat) : TreeM K K := match keys[index]? with
  | some key => pure key
  | none => exit .abort

def startsAtSeparator (ops : KeyOps K) (keys : List K) (first : Nat) (items : List (K × PageNum)) (index : Nat) :
    TreeM K Bool :=
  if index = 0 then pure true
  else do
    let key ← nodeKeyAt keys first
    let parentKey ← keyAt items index
    pure (decide (0 ≤ ops.compare key parentKey))

def endsBeforeSeparator (ops : KeyOps K) (keys : List K) (items : List (K × PageNum)) (index : Nat) : TreeM K Bool :=
  if index < items.length - 1 then do
    let key ← nodeKeyAt keys (keys.length - 1)
    let parentKey ← keyAt items (index + 1)
    pure (decide (ops.compare key parentKey < 0))
  else pure true

def validateInParent (ops : KeyOps K) (page parent : PageNum) (keys : List K) (first : Nat) : TreeM K Bool :=
  if parent = bpInvalidPageNum then pure true
  else do
    match ← attempt (peekPage parent) with
    | none => pure false
    | some _ =>
        let (_,items) ← view parent
        match valueIndex page items with
        | none => pure false
        | some index =>
            if ← startsAtSeparator ops keys first items index then endsBeforeSeparator ops keys items index
            else pure false

def LeafIndexNodeHandler.validate (ops : KeyOps K) (page : PageNum) : TreeM K Bool := do
  let (parent,next,items) ← LeafIndexNodeHandler.view page
  if IndexNodeHandler.validate (.leaf parent next items : IndexNode K) = false then pure false
  else if keysIncrease ops (items.map Prod.fst) = false then pure false
  else validateInParent ops page parent (items.map Prod.fst) 0

def childrenNameParent (page : PageNum) : List (K × PageNum) → TreeM K Bool
  | [] => pure true
  | item :: rest => do
      if item.2 < 0 then childrenNameParent page rest
      else match ← attempt (peekPage item.2) with
        | none => childrenNameParent page rest
        | some _ =>
            let child ← getNode item.2
            if child.parent = page then childrenNameParent page rest else pure false

def InternalIndexNodeHandler.validate (ops : KeyOps K) (page : PageNum) : TreeM K Bool := do
  let (parent,items) ← view page
  if IndexNodeHandler.validate (.internal parent items : IndexNode K) = false then pure false
  else if keysIncrease ops (items.map Prod.fst).tail = false then pure false
  else if (← childrenNameParent page items) = false then pure false
  else validateInParent ops page parent (items.map Prod.fst) 1

def validateChildren (recurse : PageNum → TreeM K Bool) : List (K × PageNum) → TreeM K Bool
  | [] => pure true
  | item :: rest => do
      match ← attempt (getPage item.2) with
      | none => pure false
      | some _ => if ← recurse item.2 then validateChildren recurse rest else pure false

def validateNodeRecursive (ops : KeyOps K) : Nat → PageNum → TreeM K Bool
  | 0,_ => exit .abort
  | fuel+1,page => do
      match ← getNode page with
      | .leaf _ _ _ => LeafIndexNodeHandler.validate ops page
      | .internal _ items =>
          if ← validate ops page then
            validateChildren (validateNodeRecursive ops fuel) items
          else pure false

def validateLinks (ops : KeyOps K) : Nat → K → PageNum → TreeM K Bool
  | 0,_,_ => exit .abort
  | fuel+1,prev,page =>
      if page = bpInvalidPageNum then pure true
      else do
        match ← attempt (getPage page) with
        | none => pure false
        | some _ =>
            let (_,next,items) ← LeafIndexNodeHandler.view page
            let first ← nodeKeyAt (items.map Prod.fst) 0
            let last ← nodeKeyAt (items.map Prod.fst) (items.length - 1)
            if 0 ≤ ops.compare prev first then pure false else validateLinks ops fuel last next

def validateLeafLink (ops : KeyOps K) : TreeM K Bool := do
  if ← isEmpty then pure true
  else match ← attempt leftMostPage with
    | none => pure false
    | some page =>
        let (_,next,items) ← LeafIndexNodeHandler.view page
        let last ← nodeKeyAt (items.map Prod.fst) (items.length - 1)
        let fuel ← read fun s => s.disk.file.pageCount
        validateLinks ops fuel last next

def validateTree (ops : KeyOps K) : TreeM K Bool := do
  if ← isEmpty then pure true
  else
    let header ← getHeader
    match ← attempt (getPage header.rootPage) with
    | none => pure false
    | some _ =>
        let fuel ← read fun s => s.disk.file.pageCount
        let nodes ← validateNodeRecursive ops fuel header.rootPage
        let links ← if nodes then validateLeafLink ops else pure false
        releaseAll
        pure links

/-! ### What it accepts -/

section
variable {S T : Store K}

theorem takesPeekPage (page : PageNum) : Takes Sees (peekPage page : TreeM K Unit) S (.ok ()) S :=
  takesBind takesFault (takesBind takesHold (takesLetGo _))

theorem takesNodeKeyAt {keys index key} (found : keys[index]? = some key) :
    Takes Sees (nodeKeyAt keys index) S (.ok key) S := by
  simp only [nodeKeyAt,found]
  exact takesPure

end

variable [LinearOrder K]

section
variable {ops : KeyOps K} {S : Store K} {lab : PageNum → Option (Label K)} {height level : Nat}
  {p q parent : PageNum} {lo hi : Bound K}

theorem keysIncreaseSorted (ordered : ops.Ordered) : ∀ {keys : List K}, keys.Pairwise (· < ·) →
    keysIncrease ops keys = true
  | [],_ => rfl
  | [_],_ => rfl
  | a :: b :: rest,sorted => by
    obtain ⟨first,tail⟩ := pairwise_cons.mp sorted
    simp only [keysIncrease,Bool.and_eq_true,decide_eq_true_eq]
    exact ⟨(ordered.less a b).mpr (first b (by simp)),keysIncreaseSorted ordered tail⟩

variable {items : List (K × PageNum)} {index first : Nat} {kp k : K} {keys : List K}

theorem separators {lower low high}
    (seg : Seg lab lower low items high) (atP : lab p = some ⟨level,lo,hi⟩) (found : items[index]? = some (kp,p)) :
    (index ≠ 0 → lo = key kp) ∧ ∀ kn c, items[index + 1]? = some (kn,c) → hi = key kn := by
  obtain ⟨inside,same⟩ := List.getElem?_eq_some_iff.mp found
  have split : items = items.take index ++ (kp,p) :: items.drop (index + 1) := by
    rw [← same,cons_getElem_drop_succ,take_append_drop]
  rw [split] at seg
  obtain ⟨mid,left,top,order,atP',first,right⟩ := segAppend.mp seg
  cases Option.some.inj (atP'.symm.trans atP)
  constructor
  · intro notFirst
    refine first.resolve_left fun bottom => ?_
    have := segLt left (by
      intro empty
      rw [take_eq_nil_iff] at empty
      rcases empty with zero | none
      · exact notFirst zero
      · simp [none] at inside)
    rw [bottom] at this
    exact not_lt_bot this
  · intro kn c next
    cases rest : items.drop (index + 1) with
    | nil =>
      have := drop_eq_nil_iff.mp rest
      obtain ⟨bound,-⟩ := List.getElem?_eq_some_iff.mp next
      omega
    | cons item more =>
      have head : items[index + 1]? = some item := by
        have := congrArg head? rest
        rwa [head?_drop,head?_cons] at this
      obtain rfl : item = (kn,c) := Option.some.inj (head.symm.trans next)
      rw [rest] at right
      obtain ⟨-,-,-,start,-⟩ := segCons.mp right
      exact start.resolve_left fun bottom => by
        rw [bottom] at order
        exact not_lt_bot order

theorem takesStartsAt (ordered : ops.Ordered)
    (atFirst : keys[first]? = some k) (found : items[index]? = some (kp,p)) (starts : index ≠ 0 → kp ≤ k) :
    Takes Sees (startsAtSeparator ops keys first items index) S (.ok true) S := by
  unfold startsAtSeparator
  split
  · exact takesPure
  · rename_i notFirst
    refine takesBind (takesNodeKeyAt atFirst) (takesBind (takesKeyAt found) ?_)
    have positive : 0 ≤ ops.compare k kp := by
      by_contra negative
      exact absurd ((ordered.less k kp).mp (by omega)) (not_lt.mpr (starts notFirst))
    rw [decide_eq_true positive]
    exact takesPure

theorem takesEndsBefore (ordered : ops.Ordered)
    (atLast : keys[keys.length - 1]? = some k) (ends : ∀ kn c, items[index + 1]? = some (kn,c) → k < kn) :
    Takes Sees (endsBeforeSeparator ops keys items index) S (.ok true) S := by
  unfold endsBeforeSeparator
  split
  · have found : items[index + 1]? = some items[index + 1] := getElem?_eq_getElem (by omega)
    refine takesBind (takesNodeKeyAt atLast) (takesBind (takesKeyAt found) ?_)
    have less : ops.compare k items[index + 1].1 < 0 := (ordered.less _ _).mpr (ends _ items[index + 1].2 found)
    rw [decide_eq_true less]
    exact takesPure
  · exact takesPure

theorem takesValidateInParent (ordered : ops.Ordered) (tree : Tree bpInvalidPageNum S.node lab S.header.rootPage height)
    (atP : lab p = some ⟨level,lo,hi⟩) (parentP : (S.node p).parent = parent)
    (starts : p ≠ S.header.rootPage → ∃ k, keys[first]? = some k ∧ lo ≤ key k)
    (ends : p ≠ S.header.rootPage → ∃ k, keys[keys.length - 1]? = some k ∧ key k < hi) :
    Takes Sees (validateInParent ops p parent keys first) S (.ok true) S := by
  unfold validateInParent
  by_cases top : parent = bpInvalidPageNum
  · rw [if_pos top]
    exact takesPure
  have notRoot : p ≠ S.header.rootPage := by
    rintro rfl
    exact top (parentP ▸ tree.rootParent)
  rw [if_neg top]
  refine takesBind (takesAttempt (takesPeekPage parent)) ?_
  obtain ⟨above,atQ,-,child⟩ := tree.up p _ atP notRoot
  rw [parentP] at atQ child
  have okQ := tree.nodes parent _ atQ
  cases nodeQ : S.node parent with
  | leaf _ _ _ => simp [nodeQ,Node.children] at child
  | internal grand items =>
    rw [nodeQ] at okQ child
    obtain ⟨-,lower,-,seg⟩ := okQ
    refine takesBind (takesInternalView nodeQ) ?_
    obtain ⟨⟨kp,c⟩,inside,same⟩ := mem_map.mp child
    subst same
    dsimp only
    cases position : valueIndex c items with
    | none =>
      have := findIdx?_eq_none_iff.mp position (kp,c) inside
      simp at this
    | some index =>
      obtain ⟨bound,here,-⟩ := findIdx?_eq_some_iff_getElem.mp position
      have found : items[index]? = some (items[index].1,c) := by
        rw [getElem?_eq_getElem bound]
        exact congrArg some (Prod.ext rfl (by simpa using here))
      obtain ⟨before,after⟩ := separators seg atP found
      obtain ⟨k,atFirst,startsK⟩ := starts notRoot
      obtain ⟨k',atLast,endsK⟩ := ends notRoot
      refine takesBind (takesStartsAt ordered atFirst found fun notFirst => ?_)
        (takesEndsBefore ordered atLast fun kn c' next => ?_)
      · exact keyLe.mp (before notFirst ▸ startsK)
      · exact keyLt.mp (after kn c' next ▸ endsK)

theorem validateShape (good : Good S S.node lab height (fun _ => False)) (atP : lab p = some ⟨level,lo,hi⟩) :
    IndexNodeHandler.validate (S.node p) = true := by
  unfold IndexNodeHandler.validate
  split
  · rename_i top
    have sized := (good.sized p _ atP id).1
    rw [fill,if_pos (good.tree.rootOfNil atP top)] at sized
    split at sized
    · rename_i leaf
      simp [leaf,sized]
    · simp only [Bool.and_eq_true,decide_eq_true_eq,Bool.or_eq_true]
      exact ⟨by omega,.inr sized⟩
  · rfl

omit [LinearOrder K] in
theorem takesChildrenNameParent (named : ∀ item ∈ items, (S.node item.2).parent = p) :
    Takes Sees (childrenNameParent p items) S (.ok true) S := by
  induction items with
  | nil => exact takesPure
  | cons item rest ih =>
    have later := ih fun item inside => named item (mem_cons_of_mem _ inside)
    unfold childrenNameParent
    split
    · exact later
    · refine takesBind (takesAttempt (takesPeekPage _)) (takesBind (takesGetNode _) ?_)
      rw [if_pos (named item (by simp))]
      exact later

section
variable (ordered : ops.Ordered) (good : Good S S.node lab height (fun _ => False))
include ordered good

theorem takesLeafValidate {next items} (atP : lab p = some ⟨level,lo,hi⟩)
    (leaf : S.node p = .leaf parent next items) : Takes Sees (LeafIndexNodeHandler.validate ops p) S (.ok true) S := by
  have shape := validateShape good atP
  have filled := good.filled atP
  have ok := good.tree.nodes p _ atP
  rw [leaf] at shape filled ok
  obtain ⟨-,-,sorted,within,-⟩ := ok
  have increase : keysIncrease ops (items.map Prod.fst) = true :=
    keysIncreaseSorted ordered (pairwise_map.mpr sorted)
  have inside : ∀ index, index < items.length → ∃ k, (items.map Prod.fst)[index]? = some k ∧ lo ≤ key k ∧ key k < hi := by
    intro index bound
    refine ⟨items[index].1,by simp [getElem?_eq_getElem bound],?_⟩
    exact within items[index] (getElem_mem bound)
  have some : 0 < items.length := Nat.pos_of_ne_zero filled
  refine takesBind (takesLeafView leaf) ?_
  dsimp only
  rw [shape,increase,if_neg (by simp),if_neg (by simp)]
  refine takesValidateInParent ordered good.tree atP (by rw [leaf]; rfl) (fun _ => ?_) fun _ => ?_
  · obtain ⟨k,found,starts,-⟩ := inside 0 some
    exact ⟨k,found,starts⟩
  · obtain ⟨k,found,-,ends⟩ := inside (items.length - 1) (by omega)
    exact ⟨k,by rwa [length_map],ends⟩

theorem takesInternalValidate {items} (atP : lab p = some ⟨level,lo,hi⟩)
    (node : S.node p = .internal parent items) :
    Takes Sees (validate ops p) S (.ok true) S := by
  have shape := validateShape good atP
  have sized := (good.sized p _ atP id).1
  have six := good.maxSize (S.node p)
  have ok := good.tree.nodes p _ atP
  have named : ∀ item ∈ items, (S.node item.2).parent = p := by
    intro item inside
    refine good.tree.down p _ item.2 atP ?_
    rw [node]
    exact mem_map_of_mem inside
  rw [node] at shape ok sized six
  obtain ⟨-,lower,-,seg⟩ := ok
  have increase : keysIncrease ops (items.map Prod.fst).tail = true :=
    keysIncreaseSorted ordered (segSorted seg)
  refine takesBind (takesInternalView node) ?_
  dsimp only
  rw [shape,increase,if_neg (by simp),if_neg (by simp)]
  refine takesBind (takesChildrenNameParent named) ?_
  rw [if_neg (by simp)]
  have two : p ≠ S.header.rootPage → 2 ≤ items.length := by
    intro notRoot
    rw [fill,if_neg notRoot] at sized
    have : (Node.internal parent items : IndexNode K).size = items.length := rfl
    omega
  have inside : ∀ index, 1 ≤ index → index < items.length →
      ∃ k, (items.map Prod.fst)[index]? = some k ∧ lo ≤ key k ∧ key k < hi := by
    intro index later bound
    refine ⟨items[index].1,by simp [getElem?_eq_getElem bound],?_⟩
    have range := segTail seg items[index] (by
      rw [mem_iff_getElem]
      exact ⟨index - 1,by rw [length_tail]; omega,by simp [getElem_tail,Nat.sub_add_cancel later]⟩)
    exact ⟨range.1.le,range.2⟩
  refine takesValidateInParent ordered good.tree atP (by rw [node]; rfl) (fun notRoot => ?_) fun notRoot => ?_
  · obtain ⟨k,found,starts,-⟩ := inside 1 (le_refl _) (two notRoot)
    exact ⟨k,found,starts⟩
  · obtain ⟨k,found,-,ends⟩ := inside (items.length - 1) (by have := two notRoot; omega) (by have := two notRoot; omega)
    exact ⟨k,by rwa [length_map],ends⟩

end

omit [LinearOrder K] in
theorem takesValidateChildren {recurse}
    (children : ∀ item ∈ items, Takes Sees (recurse item.2) S (.ok true) S) :
    Takes Sees (validateChildren recurse items) S (.ok true) S := by
  induction items with
  | nil => exact takesPure
  | cons item rest ih =>
    exact takesBind (takesAttempt (takesGetPage _)) (takesBind (children item (by simp))
      (ih fun item inside => children item (mem_cons_of_mem _ inside)))

theorem takesValidateNode (ordered : ops.Ordered) (good : Good S S.node lab height (fun _ => False)) :
    ∀ {level fuel : Nat} {p : PageNum} {lo hi : Bound K}, lab p = some ⟨level,lo,hi⟩ → level < fuel →
    Takes Sees (validateNodeRecursive ops fuel p) S (.ok true) S := by
  intro level
  induction level using Nat.strong_induction_on with
  | _ level ih =>
    intro fuel p lo hi atP enough
    obtain ⟨fuel,rfl⟩ : ∃ f, fuel = f + 1 := ⟨fuel - 1,by omega⟩
    refine takesBind (takesGetNode p) ?_
    cases node : S.node p with
    | leaf parent next items => exact takesLeafValidate ordered good atP node
    | internal parent items =>
      refine takesBind (takesInternalValidate ordered good atP node) (takesValidateChildren fun item inside => ?_)
      obtain ⟨lower,low,high,atC,below,-⟩ := good.tree.childLabel atP (c := item.2) (by
        rw [node]
        exact mem_map_of_mem inside)
      simp only at below
      exact ih lower (by omega) atC (by omega)

/-! ### The leaf chain -/

theorem leafOfRow (good : Good S S.node lab height (fun _ => False)) {rest}
    (row : Row lab lo (p :: rest) ⊤) : ∃ mid parent items first last,
    Row lab mid rest ⊤ ∧ S.node p = .leaf parent (rest.headD bpInvalidPageNum) items ∧
      (items.map Prod.fst)[0]? = some first ∧ (items.map Prod.fst)[items.length - 1]? = some last ∧
      lo ≤ key first ∧ key last < mid ∧ p ≠ bpInvalidPageNum := by
  have chain := (good.tree.rowChain row).1
  obtain ⟨mid,-,atP,tail⟩ := row
  have filled := good.filled atP
  have valid : p ≠ bpInvalidPageNum := allocatedValid (good.allocated p _ atP)
  obtain ⟨parent,next,items,node,-,within,-⟩ := good.tree.leafNode atP
  rw [node] at chain filled
  obtain rfl : next = rest.headD bpInvalidPageNum := Option.some.inj chain
  have some : 0 < items.length := Nat.pos_of_ne_zero filled
  have bound : items.length - 1 < items.length := by omega
  refine ⟨mid,parent,items,items[0].1,items[items.length - 1].1,tail,node,?_,?_,?_,?_,valid⟩
  · simp [getElem?_eq_getElem some]
  · simp [getElem?_eq_getElem bound]
  · exact (within _ (getElem_mem some)).1
  · exact (within _ (getElem_mem bound)).2

theorem takesValidateLinks (ordered : ops.Ordered) (good : Good S S.node lab height (fun _ => False)) :
    ∀ {ps : List PageNum} {prev : K} {mid : Bound K} {fuel : Nat}, Row lab mid ps ⊤ → key prev < mid →
    ps.length < fuel → Takes Sees (validateLinks ops fuel prev (ps.headD bpInvalidPageNum)) S (.ok true) S := by
  intro ps
  induction ps with
  | nil =>
    intro prev mid fuel row before enough
    obtain ⟨fuel,rfl⟩ : ∃ f, fuel = f + 1 := ⟨fuel - 1,by simp only [length_nil] at enough; omega⟩
    rw [validateLinks,headD_nil,if_pos rfl]
    exact takesPure
  | cons p rest ih =>
    intro prev mid fuel row before enough
    obtain ⟨fuel,rfl⟩ : ∃ f, fuel = f + 1 := ⟨fuel - 1,by omega⟩
    obtain ⟨mid',parent,items,first,last,tail,node,atFirst,atLast,starts,ends,valid⟩ := leafOfRow good row
    rw [validateLinks,headD_cons,if_neg valid]
    refine takesBind (takesAttempt (takesGetPage p)) (takesBind (takesLeafView node)
      (takesBind (takesNodeKeyAt atFirst) (takesBind (takesNodeKeyAt atLast) ?_)))
    have less := (ordered.less prev first).mpr (keyLt.mp (before.trans_le starts))
    rw [if_neg (by omega)]
    exact ih tail ends (by simp only [length_cons] at enough; omega)

theorem takesValidateLeafLink (ordered : ops.Ordered) (good : Good S S.node lab height (fun _ => False)) :
    Takes Sees (validateLeafLink ops) S (.ok true) S := by
  refine takesBind takesIsEmpty ?_
  rw [if_neg (by simpa using good.notEmpty)]
  obtain ⟨c,high,atC,run⟩ := takesLeftMostPage good.tree good.heightLt
  have row := good.tree.leavesRow good.tree.rootLabel (Nat.lt_succ_self height)
  have length := rowLength row natOf (fun p label found => (good.allocated p label found).2.1)
    fun p q a b atP atQ same => natOfInj (by have := (good.allocated p a atP).1; omega) same
  cases pages : leaves S.node (height + 1) S.header.rootPage with
  | nil =>
    rw [pages] at row
    exact absurd (show (⊥ : Bound K) = ⊤ from row) bot_ne_top
  | cons p rest =>
    rw [pages] at row length
    obtain ⟨mid,parent,items,first,last,tail,node,-,atLast,-,ends,-⟩ := leafOfRow good row
    obtain ⟨top,order,atP,-⟩ := row
    have orderC : (⊥ : Bound K) < high := nodeOkLt (good.tree.nodes c _ atC)
    obtain rfl : c = p := good.tree.unique atC atP rfl ⟨le_refl _,orderC⟩ ⟨le_refl _,order⟩
    exact takesBind (takesAttempt run) (takesBind (takesLeafView node) (takesBind (takesNodeKeyAt atLast)
      (takesBind takesPageCount (takesValidateLinks ordered good tail ends (by
        simp only [length_cons] at length
        omega)))))

theorem takesValidateTree (ordered : ops.Ordered) {E} (content : Content S E) :
    Takes Sees (validateTree ops) S (.ok true) S := by
  refine takesBind takesIsEmpty ?_
  rcases content with ⟨vacant,-⟩ | ⟨lab,height,good,-⟩
  · rw [if_pos (by simpa using vacant.root)]
    exact takesPure
  · rw [if_neg (by simpa using good.notEmpty)]
    refine takesBind takesGetHeader (takesBind (takesAttempt (takesGetPage _)) (takesBind takesPageCount
      (takesBind (takesValidateNode ordered good good.tree.rootLabel good.heightLt) ?_)))
    exact takesBind (takesValidateLeafLink ordered good) (takesBind takesReleaseAll takesPure)

end
end MiniOb.BplusTree
