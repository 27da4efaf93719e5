import MiniOb.Cascade.Tasks

/-! What recording an operator tree leaves in the memo: one expression and one group for each distinct subtree,
children before parents. -/
namespace MiniOb.Cascade
open List LogicalOperator OperatorNode

mutual
def subtrees : LogicalOperator → List LogicalOperator
  | .node kind children => .node kind children :: subtreesOf children

def subtreesOf : List LogicalOperator → List LogicalOperator
  | [] => []
  | child :: rest => subtrees child ++ subtreesOf rest
end

def LogicalOperator.hasProp : LogicalOperator → Bool
  | .node .projection _ => true
  | .node (.tableGet _) _ => true
  | .node .join [_,_] => true
  | _ => false

def LogicalOperator.joinKnown : LogicalOperator → Bool
  | .node .join [left,right] => left.hasProp && right.hasProp
  | _ => true

theorem operatorInduction {P : LogicalOperator → Prop}
    (step : ∀ kind children,(∀ c ∈ children,P c) → P (.node kind children)) (t : LogicalOperator) : P t := by
  match t with
  | .node kind children => exact step kind children fun c mem => operatorInduction step c
termination_by sizeOf t
decreasing_by
  have smaller := sizeOf_lt_of_mem mem
  simp only [node.sizeOf_spec]
  omega

variable {t u : LogicalOperator} {children : List LogicalOperator} {kind : LogicalKind}

theorem memSubtreesOf : t ∈ subtreesOf children ↔ ∃ c ∈ children,t ∈ subtrees c := by
  induction children with
  | nil => simp [subtreesOf]
  | cons child rest ih => simp [subtreesOf,ih]

theorem memSubtrees :
    t ∈ subtrees (.node kind children) ↔ t = .node kind children ∨ ∃ c ∈ children,t ∈ subtrees c := by
  simp [subtrees,memSubtreesOf]

theorem subtreesSelf (t : LogicalOperator) : t ∈ subtrees t := by
  cases t with
  | node kind children => exact memSubtrees.2 (.inl rfl)

theorem subtreesSmaller (t : LogicalOperator) : ∀ x ∈ subtrees t,sizeOf x ≤ sizeOf t := by
  induction t using operatorInduction with
  | step kind children ih =>
    intro x mem
    rcases memSubtrees.1 mem with rfl | ⟨c,isChild,below⟩
    · exact le_refl _
    · have smaller := sizeOf_lt_of_mem isChild
      have atMost := ih c isChild x below
      simp only [node.sizeOf_spec]
      omega

theorem notBelowItself : .node kind children ∉ subtreesOf children := by
  intro mem
  obtain ⟨c,isChild,below⟩ := memSubtreesOf.1 mem
  have smaller := sizeOf_lt_of_mem isChild
  have atMost := subtreesSmaller c _ below
  simp only [node.sizeOf_spec] at atMost
  omega

mutual
theorem sameOperatorSelf : ∀ t,sameOperator t t = true
  | .node kind children => by
    have below := sameChildrenSelf children
    cases kind <;> simp [sameOperator,below]

theorem sameChildrenSelf : ∀ children,sameChildren children children = true
  | [] => by simp [sameChildren]
  | child :: rest => by simp [sameChildren,sameOperatorSelf child,sameChildrenSelf rest]
end

theorem sameNodeSelf (x : OperatorNode) : sameNode x x = true := by
  simp only [sameNode,beq_self_eq_true,Bool.true_and]
  cases x.table with
  | none => exact sameChildrenSelf _
  | some i => simp

theorem kindOfType {a b : LogicalKind} (type : a.opType = b.opType) : a = b ∨ ∃ i j,a = .tableGet i ∧ b = .tableGet j := by
  cases a <;> cases b <;> first | exact .inl rfl | exact .inr ⟨_,_,rfl,rfl⟩ | cases type

theorem logicalType (a : LogicalKind) (b : PhysicalKind) : a.opType ≠ b.opType := by
  cases a <;> cases b <;> exact nofun

theorem sameNodeKind (same : sameNode (.logical t) (.logical u) = true) : t.kind = u.kind := by
  obtain ⟨a,as⟩ := t
  obtain ⟨b,bs⟩ := u
  simp only [sameNode,opType,kind,Bool.and_eq_true,beq_iff_eq] at same
  rcases kindOfType same.1 with equal | ⟨i,j,rfl,rfl⟩
  · exact equal
  · simpa [table,kind] using same.2

theorem logicalNotPhysical (t : LogicalOperator) (kind : PhysicalKind) (children : List LogicalOperator) :
    sameNode (.logical t) (.physical kind children) = false ∧ sameNode (.physical kind children) (.logical t) = false := by
  have apart := logicalType t.kind kind
  simp [sameNode,opType,apart,Ne.symm apart]

/- The memo holds the plans: expression `i` and group `i` are plan `i`, and what follows is physical. -/
structure MemoOf (m : Memo) (plans : List LogicalOperator) : Prop where
  nodup : plans.Nodup
  groupCount : m.groups.length = plans.length
  expr : ∀ (i : Nat) (t : LogicalOperator),plans[i]? = some t →
    ∃ e : GroupExpr,m.exprs[i]? = some e ∧ e.contents = .logical t ∧ e.groupId = i ∧
    List.Forall₂ (fun c k => plans[k]? = some c ∧ k < i) t.children e.childGroups
  rest : ∀ (i : Nat) (e : GroupExpr),plans.length ≤ i → m.exprs[i]? = some e → ∃ kind children,e.contents = .physical kind children
  prop : ∀ (i : Nat) (t : LogicalOperator) (g : Group),plans[i]? = some t → m.groups[i]? = some g → g.prop.isSome = t.hasProp

structure Untouched (m : Memo) (i : Nat) : Prop where
  group : ∃ prop,m.groups[i]? = some {logical := [i],prop}
  expr : ∀ e : GroupExpr,m.exprs[i]? = some e → e.ruleMask = []

def groupsOf (plans : List LogicalOperator) (children : List LogicalOperator) (groups : List Nat) : Prop :=
  List.Forall₂ (fun c k => plans[k]? = some c) children groups

section Plans
variable {m : Memo} {plans : List LogicalOperator} {t : LogicalOperator} {groups : List Nat} {rowNums : Int32 → Int}

variable {children : List LogicalOperator} {i : Nat} {e : GroupExpr} {u : LogicalOperator}

theorem groupsOfUnique {groups'} (nodup : plans.Nodup)
    (one : groupsOf plans children groups) (other : groupsOf plans children groups') : groups = groups' := by
  induction one generalizing groups' with
  | nil =>
    cases other
    rfl
  | cons here _ ih =>
    cases other with
    | cons here' rest' =>
      obtain ⟨inside,_⟩ := List.getElem?_eq_some_iff.1 here
      rw [ih rest',(getElem?_inj inside nodup).1 (here.trans here'.symm)]

theorem childrenOfGroups {children'} (one : groupsOf plans children groups)
    (other : groupsOf plans children' groups) : children = children' := by
  induction one generalizing children' with
  | nil =>
    cases other
    rfl
  | cons here _ ih =>
    cases other with
    | cons here' rest' => rw [ih rest',Option.some.inj (here.symm.trans here')]

theorem exprGroups (held : MemoOf m plans) (isPlan : plans[i]? = some t)
    (isExpr : m.exprs[i]? = some e) : e.contents = .logical t ∧ e.groupId = i ∧ groupsOf plans t.children e.childGroups := by
  obtain ⟨e',isExpr',contents,group,below⟩ := held.expr i t isPlan
  cases Option.some.inj (isExpr.symm.trans isExpr')
  exact ⟨contents,group,below.imp fun _ _ both => both.1⟩

theorem foundIff (held : MemoOf m plans) (below : groupsOf plans t.children groups) (isExpr : m.exprs[i]? = some e) :
    (sameNode e.contents (.logical t) && e.childGroups == groups) = true ↔ plans[i]? = some t := by
  cases known : plans[i]? with
  | none =>
    obtain ⟨kind,children,contents⟩ := held.rest i e (getElem?_eq_none_iff.1 known) isExpr
    simp [contents,(logicalNotPhysical t kind children).2]
  | some u =>
    obtain ⟨contents,_,below'⟩ := exprGroups held known isExpr
    constructor
    · intro found
      simp only [contents,Bool.and_eq_true,beq_iff_eq] at found
      obtain ⟨same,sameGroups⟩ := found
      have sameKind := sameNodeKind same
      have sameBelow := childrenOfGroups (sameGroups ▸ below') below
      obtain ⟨a,as⟩ := u
      obtain ⟨b,bs⟩ := t
      simp only [kind,children] at sameKind sameBelow
      rw [sameKind,sameBelow]
    · intro same
      cases Option.some.inj same
      simp [contents,sameNodeSelf,groupsOfUnique held.nodup below' below]

theorem insertKnown (t : LogicalOperator) (held : MemoOf m plans) (below : groupsOf plans t.children groups)
    (known : plans[i]? = some t) (rowNums : Int32 → Int) (target : Option Nat) :
    m.insertExpression rowNums (.logical t) groups target = .ok (i,false,m) := by
  obtain ⟨e,isExpr,_⟩ := held.expr i t known
  obtain ⟨inside,isExpr'⟩ := List.getElem?_eq_some_iff.1 isExpr
  have found : m.exprs.findIdx? (fun e => sameNode e.contents (.logical t) && e.childGroups == groups) = some i := by
    rw [findIdx?_eq_some_iff_getElem]
    refine ⟨inside,?_,?_⟩
    · rw [isExpr']
      exact (foundIff held below isExpr).2 known
    · intro j before found
      have knownToo := (foundIff held below (getElem?_eq_getElem (Nat.lt_trans before inside))).1 found
      obtain ⟨small,_⟩ := List.getElem?_eq_some_iff.1 knownToo
      have := (getElem?_inj small held.nodup).1 (knownToo.trans known.symm)
      omega
  simp [Memo.insertExpression,found]

theorem notFound (held : MemoOf m plans) (below : groupsOf plans t.children groups) (isNew : t ∉ plans) :
    m.exprs.findIdx? (fun e => sameNode e.contents (.logical t) && e.childGroups == groups) = none := by
  rw [findIdx?_eq_none_iff]
  intro e mem
  obtain ⟨i,isExpr⟩ := mem_iff_getElem?.1 mem
  have noPlan : ¬ plans[i]? = some t := fun known => isNew (mem_of_getElem? known)
  exact Bool.eq_false_iff.2 fun found => noPlan ((foundIff held below isExpr).1 found)

theorem childPropsOf (held : MemoOf m plans) (below : groupsOf plans children groups) :
    List.Forall₂ (fun c (p : Option Int) => p.isSome = c.hasProp) children (m.childProps groups) := by
  induction below with
  | nil => exact .nil
  | @cons c k _ _ here _ ih =>
    obtain ⟨inside,_⟩ := List.getElem?_eq_some_iff.1 here
    have isGroup := getElem?_eq_getElem (held.groupCount ▸ inside : k < m.groups.length)
    refine .cons ?_ ih
    simpa [isGroup] using held.prop k c _ here isGroup

theorem findLogPropOf (rowNums : Int32 → Int) (kind : LogicalKind) {props}
    (known : List.Forall₂ (fun c (p : Option Int) => p.isSome = c.hasProp) children props) :
    if (node kind children).joinKnown then
      ∃ prop,findLogProp rowNums kind props = .ok prop ∧ prop.isSome = (node kind children).hasProp
    else findLogProp rowNums kind props = .error .abort := by
  cases kind with
  | join =>
    match children,props,known with
    | [],_,.nil => exact ⟨none,rfl,rfl⟩
    | [_],_,.cons _ .nil => exact ⟨none,rfl,rfl⟩
    | [l,r],[p,q],.cons left (.cons right .nil) =>
      have both : (node .join [l,r]).joinKnown = (p.isSome && q.isSome) := by
        rw [left,right]
        rfl
      rw [both]
      cases p with
      | none => exact rfl
      | some x =>
        cases q with
        | none => exact rfl
        | some y => exact ⟨some (x * y),rfl,rfl⟩
    | _ :: _ :: _ :: _,_ :: _ :: _ :: _,_ => exact ⟨none,rfl,rfl⟩
  | _ => exact ⟨_,rfl,rfl⟩

structure Fresh (m : Memo) (plans : List LogicalOperator) : Prop extends MemoOf m plans where
  exprCount : m.exprs.length = plans.length
  untouched : ∀ i < plans.length,Untouched m i

theorem freshEmpty : Fresh {} [] where
  nodup := nodup_nil
  groupCount := rfl
  expr := by simp
  rest := by simp
  prop := by simp
  exprCount := rfl
  untouched := by simp

theorem groupsOfMono {more} (below : groupsOf plans children groups)
    (longer : plans <+: more) : groupsOf more children groups :=
  below.imp fun _ _ here => by
    obtain ⟨inside,same⟩ := List.getElem?_eq_some_iff.1 here
    rw [prefix_iff_getElem?.1 longer _ inside,same]

def extended (m : Memo) (t : LogicalOperator) (groups : List Nat) (prop : Option Int) : Memo where
  exprs := m.exprs ++ [{contents := .logical t,childGroups := groups,groupId := m.groups.length}]
  groups := m.groups ++ [{logical := [m.exprs.length],prop}]

theorem addToNewGroup (prop : Option Int) : Memo.addExpr {m with groups := m.groups ++ [{prop := prop}]}
      {contents := .logical t,childGroups := groups,groupId := m.groups.length} = extended m t groups prop := by
  simp [Memo.addExpr,extended,isPhysical,modify_eq_take_drop]

theorem planCases (isPlan : (plans ++ [t])[i]? = some u) :
    (i < plans.length ∧ plans[i]? = some u) ∨ (i = plans.length ∧ u = t) := by
  rcases Nat.lt_trichotomy i plans.length with before | rfl | after
  · exact .inl ⟨before,by rwa [getElem?_append_left before] at isPlan⟩
  · exact .inr ⟨rfl,by simpa using isPlan.symm⟩
  · have := (List.getElem?_eq_some_iff.1 isPlan).1
    simp only [length_append,length_singleton] at this
    omega

theorem planKept (isPlan : plans[i]? = some u) : (plans ++ [t])[i]? = some u :=
  (List.getElem?_append_left (List.getElem?_eq_some_iff.1 isPlan).1).trans isPlan

section Extended
variable (fresh : Fresh m plans) {prop : Option Int}
include fresh

variable {i : Nat}

theorem extendedExpr (before : i < plans.length) : (extended m t groups prop).exprs[i]? = m.exprs[i]? :=
  getElem?_append_left (fresh.exprCount ▸ before)

theorem extendedNewExpr : (extended m t groups prop).exprs[plans.length]? =
    some {contents := .logical t,childGroups := groups,groupId := plans.length} := by
  simp [extended,← fresh.exprCount,fresh.groupCount]

theorem extendedGroup (before : i < plans.length) : (extended m t groups prop).groups[i]? = m.groups[i]? :=
  getElem?_append_left (fresh.groupCount ▸ before)

theorem extendedNewGroup : (extended m t groups prop).groups[plans.length]? = some {logical := [plans.length],prop} := by
  simp [extended,← fresh.groupCount,fresh.exprCount]

theorem freshExtended (below : groupsOf plans t.children groups) (isNew : t ∉ plans) (known : prop.isSome = t.hasProp) :
    Fresh (extended m t groups prop) (plans ++ [t]) where
  nodup := by simpa [nodup_append] using ⟨fresh.nodup,fun x mem same => isNew (same ▸ mem)⟩
  groupCount := by simp [extended,fresh.groupCount]
  expr := by
    intro i u isPlan
    rcases planCases isPlan with ⟨before,isOld⟩ | ⟨rfl,rfl⟩
    · obtain ⟨e,isExpr,contents,group,children⟩ := fresh.expr i u isOld
      exact ⟨e,(extendedExpr fresh before).trans isExpr,contents,group,
        children.imp fun c k both => ⟨planKept both.1,both.2⟩⟩
    · exact ⟨_,extendedNewExpr fresh,rfl,rfl,
        below.imp fun c k here => ⟨planKept here,(List.getElem?_eq_some_iff.1 here).1⟩⟩
  rest := by
    intro i e outside isExpr
    have inside := (List.getElem?_eq_some_iff.1 isExpr).1
    simp only [extended,length_append,length_singleton,fresh.exprCount] at inside outside
    omega
  prop := by
    intro i u g isPlan isGroup
    rcases planCases isPlan with ⟨before,isOld⟩ | ⟨rfl,rfl⟩
    · exact fresh.prop i u g isOld ((extendedGroup fresh before).symm.trans isGroup)
    · cases Option.some.inj (isGroup.symm.trans (extendedNewGroup fresh))
      exact known
  exprCount := by simp [extended,fresh.exprCount]
  untouched := by
    intro i inside
    rcases Nat.lt_or_ge i plans.length with before | after
    · have old := fresh.untouched i before
      exact ⟨(extendedGroup fresh before).symm ▸ old.group,(extendedExpr fresh before).symm ▸ old.expr⟩
    · have last : i = plans.length := by
        simp only [length_append,length_singleton] at inside
        omega
      subst last
      refine ⟨⟨prop,extendedNewGroup fresh⟩,fun e isExpr => ?_⟩
      cases Option.some.inj (isExpr.symm.trans (extendedNewExpr fresh))
      rfl

end Extended

theorem insertPlan (rowNums : Int32 → Int) (t : LogicalOperator) (fresh : Fresh m plans)
    (below : groupsOf plans t.children groups) (isNew : t ∉ plans) :
    if t.joinKnown then
      ∃ m',m.insertExpression rowNums (.logical t) groups none = .ok (plans.length,true,m') ∧ Fresh m' (plans ++ [t])
    else m.insertExpression rowNums (.logical t) groups none = .error .abort := by
  have nothing := notFound fresh.toMemoOf below isNew
  have props := findLogPropOf rowNums t.kind (childPropsOf fresh.toMemoOf below)
  obtain ⟨kind,children⟩ := t
  simp only [LogicalOperator.kind,LogicalOperator.children] at props
  cases known : (LogicalOperator.node kind children).joinKnown with
  | true =>
    simp only [known,if_true] at props
    obtain ⟨prop,found,isKnown⟩ := props
    refine ⟨extended m (.node kind children) groups prop,?_,freshExtended fresh below isNew isKnown⟩
    simp [Memo.insertExpression,nothing,Memo.newGroupProp,LogicalOperator.kind,found,addToNewGroup,fresh.exprCount]
  | false =>
    have failed : findLogProp rowNums kind (m.childProps groups) = .error .abort := by simpa [known] using props
    simp [Memo.insertExpression,nothing,Memo.newGroupProp,LogicalOperator.kind,failed]

end Plans

def Joined (t : LogicalOperator) : Prop := ∀ u ∈ subtrees t,u.joinKnown = true

theorem subtreesTrans : ∀ u ∈ subtrees t,∀ x ∈ subtrees u,x ∈ subtrees t := by
  induction t using operatorInduction with
  | step kind children ih =>
    intro u mem x below
    rcases memSubtrees.1 mem with rfl | ⟨c,isChild,inside⟩
    · exact below
    · exact memSubtrees.2 (.inr ⟨c,isChild,ih c isChild u inside x below⟩)

theorem joinedBelow (joined : Joined t) (mem : u ∈ subtrees t) : Joined u :=
  fun x below => joined x (subtreesTrans u mem x below)

theorem joinedNode :
    Joined (.node kind children) ↔ (∀ c ∈ children,Joined c) ∧ (node kind children).joinKnown = true := by
  constructor
  · intro joined
    exact ⟨fun c isChild => joinedBelow joined (memSubtrees.2 (.inr ⟨c,isChild,subtreesSelf c⟩)),joined _ (subtreesSelf _)⟩
  · rintro ⟨below,here⟩ u mem
    rcases memSubtrees.1 mem with rfl | ⟨c,isChild,inside⟩
    · exact here
    · exact below c isChild u inside

section Record
variable (rowNums : Int32 → Int)

structure Recorded (plans more : List LogicalOperator) (added : List LogicalOperator) (m : Memo) : Prop where
  fresh : Fresh m more
  grows : plans <+: more
  origin : ∀ x ∈ more,x ∈ plans ∨ x ∈ added
  joined : ∀ x ∈ more,Joined x

def RecordsChild (t : LogicalOperator) : Prop := ∀ m plans,Fresh m plans → (∀ x ∈ plans,Joined x) →
  (Joined t → ∃ i m' more,recordChild rowNums t m = .ok (i,m') ∧ more[i]? = some t ∧ Recorded plans more (subtrees t) m') ∧
  (¬ Joined t → recordChild rowNums t m = .error .abort)

variable {children plans : List LogicalOperator} {m : Memo}

theorem recordsChildren (each : ∀ c ∈ children,RecordsChild rowNums c) (fresh : Fresh m plans) (joined : ∀ x ∈ plans,Joined x) :
    ((∀ c ∈ children,Joined c) → ∃ groups m' more,recordChildren rowNums children m = .ok (groups,m') ∧
      groupsOf more children groups ∧ Recorded plans more (subtreesOf children) m') ∧
    (¬ (∀ c ∈ children,Joined c) → recordChildren rowNums children m = .error .abort) := by
  induction children generalizing m plans with
  | nil =>
    refine ⟨fun _ => ⟨[],m,plans,by simp [recordChildren],.nil,fresh,prefix_refl _,fun x mem => .inl mem,joined⟩,?_⟩
    intro bad
    exact absurd (by simp) bad
  | cons child rest ih =>
    obtain ⟨works,fails⟩ := each child (by simp) m plans fresh joined
    by_cases first : Joined child
    · obtain ⟨i,m',more,ran,isPlan,recorded⟩ := works first
      obtain ⟨works',fails'⟩ := ih (fun c mem => each c (mem_cons_of_mem _ mem)) recorded.fresh recorded.joined
      constructor
      · intro all
        obtain ⟨groups,m'',most,ran',below,recorded'⟩ := works' fun c mem => all c (mem_cons_of_mem _ mem)
        have here : groupsOf most [child] [i] := groupsOfMono (.cons isPlan .nil) recorded'.grows
        refine ⟨i :: groups,m'',most,by simp [recordChildren,ran,ran'],?_,recorded'.fresh,recorded.grows.trans recorded'.grows,
          ?_,recorded'.joined⟩
        · cases here with
          | cons isThere _ => exact .cons isThere below
        · intro x mem
          simp only [subtreesOf,mem_append]
          rcases recorded'.origin x mem with old | new
          · exact (recorded.origin x old).imp_right .inl
          · exact .inr (.inr new)
      · intro bad
        have badRest : ¬ ∀ c ∈ rest,Joined c := fun all => bad (forall_mem_cons.2 ⟨first,all⟩)
        simp [recordChildren,ran,fails' badRest]
    · constructor
      · intro all
        exact absurd (all child (by simp)) first
      · intro _
        simp [recordChildren,fails first]

theorem recordsChild (t : LogicalOperator) : RecordsChild rowNums t := by
  induction t using operatorInduction with
  | step kind children ih =>
    intro m plans fresh joined
    obtain ⟨works,fails⟩ := recordsChildren rowNums ih fresh joined
    by_cases below : ∀ c ∈ children,Joined c
    · obtain ⟨groups,m',more,ran,kids,recorded⟩ := works below
      by_cases known : .node kind children ∈ more
      · -- the plan is in the memo, so its join is known
        have isJoined := recorded.joined _ known
        refine ⟨fun _ => ?_,fun bad => absurd isJoined bad⟩
        obtain ⟨i,isPlan⟩ := mem_iff_getElem?.1 known
        obtain ⟨e,isExpr,_,group,_⟩ := recorded.fresh.expr i _ isPlan
        refine ⟨i,m',more,?_,isPlan,recorded.fresh,recorded.grows,?_,recorded.joined⟩
        · have found := insertKnown (.node kind children) recorded.fresh.toMemoOf kids isPlan rowNums none
          simp [recordChild,ran,found,isExpr,group]
        · exact fun x mem => (recorded.origin x mem).imp_right fun inside => by simp [subtrees,inside]
      · have inserted := insertPlan rowNums (.node kind children) recorded.fresh kids known
        constructor
        · intro isJoined
          rw [if_pos (joinedNode.1 isJoined).2] at inserted
          obtain ⟨m'',ran',fresh'⟩ := inserted
          obtain ⟨e,isExpr,_,group,_⟩ := fresh'.expr more.length (.node kind children) (by simp)
          refine ⟨more.length,m'',more ++ [.node kind children],by simp [recordChild,ran,ran',isExpr,group],by simp,fresh',
            recorded.grows.trans (prefix_append _ _),?_,?_⟩
          · intro x mem
            rcases mem_append.1 mem with old | new
            · exact (recorded.origin x old).imp_right fun inside => by simp [subtrees,inside]
            · exact .inr (by simp_all [subtrees])
          · intro x mem
            rcases mem_append.1 mem with old | new
            · exact recorded.joined x old
            · rwa [mem_singleton.1 new]
        · intro bad
          have unknown : ¬ (node kind children).joinKnown = true := fun here => bad (joinedNode.2 ⟨below,here⟩)
          rw [if_neg unknown] at inserted
          simp [recordChild,ran,inserted]
    · refine ⟨fun isJoined => absurd (joinedNode.1 isJoined).1 below,fun _ => ?_⟩
      simp [recordChild,fails below]

theorem recordsRoot (t : LogicalOperator) :
    (Joined t → ∃ m plans,recordNodeIntoGroup rowNums (.logical t) none {} = .ok (plans.length,true,m) ∧
      Fresh m (plans ++ [t])) ∧
    (¬ Joined t → recordNodeIntoGroup rowNums (.logical t) none {} = .error .abort) := by
  obtain ⟨kind,children⟩ := t
  obtain ⟨works,fails⟩ := recordsChildren rowNums (fun c (_ : c ∈ children) => recordsChild rowNums c) freshEmpty (by simp)
  by_cases below : ∀ c ∈ children,Joined c
  · obtain ⟨groups,m,plans,ran,kids,recorded⟩ := works below
    have isNew : .node kind children ∉ plans := fun mem =>
      notBelowItself ((recorded.origin _ mem).resolve_left (not_mem_nil))
    have inserted := insertPlan rowNums (.node kind children) recorded.fresh kids isNew
    constructor
    · intro isJoined
      rw [if_pos (joinedNode.1 isJoined).2] at inserted
      obtain ⟨m',ran',fresh⟩ := inserted
      exact ⟨m',plans,by simp [recordNodeIntoGroup,generalChildren,LogicalOperator.children,ran,ran'],fresh⟩
    · intro bad
      have unknown : ¬ (LogicalOperator.node kind children).joinKnown = true := fun here => bad (joinedNode.2 ⟨below,here⟩)
      rw [if_neg unknown] at inserted
      simp [recordNodeIntoGroup,generalChildren,LogicalOperator.children,ran,inserted]
  · refine ⟨fun isJoined => absurd (joinedNode.1 isJoined).1 below,fun _ => ?_⟩
    simp [recordNodeIntoGroup,generalChildren,LogicalOperator.children,fails below]

theorem recordKnownChildren {groups}
    (each : ∀ c ∈ children,∀ i,plans[i]? = some c → recordChild rowNums c m = .ok (i,m))
    (known : groupsOf plans children groups) : recordChildren rowNums children m = .ok (groups,m) := by
  induction known with
  | nil => simp [recordChildren]
  | cons here _ ih =>
    have rest := ih fun c mem => each c (mem_cons_of_mem _ mem)
    simp [recordChildren,each _ (by simp) _ here,rest]

theorem recordKnown (held : MemoOf m plans) (t : LogicalOperator) :
    ∀ i,plans[i]? = some t → recordChild rowNums t m = .ok (i,m) := by
  induction t using operatorInduction with
  | step kind children ih =>
    intro i isPlan
    obtain ⟨e,isExpr,_,group,kids⟩ := held.expr i _ isPlan
    have known : groupsOf plans children e.childGroups := kids.imp fun _ _ both => both.1
    have ran := recordKnownChildren rowNums ih known
    have found := insertKnown (.node kind children) held known isPlan rowNums none
    simp [recordChild,ran,found,isExpr,group]

end Record

end MiniOb.Cascade
