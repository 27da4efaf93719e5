import MiniOb.Cascade.Recording

/-! The task stack run to its end: a plan for a tree whose operators all have a rule, none for a root without
one, and no end where a rule's child has none. -/
namespace MiniOb.Cascade
open Loop Option LogicalOperator OperatorNode Memo List

def LogicalKind.physical : LogicalKind → Option PhysicalKind
  | projection => some .project
  | predicate => some .predicate
  | tableGet tableId => some (.tableScan tableId)
  | insert => some .insert
  | delete => some .delete
  | explain => some .explain
  | calculate => some .calculate
  | _ => none

inductive Implements : LogicalOperator → PhysicalPlan → Prop
  | node {kind : LogicalKind} {physical : PhysicalKind} {children : List LogicalOperator} {plans : List PhysicalPlan}
      (same : kind.physical = some physical) (each : List.Forall₂ Implements children plans) :
      Implements (.node kind children) (.node physical (plans.map some))

def LogicalOperator.rule : LogicalOperator → Option Rule
  | .node .projection [_] => some .projectionToProjection
  | .node (.tableGet _) [] => some .getToSeqScan
  | .node .insert [] => some .insertToInsert
  | .node .explain [_] => some .explainToExplain
  | .node .calculate [] => some .calcToCalc
  | .node .delete [_] => some .deleteToDelete
  | .node .predicate [_] => some .predicateToPredicate
  | _ => none

def AllRules (t : LogicalOperator) : Prop := ∀ u ∈ subtrees t,u.rule.isSome = true

variable {t : LogicalOperator} {m m' : Memo} {plans : List LogicalOperator}

theorem validRulesOf {expr} (contents : expr.contents = .logical t)
    (count : expr.childGroups.length = t.children.length) (unused : expr.ruleMask = []) :
    validRules expr = t.rule.toList := by
  obtain ⟨kind,children⟩ := t
  simp only [LogicalOperator.children] at count
  rcases children with _ | ⟨_,_ | _⟩ <;> cases kind <;>
    simp [validRules,ruleSet,contents,count,unused,opType,kind,LogicalKind.opType,Rule.pattern,rule]

theorem noExploration (e : Nat) (expr : GroupExpr) (rule : Rule) : ruleTasks e expr rule = [.applyRule e rule] := by
  cases groups : expr.childGroups <;> cases rule <;> simp [ruleTasks,groups,Rule.pattern]

theorem ruleSpec {rule} (fits : t.rule = some rule) :
    ∃ kind,rule.transform (.logical t) = .ok [.physical kind t.children] ∧ t.kind.physical = some kind ∧
      (t.children = [] ∨ ∃ c,t.children = [c]) ∧ ∀ prop : Option Int,prop.isSome = t.hasProp →
        ∃ cost,calculateCost kind prop = .ok cost := by
  obtain ⟨kind,children⟩ := t
  match kind,children with
  | .projection,[c] =>
    cases fits
    refine ⟨.project,rfl,rfl,.inr ⟨c,rfl⟩,fun prop known => ?_⟩
    obtain ⟨card,rfl⟩ := isSome_iff_exists.1 known
    exact ⟨_,rfl⟩
  | .tableGet tableId,[] =>
    cases fits
    refine ⟨.tableScan tableId,rfl,rfl,.inl rfl,fun prop known => ?_⟩
    obtain ⟨card,rfl⟩ := isSome_iff_exists.1 known
    exact ⟨_,rfl⟩
  | .insert,[] =>
    cases fits
    exact ⟨.insert,rfl,rfl,.inl rfl,fun _ _ => ⟨0,rfl⟩⟩
  | .explain,[c] =>
    cases fits
    exact ⟨.explain,rfl,rfl,.inr ⟨c,rfl⟩,fun _ _ => ⟨0,rfl⟩⟩
  | .calculate,[] =>
    cases fits
    exact ⟨.calculate,rfl,rfl,.inl rfl,fun _ _ => ⟨0,rfl⟩⟩
  | .delete,[c] =>
    cases fits
    exact ⟨.delete,rfl,rfl,.inr ⟨c,rfl⟩,fun _ _ => ⟨0,rfl⟩⟩
  | .predicate,[c] =>
    cases fits
    exact ⟨.predicate,rfl,rfl,.inr ⟨c,rfl⟩,fun _ _ => ⟨0,rfl⟩⟩

structure Keeps (m m' : Memo) : Prop where
  exprs : ∀ (j : Nat) (e : GroupExpr),m.exprs[j]? = some e →
    ∃ e',m'.exprs[j]? = some e' ∧ e'.contents = e.contents ∧ e'.childGroups = e.childGroups ∧ e'.groupId = e.groupId
  new : ∀ (j : Nat) (e : GroupExpr),m.exprs[j]? = none → m'.exprs[j]? = some e → ∃ kind children,e.contents = .physical kind children
  groups : m'.groups.map Group.prop = m.groups.map Group.prop

theorem keepsTrans {m''} (one : Keeps m m') (two : Keeps m' m'') : Keeps m m'' where
  exprs := by
    intro j e isExpr
    obtain ⟨e',isExpr',contents,children,group⟩ := one.exprs j e isExpr
    obtain ⟨e'',isExpr'',contents',children',group'⟩ := two.exprs j e' isExpr'
    exact ⟨e'',isExpr'',contents'.trans contents,children'.trans children,group'.trans group⟩
  new := by
    intro j e absent isExpr
    cases between : m'.exprs[j]? with
    | none => exact two.new j e between isExpr
    | some e' =>
      obtain ⟨e'',isExpr'',contents,_⟩ := two.exprs j e' between
      cases some.inj (isExpr.symm.trans isExpr'')
      rw [contents]
      exact one.new j e' absent between
  groups := two.groups.trans one.groups

theorem keepsMemoOf (keeps : Keeps m m') (held : MemoOf m plans) : MemoOf m' plans where
  nodup := held.nodup
  groupCount := by
    have same := congrArg length keeps.groups
    simpa [held.groupCount] using same
  expr := by
    intro i t isPlan
    obtain ⟨e,isExpr,contents,group,kids⟩ := held.expr i t isPlan
    obtain ⟨e',isExpr',contents',kids',group'⟩ := keeps.exprs i e isExpr
    exact ⟨e',isExpr',contents'.trans contents,group'.trans group,kids'.symm ▸ kids⟩
  rest := by
    intro i e outside isExpr
    cases before : m.exprs[i]? with
    | none => exact keeps.new i e before isExpr
    | some e' =>
      obtain ⟨e'',isExpr'',contents,_⟩ := keeps.exprs i e' before
      cases some.inj (isExpr.symm.trans isExpr'')
      rw [contents]
      exact held.rest i e' outside before
  prop := by
    intro i t g' isPlan isGroup
    have same := congrArg (fun props => props[i]?) keeps.groups
    simp only [getElem?_map,isGroup,map_some] at same
    obtain ⟨g,isGroup',sameProp⟩ := map_eq_some_iff.1 same.symm
    rw [← sameProp]
    exact held.prop i t g isPlan isGroup'

theorem modifyGroupKeeps (m : Memo) (i : Nat) (f : Group → Group) (same : ∀ g,(f g).prop = g.prop) :
    Keeps m (m.modifyGroup i f) where
  exprs := fun j e isExpr => ⟨e,isExpr,rfl,rfl,rfl⟩
  new := by
    intro j e absent isExpr
    rw [show (m.modifyGroup i f).exprs = m.exprs from rfl,absent] at isExpr
    cases isExpr
  groups := by
    apply ext_getElem?
    intro j
    simp only [modifyGroup,getElem?_map,getElem?_modify]
    cases m.groups[j]? with
    | none => simp
    | some g =>
      by_cases here : i = j <;> simp [here,same]

theorem modifyExprKeeps (m : Memo) (i : Nat) (f : GroupExpr → GroupExpr)
    (same : ∀ e,(f e).contents = e.contents ∧ (f e).childGroups = e.childGroups ∧ (f e).groupId = e.groupId) :
    Keeps m (m.modifyExpr i f) where
  exprs := by
    intro j e isExpr
    by_cases here : i = j
    · exact ⟨f e,by simp [modifyExpr,here,isExpr],same e⟩
    · exact ⟨e,by simp [modifyExpr,here,isExpr],rfl,rfl,rfl⟩
  new := by
    intro j e absent isExpr
    simp [modifyExpr,getElem?_modify,absent] at isExpr
  groups := rfl

theorem addPhysicalKeeps (m : Memo) (i : Nat) (kind : PhysicalKind) (children : List LogicalOperator) (kids : List Nat) :
    Keeps m (m.addExpr {contents := .physical kind children,childGroups := kids,groupId := i}) where
  exprs := by
    intro j e isExpr
    have inside := (List.getElem?_eq_some_iff.1 isExpr).1
    exact ⟨e,(List.getElem?_append_left inside).trans isExpr,rfl,rfl,rfl⟩
  new := by
    intro j e absent isExpr
    have outside := getElem?_eq_none_iff.1 absent
    simp only [addExpr,getElem?_append_right outside] at isExpr
    have last := mem_of_getElem? isExpr
    cases mem_singleton.1 last
    exact ⟨kind,children,rfl⟩
  groups := (modifyGroupKeeps m i _ (by simp [isPhysical])).groups

section Steps
variable {m : Memo} {plans : List LogicalOperator} {i : Nat} {t : LogicalOperator} (rowNums : Int32 → Int) (rest : List Task)

def explored (m : Memo) (i : Nat) : Memo := m.modifyGroup i fun group => {group with explored := true}

theorem groupStep (untouched : Untouched m i) :
    taskLoop rowNums ⟨m,.optimizeGroup i :: rest⟩ = .inl ⟨explored m i,.optimizeExpression i :: rest⟩ := by
  obtain ⟨prop,isGroup⟩ := untouched.group
  simp [taskLoop,perform,optimizeGroup,isGroup,Search.pushAll,Search.push,explored]

variable {expr : GroupExpr} {rule : Rule} {kind : PhysicalKind} {w k : Nat} {children : List LogicalOperator}
  {group child : Group} {cost : Rat}

theorem expressionStep (isExpr : m.exprs[i]? = some expr) (contents : expr.contents = .logical t)
    (count : expr.childGroups.length = t.children.length) (unused : expr.ruleMask = []) :
    taskLoop rowNums ⟨m,.optimizeExpression i :: rest⟩ = .inl ⟨m,t.rule.toList.map (Task.applyRule i) ++ rest⟩ := by
  have valid := validRulesOf contents count unused
  cases fits : t.rule <;>
    simp [taskLoop,perform,optimizeExpression,isExpr,valid,fits,noExploration,Search.pushAll,Search.push]

def OnlyAbove (m : Memo) (plans : List LogicalOperator) (i : Nat) : Prop :=
  ∀ (w : Nat) (e : GroupExpr),plans.length ≤ w → m.exprs[w]? = some e → ∃ j,i ≤ j ∧ e.childGroups = [j]

theorem physicalIsNew (held : MemoOf m plans) (above : OnlyAbove m plans i) {kids} (small : ∀ k ∈ kids,k < i)
    (kind : PhysicalKind) (children : List LogicalOperator) :
    m.exprs.findIdx? (fun e => sameNode e.contents (.physical kind children) && e.childGroups == kids) = none := by
  rw [findIdx?_eq_none_iff]
  intro e mem
  obtain ⟨w,isExpr⟩ := mem_iff_getElem?.1 mem
  cases known : plans[w]? with
  | some u =>
    obtain ⟨contents,_⟩ := exprGroups held known isExpr
    simp [contents,(logicalNotPhysical u kind children).1]
  | none =>
    obtain ⟨j,notBelow,single⟩ := above w e (getElem?_eq_none_iff.1 known) isExpr
    have differs : e.childGroups ≠ kids := by
      intro same
      have := small j (by simp [← same,single])
      omega
    simp [differs]

def implemented (m : Memo) (i : Nat) (rule : Rule) (kind : PhysicalKind) (children : List LogicalOperator) (kids : List Nat) : Memo :=
  (m.addExpr {contents := .physical kind children,childGroups := kids,groupId := i}).modifyExpr i
    fun expr => {expr with ruleMask := rule :: expr.ruleMask}

theorem ruleStep (held : MemoOf m plans) (isPlan : plans[i]? = some t)
    (made : rule.transform (.logical t) = .ok [.physical kind t.children]) (isExpr : m.exprs[i]? = some expr)
    (unused : expr.ruleMask = []) (above : OnlyAbove m plans i) :
    taskLoop rowNums ⟨m,.applyRule i rule :: rest⟩ =
      .inl ⟨implemented m i rule kind t.children expr.childGroups,.optimizeInputs m.exprs.length 0 (-1) (-1) :: rest⟩ := by
  obtain ⟨e,isExpr',contents,group,kids⟩ := held.expr i t isPlan
  cases some.inj (isExpr.symm.trans isExpr')
  have known : groupsOf plans t.children expr.childGroups := kids.imp fun _ _ both => both.1
  have recorded := recordKnownChildren rowNums (fun c _ => recordKnown rowNums held c) known
  have small : ∀ k ∈ expr.childGroups,k < i := by
    intro k mem
    obtain ⟨n,isKid⟩ := mem_iff_getElem?.1 mem
    obtain ⟨inside,isThere⟩ := List.getElem?_eq_some_iff.1 isKid
    have both := kids.get (kids.length_eq ▸ inside) inside
    simpa [isThere] using both.2
  have isNew := physicalIsNew held above small kind t.children
  simp [taskLoop,perform,applyRule,isExpr,unused,contents,made,recordAll,recordNodeIntoGroup,generalChildren,
    recorded,insertExpression,isNew,group,newExprTask,isPhysical,Search.push,implemented]

structure Implemented (m m' : Memo) (plans : List LogicalOperator) (i w : Nat) (t : LogicalOperator) (kind : PhysicalKind)
    (kids : List Nat) : Prop where
  keeps : Keeps m m'
  otherGroups : ∀ j,j ≠ i → m'.groups[j]? = m.groups[j]?
  otherExprs : ∀ j < plans.length,j ≠ i → m'.exprs[j]? = m.exprs[j]?
  group : ∃ prop : Option Int,m'.groups[i]? = some {logical := [i],physical := [w],explored := true,prop} ∧ prop.isSome = t.hasProp
  expr : m'.exprs[w]? = some {contents := .physical kind t.children,childGroups := kids,groupId := i}
  same : t.kind.physical = some kind
  below : List.Forall₂ (fun c k => plans[k]? = some c ∧ k < i) t.children kids
  above : ∀ (w' : Nat) (e : GroupExpr),plans.length ≤ w' → m'.exprs[w']? = some e →
    e.childGroups = kids ∨ ∃ j,i ≤ j ∧ e.childGroups = [j]

theorem plansFit (held : MemoOf m plans) : plans.length ≤ m.exprs.length := by
  by_contra more
  have inside : plans.length - 1 < plans.length := by omega
  obtain ⟨e,isExpr,_⟩ := held.expr _ _ (getElem?_eq_getElem inside)
  have := (List.getElem?_eq_some_iff.1 isExpr).1
  omega

theorem implementedSpec (held : MemoOf m plans) (isPlan : plans[i]? = some t) (untouched : Untouched m i)
    (above : OnlyAbove m plans i) (isExpr : m.exprs[i]? = some expr)
    (same : t.kind.physical = some kind) (rule : Rule) :
    Implemented m (implemented (explored m i) i rule kind t.children expr.childGroups) plans i m.exprs.length t kind
      expr.childGroups := by
  obtain ⟨e,isExpr',contents,group,kids⟩ := held.expr i t isPlan
  cases some.inj (isExpr.symm.trans isExpr')
  obtain ⟨prop,isGroup⟩ := untouched.group
  have before := (List.getElem?_eq_some_iff.1 isExpr).1
  have fits := plansFit held
  constructor
  case keeps =>
    refine keepsTrans (modifyGroupKeeps m i _ (by simp)) (keepsTrans (addPhysicalKeeps _ i kind _ _) (modifyExprKeeps _ i _ ?_))
    simp
  case otherGroups =>
    intro j other
    simp [implemented,explored,modifyExpr,addExpr,modifyGroup,Ne.symm other]
  case otherExprs =>
    intro j inside other
    simp [implemented,explored,modifyExpr,addExpr,modifyGroup,Ne.symm other,
      getElem?_append_left (Nat.lt_of_lt_of_le inside fits)]
  case group =>
    refine ⟨prop,?_,held.prop i t _ isPlan isGroup⟩
    simp [implemented,explored,modifyExpr,addExpr,modifyGroup,isGroup,isPhysical]
  case expr =>
    simp [implemented,explored,modifyExpr,addExpr,modifyGroup,Nat.ne_of_lt before]
  case same => exact same
  case below => exact kids
  case above =>
    intro w e' outside isExpr'
    have inside := (List.getElem?_eq_some_iff.1 isPlan).1
    have other : i ≠ w := by omega
    simp only [implemented,explored,modifyExpr,addExpr,modifyGroup,getElem?_modify_ne _ _ other] at isExpr'
    rcases Nat.lt_or_ge w m.exprs.length with old | new
    · rw [getElem?_append_left old] at isExpr'
      exact .inr (above w e' outside isExpr')
    · rw [getElem?_append_right new] at isExpr'
      cases mem_singleton.1 (mem_of_getElem? isExpr')
      exact .inl rfl

theorem implementRuns (held : MemoOf m plans) (isPlan : plans[i]? = some t) (untouched : Untouched m i)
    (above : OnlyAbove m plans i) (fits : t.rule = some rule) : ∃ m' w kind kids,
    Reaches (taskLoop rowNums) ⟨m,.optimizeGroup i :: rest⟩ ⟨m',.optimizeInputs w 0 (-1) (-1) :: rest⟩ ∧
    Implemented m m' plans i w t kind kids ∧ (t.children = [] ∨ ∃ c,t.children = [c]) ∧
    ∀ prop : Option Int,prop.isSome = t.hasProp → ∃ cost,calculateCost kind prop = .ok cost := by
  obtain ⟨kind,made,same,shape,cost⟩ := ruleSpec fits
  obtain ⟨expr,isExpr,contents,_,kids⟩ := held.expr i t isPlan
  have unused := untouched.expr expr isExpr
  have first := groupStep rowNums rest untouched
  have second := expressionStep (m := explored m i) rowNums rest isExpr contents kids.length_eq.symm unused
  have third := ruleStep (m := explored m i) rowNums rest (keepsMemoOf (modifyGroupKeeps m i _ (by simp)) held) isPlan made
    isExpr unused above
  simp only [fits,toList_some,map_cons,map_nil,cons_append,nil_append] at second
  exact ⟨_,_,kind,_,.head first (.head second (.single third)),implementedSpec held isPlan untouched above isExpr same rule,shape,cost⟩

theorem leafStep (isExpr : m.exprs[w]? = some {contents := .physical kind children,childGroups := [],groupId := i})
    (isGroup : m.groups[i]? = some group) (own : calculateCost kind group.prop = .ok cost) :
    taskLoop rowNums ⟨m,.optimizeInputs w 0 (-1) (-1) :: rest⟩ = .inl ⟨setCost m w i cost,rest⟩ := by
  simp [taskLoop,perform,optimizeInputs,isExpr,ownCost,isGroup,own,sumInputs]

theorem inputStep (isExpr : m.exprs[w]? = some {contents := .physical kind children,childGroups := [k],groupId := i})
    (isGroup : m.groups[i]? = some group) (own : calculateCost kind group.prop = .ok cost) (isChild : m.groups[k]? = some child)
    (noWinner : child.winner = none) :
    taskLoop rowNums ⟨m,.optimizeInputs w 0 (-1) (-1) :: rest⟩ =
      .inl ⟨m,.optimizeGroup k :: .optimizeInputs w cost 0 (-1) :: rest⟩ := by
  simp [taskLoop,perform,optimizeInputs,isExpr,ownCost,isGroup,own,sumInputs,isChild,noWinner,Search.push]

/- The resumed task does not know that it has tried the child. -/
theorem againStep (isExpr : m.exprs[w]? = some expr)
    (single : expr.childGroups = [k]) (isChild : m.groups[k]? = some child) (noWinner : child.winner = none) :
    taskLoop rowNums ⟨m,.optimizeInputs w cost 0 (-1) :: rest⟩ =
      .inl ⟨m,.optimizeGroup k :: .optimizeInputs w cost 0 (-1) :: rest⟩ := by
  simp [taskLoop,perform,optimizeInputs,isExpr,single,sumInputs,isChild,noWinner,Search.push]

theorem lastStep {v best lowest} (cost : Rat) (isExpr : m.exprs[w]? = some expr)
    (single : expr.childGroups = [k]) (isChild : m.groups[k]? = some child) (winner : child.winner = some (lowest,v))
    (isBest : m.exprs[v]? = some best) :
    taskLoop rowNums ⟨m,.optimizeInputs w cost 0 (-1) :: rest⟩ =
      .inl ⟨setCost m w expr.groupId (cost + best.lowestCost.getD 0),rest⟩ := by
  simp [taskLoop,perform,optimizeInputs,isExpr,single,sumInputs,isChild,winner,isBest]

theorem setCostKeeps (m : Memo) (w g : Nat) (cost : Rat) : Keeps m (setCost m w g cost) := by
  refine keepsTrans (modifyExprKeeps m w _ ?_) (modifyGroupKeeps _ g _ ?_)
  · intro e
    cases e.lowestCost with
    | none => exact ⟨rfl,rfl,rfl⟩
    | some old => by_cases lower : cost < old <;> simp [lower]
  · intro group
    match group.winner with
    | none => rfl
    | some (old,v) => by_cases lower : cost < old <;> simp [lower]

theorem setCostOther (m : Memo) (w g : Nat) (cost : Rat) {j} (other : j ≠ g) :
    (setCost m w g cost).groups[j]? = m.groups[j]? := by
  simp [setCost,modifyGroup,modifyExpr,Ne.symm other]

theorem setCostWinner (w : Nat) (cost : Rat) (isGroup : m.groups[i]? = some group) (noWinner : group.winner = none) :
    (setCost m w i cost).groups[i]? = some {group with winner := some (cost,w)} := by
  simp [setCost,modifyGroup,modifyExpr,isGroup,noWinner]

end Steps

theorem forall₂AndRight {α β} {R} {P : β → Prop} {as : List α} {bs} (all : List.Forall₂ R as bs)
    (each : ∀ b ∈ bs,P b) : List.Forall₂ (fun a b => R a b ∧ P b) as bs := by
  induction all with
  | nil => exact .nil
  | cons here _ ih =>
    obtain ⟨first,rest⟩ := forall_mem_cons.1 each
    exact .cons ⟨here,first⟩ (ih rest)

/- The winners of a group and of the groups below it make up a plan for the operator. -/
inductive Won (m : Memo) : LogicalOperator → Nat → Prop
  | node {i w : Nat} {kind : LogicalKind} {physical : PhysicalKind} {children made : List LogicalOperator} {group : Group} {cost : Rat}
      {expr : GroupExpr} (isGroup : m.groups[i]? = some group) (winner : group.winner = some (cost,w))
      (isExpr : m.exprs[w]? = some expr) (contents : expr.contents = .physical physical made) (same : kind.physical = some physical)
      (below : List.Forall₂ (Won m) children expr.childGroups) (small : ∀ k ∈ expr.childGroups,k < i) : Won m (.node kind children) i

theorem wonKept (keeps : Keeps m m') (t : LogicalOperator) :
    ∀ i,(∀ j ≤ i,m'.groups[j]? = m.groups[j]?) → Won m t i → Won m' t i := by
  induction t using operatorInduction with
  | step kind children ih =>
    intro i sameGroups won
    cases won with
    | node isGroup winner isExpr contents same below small =>
      obtain ⟨expr',isExpr',contents',children',_⟩ := keeps.exprs _ _ isExpr
      have all := forall₂AndRight ((forall₂_and_left _ _).2 ⟨ih,below⟩) small
      have kept : List.Forall₂ (Won m') children expr'.childGroups := children'.symm ▸ all.imp
        fun c k here => here.1.1 k (fun j upTo => sameGroups j (Nat.le_trans upTo (Nat.le_of_lt here.2))) here.1.2
      exact .node ((sameGroups i (le_refl _)).trans isGroup) winner isExpr' (contents'.trans contents) same kept (children'.symm ▸ small)

theorem wonWinner {i} (won : Won m t i) : ∃ (group : Group) (cost : Rat) (w : Nat) (expr : GroupExpr),
    m.groups[i]? = some group ∧ group.winner = some (cost,w) ∧ m.exprs[w]? = some expr := by
  cases won with
  | node isGroup winner isExpr _ _ _ _ => exact ⟨_,_,_,_,isGroup,winner,isExpr⟩

theorem collectPlans {children kids} (depth : Nat)
    (all : List.Forall₂ (fun c k => ∃ plan,chooseBestPlan m depth k = some plan ∧ Implements c plan) children kids) :
    ∃ plans,kids.map (chooseBestPlan m depth) = plans.map some ∧ List.Forall₂ Implements children plans := by
  induction all with
  | nil => exact ⟨[],rfl,.nil⟩
  | cons here _ ih =>
    obtain ⟨plan,chosen,good⟩ := here
    obtain ⟨plans,rest,goods⟩ := ih
    exact ⟨plan :: plans,by simp [chosen,rest],.cons good goods⟩

theorem wonChosen (t : LogicalOperator) :
    ∀ i depth,Won m t i → i < depth → ∃ plan,chooseBestPlan m depth i = some plan ∧ Implements t plan := by
  induction t using operatorInduction with
  | step kind children ih =>
    intro i depth won deep
    cases won with
    | @node _ w _ physical _ made _ _ expr isGroup winner isExpr contents same below small =>
      obtain ⟨depth,rfl⟩ : ∃ d,depth = d + 1 := ⟨depth - 1,by omega⟩
      have all := forall₂AndRight ((forall₂_and_left _ _).2 ⟨ih,below⟩) small
      obtain ⟨plans,chosen,goods⟩ := collectPlans depth (all.imp fun c k here => here.1.1 k depth here.1.2 (by omega))
      obtain ⟨_,kids,_,_,_⟩ := expr
      cases contents
      exact ⟨.node physical (plans.map some),by simp [chooseBestPlan,isGroup,winner,isExpr,chosen],.node same goods⟩

section Runs
variable {plans : List LogicalOperator} (rowNums : Int32 → Int)

variable {kind : LogicalKind} {m : Memo} {i w k : Nat} {t : LogicalOperator}

theorem allRulesNode {children} :
    AllRules (.node kind children) ↔ (node kind children).rule.isSome = true ∧ ∀ c ∈ children,AllRules c := by
  constructor
  · intro all
    exact ⟨all _ (subtreesSelf _),fun c isChild u below => all u (memSubtrees.2 (.inr ⟨c,isChild,below⟩))⟩
  · rintro ⟨here,below⟩ u mem
    rcases memSubtrees.1 mem with rfl | ⟨c,isChild,inside⟩
    · exact here
    · exact below c isChild u inside

theorem childRuns {m' c physical} (rest : List Task)
    (untouched : ∀ j ≤ i,Untouched m j) (done : Implemented m m' plans i w (.node kind [c]) physical [k])
    (priced : ∀ prop : Option Int,prop.isSome = (node kind [c]).hasProp → ∃ cost,calculateCost physical prop = .ok cost) :
    plans[k]? = some c ∧ k < i ∧ (∀ j ≤ k,Untouched m' j) ∧ OnlyAbove m' plans k ∧ ∃ cost,
      Reaches (taskLoop rowNums) ⟨m',.optimizeInputs w 0 (-1) (-1) :: rest⟩
        ⟨m',.optimizeGroup k :: .optimizeInputs w cost 0 (-1) :: rest⟩ := by
  obtain ⟨⟨isPlan,less⟩,_⟩ := List.forall₂_cons.1 done.below
  have inside := (List.getElem?_eq_some_iff.1 isPlan).1
  have still : ∀ j ≤ k,Untouched m' j := by
    intro j upTo
    obtain ⟨isGroup,unused⟩ := untouched j (by omega)
    have sameGroup := done.otherGroups j (by omega)
    have sameExpr := done.otherExprs j (by omega) (by omega)
    exact ⟨sameGroup ▸ isGroup,sameExpr ▸ unused⟩
  have above : OnlyAbove m' plans k := by
    intro v e outside isExpr
    rcases done.above v e outside isExpr with here | ⟨j,notBelow,single⟩
    · exact ⟨k,le_refl _,here⟩
    · exact ⟨j,by omega,single⟩
  obtain ⟨prop,isGroup,known⟩ := done.group
  obtain ⟨cost,own⟩ := priced prop known
  obtain ⟨_,isChild⟩ := (still k (le_refl _)).group
  exact ⟨isPlan,less,still,above,cost,.single (inputStep rowNums rest done.expr isGroup own isChild rfl)⟩

theorem goodRuns (t : LogicalOperator) (all : AllRules t) : ∀ m i rest,MemoOf m plans → plans[i]? = some t →
    (∀ j ≤ i,Untouched m j) → OnlyAbove m plans i → ∃ m',
      Reaches (taskLoop rowNums) ⟨m,.optimizeGroup i :: rest⟩ ⟨m',rest⟩ ∧ Keeps m m' ∧ (∀ j > i,m'.groups[j]? = m.groups[j]?) ∧
      Won m' t i := by
  induction t using operatorInduction with
  | step kind children ih =>
    intro m i rest held isPlan untouched above
    obtain ⟨here,below⟩ := allRulesNode.1 all
    obtain ⟨rule,fits⟩ := isSome_iff_exists.1 here
    obtain ⟨m₁,w,physical,kids,reached,done,shape,priced⟩ :=
      implementRuns rowNums rest held isPlan (untouched i (le_refl _)) above fits
    rcases shape with none | ⟨c,one⟩
    · -- a leaf: its physical expression wins at once
      cases none
      cases done.below
      obtain ⟨prop,isGroup,known⟩ := done.group
      obtain ⟨cost,own⟩ := priced prop known
      have last := leafStep rowNums rest done.expr isGroup own
      have won := setCostWinner w cost isGroup rfl
      obtain ⟨e,isExpr,contents,single,_⟩ := (setCostKeeps m₁ w i cost).exprs w _ done.expr
      refine ⟨_,reached.tail last,keepsTrans done.keeps (setCostKeeps _ _ _ _),?_,?_⟩
      · intro j later
        rw [setCostOther _ _ _ _ (by omega),done.otherGroups j (by omega)]
      · exact .node won rfl isExpr contents done.same (single ▸ .nil) (by simp [single])
    · cases one
      obtain ⟨k,rfl⟩ : ∃ k,kids = [k] := length_eq_one_iff.1 done.below.length_eq.symm
      obtain ⟨isChild,less,still,above',cost,turned⟩ := childRuns rowNums rest untouched done priced
      obtain ⟨m₂,ran,keeps,later,won⟩ := ih c (by simp) (below c (by simp)) m₁ k (.optimizeInputs w cost 0 (-1) :: rest)
        (keepsMemoOf done.keeps held) isChild still above'
      obtain ⟨e,isExpr,contents,single,group⟩ := keeps.exprs w _ done.expr
      obtain ⟨prop,isGroup,_⟩ := done.group
      have isGroup' := (later i less).trans isGroup
      obtain ⟨_,_,_,_,childGroup,winner,isBest⟩ := wonWinner won
      have last := lastStep rowNums rest cost isExpr single childGroup winner isBest
      simp only [group] at last
      generalize cost + _ = total at last
      have kept := wonKept (setCostKeeps m₂ w i total) c k (fun j upTo => setCostOther _ _ _ _ (by omega)) won
      obtain ⟨e',isExpr',contents',single',_⟩ := (setCostKeeps m₂ w i total).exprs w _ isExpr
      have isSingle : e'.childGroups = [k] := single'.trans single
      refine ⟨_,reached.trans (turned.trans (ran.tail last)),
        keepsTrans done.keeps (keepsTrans keeps (setCostKeeps _ _ _ _)),?_,?_⟩
      · intro j larger
        rw [setCostOther _ _ _ _ (by omega),later j (by omega),done.otherGroups j (by omega)]
      · exact .node (setCostWinner w total isGroup' rfl) rfl isExpr' (contents'.trans contents) done.same
          (isSingle ▸ .cons kept .nil) (by simpa [isSingle] using less)

structure Stuck (m : Memo) (w k : Nat) : Prop where
  parent : ∃ expr : GroupExpr,m.exprs[w]? = some expr ∧ expr.childGroups = [k]
  child : ∃ expr : GroupExpr,m.exprs[k]? = some expr ∧ validRules expr = []
  group : ∃ group : Group,m.groups[k]? = some group ∧ group.logical = [k] ∧ group.physical = [] ∧ group.winner = none

theorem stuckExplored (stuck : Stuck m w k) : Stuck (explored m k) w k where
  parent := stuck.parent
  child := stuck.child
  group := by
    obtain ⟨group,isGroup,logical,physical,noWinner⟩ := stuck.group
    exact ⟨{group with explored := true},by simp [explored,modifyGroup,isGroup],logical,physical,noWinner⟩

def Circles (w k : Nat) (cost : Rat) (rest : List Task) (s : Search) : Prop :=
  Stuck s.memo w k ∧ (s.stack = .optimizeInputs w cost 0 (-1) :: rest ∨
    s.stack = .optimizeGroup k :: .optimizeInputs w cost 0 (-1) :: rest ∨
    s.stack = .optimizeExpression k :: .optimizeInputs w cost 0 (-1) :: rest)

theorem circlesOn {cost rest} (s : Search) (circles : Circles w k cost rest s) :
    ∃ s',taskLoop rowNums s = .inl s' ∧ Circles w k cost rest s' := by
  obtain ⟨m,stack⟩ := s
  obtain ⟨stuck,turn⟩ := circles
  obtain ⟨group,isGroup,logical,physical,noWinner⟩ := stuck.group
  rcases turn with rfl | rfl | rfl
  · obtain ⟨expr,isExpr,single⟩ := stuck.parent
    exact ⟨_,againStep rowNums rest isExpr single isGroup noWinner,stuck,.inr (.inl rfl)⟩
  · cases visited : group.explored with
    | true =>
      refine ⟨⟨explored m k,.optimizeInputs w cost 0 (-1) :: rest⟩,?_,stuckExplored stuck,.inl rfl⟩
      simp [taskLoop,perform,optimizeGroup,isGroup,noWinner,visited,physical,Search.pushAll,explored]
    | false =>
      refine ⟨⟨explored m k,.optimizeExpression k :: .optimizeInputs w cost 0 (-1) :: rest⟩,?_,stuckExplored stuck,.inr (.inr rfl)⟩
      simp [taskLoop,perform,optimizeGroup,isGroup,noWinner,visited,logical,physical,Search.pushAll,Search.push,explored]
  · obtain ⟨expr,isExpr,noRule⟩ := stuck.child
    refine ⟨⟨m,.optimizeInputs w cost 0 (-1) :: rest⟩,?_,stuck,.inl rfl⟩
    simp [taskLoop,perform,optimizeExpression,isExpr,noRule,Search.pushAll]

theorem noRuleValid (held : MemoOf m plans) (isPlan : plans[i]? = some t)
    (untouched : Untouched m i) (noRule : t.rule = none) : ∃ expr,m.exprs[i]? = some expr ∧ validRules expr = [] := by
  obtain ⟨expr,isExpr,contents,_,kids⟩ := held.expr i t isPlan
  have valid := validRulesOf contents kids.length_eq.symm (untouched.expr expr isExpr)
  exact ⟨expr,isExpr,by simpa [noRule] using valid⟩

theorem badRuns (t : LogicalOperator) (bad : ¬ AllRules t) (ruled : t.rule.isSome = true) : ∀ m i rest r,MemoOf m plans →
    plans[i]? = some t → (∀ j ≤ i,Untouched m j) → OnlyAbove m plans i →
    ¬ Stops (taskLoop rowNums) ⟨m,.optimizeGroup i :: rest⟩ r := by
  induction t using operatorInduction with
  | step kind children ih =>
    intro m i rest r held isPlan untouched above stops
    obtain ⟨rule,fits⟩ := isSome_iff_exists.1 ruled
    obtain ⟨m₁,w,physical,kids,reached,done,shape,priced⟩ :=
      implementRuns rowNums rest held isPlan (untouched i (le_refl _)) above fits
    rcases shape with none | ⟨c,one⟩
    · cases none
      exact bad (allRulesNode.2 ⟨ruled,by simp⟩)
    · cases one
      have badChild : ¬ AllRules c := fun good => bad (allRulesNode.2 ⟨ruled,by simpa using good⟩)
      obtain ⟨k,rfl⟩ : ∃ k,kids = [k] := length_eq_one_iff.1 done.below.length_eq.symm
      obtain ⟨isChild,less,still,above',cost,turned⟩ := childRuns rowNums rest untouched done priced
      have held' := keepsMemoOf done.keeps held
      have stops' := (stopsIffReached (reached.trans turned)).1 stops
      cases childRule : c.rule with
      | some _ => exact ih c (by simp) badChild (by simp [childRule]) m₁ k _ r held' isChild still above' stops'
      | none =>
        obtain ⟨prop,isGroup⟩ := (still k (le_refl _)).group
        have stuck : Stuck m₁ w k := {
          parent := ⟨_,done.expr,rfl⟩
          child := noRuleValid held' isChild (still k (le_refl _)) childRule
          group := ⟨_,isGroup,rfl,rfl,rfl⟩}
        have circles : Circles w k cost rest ⟨m₁,.optimizeGroup k :: .optimizeInputs w cost 0 (-1) :: rest⟩ := ⟨stuck,.inr (.inl rfl)⟩
        exact neverStops (circlesOn rowNums) circles stops'

theorem rootStops (held : MemoOf m plans) (isPlan : plans[i]? = some t)
    (untouched : Untouched m i) (noRule : t.rule = none) :
    Stops (taskLoop rowNums) ⟨m,[.optimizeGroup i]⟩ (.ok (explored m i)) ∧ ∀ depth,chooseBestPlan (explored m i) depth i = none := by
  obtain ⟨expr,isExpr,contents,_,kids⟩ := held.expr i t isPlan
  obtain ⟨prop,isGroup⟩ := untouched.group
  have first := groupStep rowNums [] untouched
  have second := expressionStep (m := explored m i) rowNums [] isExpr contents kids.length_eq.symm (untouched.expr expr isExpr)
  simp only [noRule,toList_none,map_nil,nil_append] at second
  refine ⟨stopsStep first (stopsStep second (stopsNow rfl)),fun depth => ?_⟩
  cases depth with
  | zero => rfl
  | succ depth => simp [chooseBestPlan,explored,modifyGroup,isGroup]

end Runs

theorem optimizesRoot (rowNums : Int32 → Int) (joined : Joined t) : ∃ m plans,Fresh m (plans ++ [t]) ∧
    ∀ plan,Optimizes rowNums t plan ↔ ∃ m',Stops (taskLoop rowNums) ⟨m,[.optimizeGroup plans.length]⟩ (.ok m') ∧
      plan = chooseBestPlan m' m'.groups.length plans.length := by
  obtain ⟨m,plans,recorded,fresh⟩ := (recordsRoot rowNums t).1 joined
  obtain ⟨expr,isExpr,_,group,_⟩ := fresh.expr plans.length t (by simp)
  refine ⟨m,plans,fresh,fun plan => ⟨?_,?_⟩⟩
  · rintro ⟨root,expr',m₀,m',recorded',isExpr',stops,rfl⟩
    cases Except.ok.inj (recorded.symm.trans recorded')
    cases some.inj (isExpr.symm.trans isExpr')
    exact ⟨m',group ▸ stops,by rw [group]⟩
  · rintro ⟨m',stops,rfl⟩
    exact ⟨plans.length,expr,m,m',recorded,isExpr,group.symm ▸ stops,by rw [group]⟩

theorem freshAbove (fresh : Fresh m plans) (i : Nat) : OnlyAbove m plans i := by
  intro w e outside isExpr
  have inside := (List.getElem?_eq_some_iff.1 isExpr).1
  have := fresh.exprCount
  omega

theorem freshUntouched (fresh : Fresh m (plans ++ [t])) : ∀ j ≤ plans.length,Untouched m j :=
  fun j upTo => fresh.untouched j (by simpa [Nat.lt_succ_iff] using upTo)

theorem optimizesNeeds {rowNums plan}
    (optimizes : Optimizes rowNums t plan) : Joined t ∧ (t.rule = none ∨ AllRules t) := by
  have joined : Joined t := by
    obtain ⟨_,_,_,_,recorded,_⟩ := optimizes
    by_contra bad
    simp [(recordsRoot rowNums t).2 bad] at recorded
  obtain ⟨m,plans,fresh,runs⟩ := optimizesRoot rowNums joined
  obtain ⟨m',stops,_⟩ := (runs plan).1 optimizes
  cases ruled : t.rule with
  | none => exact ⟨joined,.inl rfl⟩
  | some rule =>
    refine ⟨joined,.inr ?_⟩
    by_contra bad
    exact badRuns rowNums t bad (by simp [ruled]) m plans.length [] _ fresh.toMemoOf (by simp) (freshUntouched fresh)
      (freshAbove fresh _) stops

theorem optimizesIff (rowNums : Int32 → Int) (t : LogicalOperator) :
    (∃ plan,Optimizes rowNums t plan ∧ ∀ p,plan = some p → Implements t p) ↔ Joined t ∧ (t.rule = none ∨ AllRules t) := by
  constructor
  · rintro ⟨plan,optimizes,_⟩
    exact optimizesNeeds optimizes
  · rintro ⟨joined,good⟩
    obtain ⟨m,plans,fresh,runs⟩ := optimizesRoot rowNums joined
    have untouched := freshUntouched fresh
    rcases good with noRule | all
    · obtain ⟨stops,chosen⟩ := rootStops rowNums fresh.toMemoOf (by simp) (untouched _ (le_refl _)) noRule
      exact ⟨none,(runs none).2 ⟨_,stops,(chosen _).symm⟩,by simp⟩
    · obtain ⟨m',reached,keeps,_,won⟩ := goodRuns rowNums t all m plans.length [] fresh.toMemoOf (by simp) untouched (freshAbove fresh _)
      have count : plans.length < m'.groups.length := by simp [(keepsMemoOf keeps fresh.toMemoOf).groupCount]
      obtain ⟨plan,chosen,implements⟩ := wonChosen t plans.length m'.groups.length won count
      have stops : Stops (taskLoop rowNums) ⟨m,[.optimizeGroup plans.length]⟩ (.ok m') := (stopsIffReached reached).2 (stopsNow rfl)
      refine ⟨some plan,(runs _).2 ⟨m',stops,chosen.symm⟩,fun p same => ?_⟩
      cases some.inj same
      exact implements

/- `select * from t limit 1`: the limit has no rule, and its projection's task is pushed again for ever. -/
def limitedScan : LogicalOperator := .node .projection [.node .limit [.node (.tableGet 1) []]]

theorem limitedScanCircles : ¬ ∃ plan,Optimizes (fun _ => 1) limitedScan plan ∧ ∀ p,plan = some p → Implements limitedScan p := by
  rintro ⟨plan,optimizes,_⟩
  rcases (optimizesNeeds optimizes).2 with noRule | all
  · cases noRule
  · have limit := all (.node .limit [.node (.tableGet 1) []]) (by simp [limitedScan,subtrees,subtreesOf])
    cases limit

end MiniOb.Cascade
