import MiniOb.Cascade.Memo
import MiniOb.Lib.Loop

/-! The search of the cascade optimizer: rules, the stack of tasks and the plan read off the memo
(`sql/optimizer/cascade/tasks`, `rules.cpp`, `implementation_rules.cpp`, `cost_model.h`, `optimizer.cpp`). -/
namespace MiniOb.Cascade

def Rule.pattern : Rule → OpType × List (OpType × Nat)
  | projectionToProjection => (.logicalProjection,[(.leaf,0)])
  | getToSeqScan => (.logicalGet,[])
  | insertToInsert => (.logicalInsert,[])
  | explainToExplain => (.logicalExplain,[(.leaf,0)])
  | calcToCalc => (.logicalCalculate,[])
  | deleteToDelete => (.logicalDelete,[(.leaf,0)])
  | predicateToPredicate => (.logicalFilter,[(.leaf,0)])

def ruleSet : List Rule :=
  [.projectionToProjection,.getToSeqScan,.insertToInsert,.explainToExplain,.calcToCalc,.deleteToDelete,.predicateToPredicate]

/- A rule casts the node to its own operator and reads it without a check. -/
def Rule.transform : Rule → OperatorNode → Except Exit (List OperatorNode)
  | projectionToProjection,.logical (.node .projection [child]) => .ok [.physical .project [child]]
  | getToSeqScan,.logical (.node (.tableGet tableId) _) => .ok [.physical (.tableScan tableId) []]
  | insertToInsert,.logical (.node .insert _) => .ok [.physical .insert []]
  | explainToExplain,.logical (.node .explain children) => .ok [.physical .explain children]
  | calcToCalc,.logical (.node .calculate _) => .ok [.physical .calculate []]
  | deleteToDelete,.logical (.node .delete children) => .ok [.physical .delete children]
  | predicateToPredicate,.logical (.node .predicate children) => .ok [.physical .predicate children]
  | _,_ => .error .abort

def cpuOp : Rat := 2 / 100000
def io : Rat := 3 / 100

def calculateCost (kind : PhysicalKind) (prop : Option Int) : Except Exit Rat :=
  match kind,prop with
  | .tableScan _,some card => .ok ((io + cpuOp) * card)
  | .project,some card => .ok (cpuOp * card)
  | .tableScan _,none => .error .abort
  | .project,none => .error .abort
  | _,_ => .ok 0

inductive Task where
  | optimizeGroup (group : Nat)
  | optimizeExpression (expr : Nat)
  | exploreGroup (group : Nat)
  | applyRule (expr : Nat) (rule : Rule)
  | optimizeInputs (expr : Nat) (cost : Rat) (cur prev : Int)

structure Search where
  memo : Memo
  stack : List Task

namespace Search

def push (s : Search) (task : Task) : Search := {s with stack := task :: s.stack}

def pushAll (s : Search) (tasks : List Task) : Search := tasks.foldl push s

end Search

def Memo.modifyGroup (m : Memo) (g : Nat) (f : Group → Group) : Memo := {m with groups := m.groups.modify g f}

def Memo.modifyExpr (m : Memo) (e : Nat) (f : GroupExpr → GroupExpr) : Memo := {m with exprs := m.exprs.modify e f}

def optimizeGroup (g : Nat) (s : Search) : Except Exit Search :=
  match s.memo.groups[g]? with
  | none => .error .abort
  | some group =>
    if group.winner.isSome then .ok s
    else
      let logical := if group.explored then [] else group.logical.map Task.optimizeExpression
      let physical := group.physical.map fun e => Task.optimizeInputs e 0 (-1) (-1)
      let s := (s.pushAll logical).pushAll physical
      .ok {s with memo := s.memo.modifyGroup g fun group => {group with explored := true}}

def validRules (expr : GroupExpr) : List Rule := ruleSet.filter fun rule =>
  !expr.ruleMask.contains rule && expr.contents.opType == rule.pattern.1 && expr.childGroups.length == rule.pattern.2.length

def ruleTasks (e : Nat) (expr : GroupExpr) (rule : Rule) : List Task :=
  .applyRule e rule :: ((rule.pattern.2.zip expr.childGroups).filter fun child => child.1.2 > 0).map fun child => .exploreGroup child.2

def optimizeExpression (e : Nat) (s : Search) : Except Exit Search :=
  match s.memo.exprs[e]? with
  | none => .error .abort
  | some expr => .ok (s.pushAll ((validRules expr).flatMap (ruleTasks e expr)))

def exploreGroup (g : Nat) (s : Search) : Except Exit Search :=
  match s.memo.groups[g]? with
  | none => .error .abort
  | some group =>
    if group.explored then .ok s
    else
      let s := s.pushAll (group.logical.map Task.optimizeExpression)
      .ok {s with memo := s.memo.modifyGroup g fun group => {group with explored := true}}

def newExprTask (node : OperatorNode) (e : Nat) : Task :=
  if node.isPhysical then .optimizeInputs e 0 (-1) (-1) else .optimizeExpression e

def recordAll (rowNums : Int32 → Int) (target : Nat) : List OperatorNode → Search → Except Exit Search
  | [],s => .ok s
  | node :: rest,s => match recordNodeIntoGroup rowNums node (some target) s.memo with
    | .error e => .error e
    | .ok (e,isNew,m) =>
      recordAll rowNums target rest (if isNew then {s with memo := m}.push (newExprTask node e) else {s with memo := m})

def applyRule (rowNums : Int32 → Int) (e : Nat) (rule : Rule) (s : Search) : Except Exit Search :=
  match s.memo.exprs[e]? with
  | none => .error .abort
  | some expr =>
    if expr.ruleMask.contains rule then .ok s
    else match rule.transform expr.contents with
      | .error e => .error e
      | .ok nodes => match recordAll rowNums expr.groupId nodes s with
        | .error e => .error e
        | .ok s => .ok {s with memo := s.memo.modifyExpr e fun expr => {expr with ruleMask := rule :: expr.ruleMask}}

/- The children from the current one on: the cost so far, and the child to optimize first if one has no winner
and was not tried last. The bound of the context is the largest double, so no cost exceeds it. -/
def sumInputs (m : Memo) (prev : Int) : List Nat → Int → Rat → Except Exit (Rat × Int × Option Nat)
  | [],cur,cost => .ok (cost,cur,none)
  | g :: rest,cur,cost => match m.groups[g]? with
    | none => .error .abort
    | some group => match group.winner with
      | some (_,w) => match m.exprs[w]? with
        | none => .error .abort
        | some best => sumInputs m prev rest (cur + 1) (cost + best.lowestCost.getD 0)
      | none => if prev ≠ cur then .ok (cost,cur,some g) else sumInputs m prev rest (cur + 1) cost

def ownCost (m : Memo) (expr : GroupExpr) : Except Exit Rat :=
  match expr.contents with
  | .physical kind _ => calculateCost kind ((m.groups[expr.groupId]?).bind Group.prop)
  | .logical _ => .ok 0

def setCost (m : Memo) (e g : Nat) (cost : Rat) : Memo :=
  (m.modifyExpr e fun expr => match expr.lowestCost with
    | some old => if cost < old then {expr with lowestCost := some cost} else expr
    | none => {expr with lowestCost := some cost}).modifyGroup g fun group => match group.winner with
      | some (old,_) => if cost < old then {group with winner := some (cost,e)} else group
      | none => {group with winner := some (cost,e)}

/- The copy pushed back before a child is optimized has `prev` at its default again. -/
def optimizeInputs (e : Nat) (cost : Rat) (cur prev : Int) (s : Search) : Except Exit Search :=
  match s.memo.exprs[e]? with
  | none => .error .abort
  | some expr => match if cur = -1 then ownCost s.memo expr else .ok cost with
    | .error e => .error e
    | .ok cost =>
      let cur := if cur = -1 then 0 else cur
      match sumInputs s.memo prev (expr.childGroups.drop cur.toNat) cur cost with
      | .error e => .error e
      | .ok (cost,cur,some g) => .ok ((s.push (.optimizeInputs e cost cur (-1))).push (.optimizeGroup g))
      | .ok (cost,_,none) => .ok {s with memo := setCost s.memo e expr.groupId cost}

def perform (rowNums : Int32 → Int) : Task → Search → Except Exit Search
  | .optimizeGroup g,s => optimizeGroup g s
  | .optimizeExpression e,s => optimizeExpression e s
  | .exploreGroup g,s => exploreGroup g s
  | .applyRule e rule,s => applyRule rowNums e rule s
  | .optimizeInputs e cost cur prev,s => optimizeInputs e cost cur prev s

def taskLoop (rowNums : Int32 → Int) (s : Search) : Search ⊕ Except Exit Memo :=
  match s.stack with
  | [] => .inr (.ok s.memo)
  | task :: rest => match perform rowNums task {s with stack := rest} with
    | .ok s => .inl s
    | .error e => .inr (.error e)

inductive PhysicalPlan where
  | node (kind : PhysicalKind) (children : List (Option PhysicalPlan))

/- `choose_best_plan`: a group without a winner gives a null plan. Child groups have smaller numbers, so the
number of groups bounds the depth. -/
def chooseBestPlan (m : Memo) : Nat → Nat → Option PhysicalPlan
  | 0,_ => none
  | depth + 1,g => match (m.groups[g]?).bind Group.winner with
    | none => none
    | some (_,w) => match m.exprs[w]? with
      | some ⟨.physical kind _,childGroups,_,_,_⟩ => some (.node kind (childGroups.map (chooseBestPlan m depth)))
      | _ => none

def Optimizes (rowNums : Int32 → Int) (operator : LogicalOperator) (plan : Option PhysicalPlan) : Prop :=
  ∃ root expr m m',recordNodeIntoGroup rowNums (.logical operator) none {} = .ok (root,true,m) ∧ m.exprs[root]? = some expr ∧
    Loop.Stops (taskLoop rowNums) ⟨m,[.optimizeGroup expr.groupId]⟩ (.ok m') ∧
    plan = chooseBestPlan m' m'.groups.length expr.groupId

end MiniOb.Cascade
