import Mathlib.Algebra.Ring.Int.Defs
import Mathlib.Data.List.Forall2
import Mathlib.Data.Rat.Defs
import MiniOb.Common.Types

/-! Operator trees and the memo of the cascade optimizer (`sql/operator/operator_node.h`,
`sql/optimizer/cascade/memo.cpp`, `group.cpp`, `optimizer_context.cpp`). Expressions inside the operators are
left out: the optimizer only hands them on. -/
namespace MiniOb.Cascade

inductive OpType where
  | undefined
  | leaf
  | logicalGet
  | logicalCalculate
  | logicalGroupBy
  | logicalProjection
  | logicalFilter
  | logicalInnerJoin
  | logicalInsert
  | logicalDelete
  | logicalExplain
  | explain
  | calculate
  | seqScan
  | orderBy
  | projection
  | insert
  | delete
  | filter
  deriving DecidableEq, Repr

inductive LogicalKind where
  | projection
  | predicate
  | tableGet (tableId : Int32)
  | insert
  | delete
  | explain
  | calculate
  | groupBy
  | join
  | orderBy
  | limit
  deriving DecidableEq, Repr

def LogicalKind.opType : LogicalKind → OpType
  | projection => .logicalProjection
  | predicate => .logicalFilter
  | tableGet _ => .logicalGet
  | insert => .logicalInsert
  | delete => .logicalDelete
  | explain => .logicalExplain
  | calculate => .logicalCalculate
  | groupBy => .logicalGroupBy
  | join => .logicalInnerJoin
  | orderBy => .orderBy
  | limit => .undefined

inductive LogicalOperator where
  | node (kind : LogicalKind) (children : List LogicalOperator)

namespace LogicalOperator

def kind : LogicalOperator → LogicalKind
  | node kind _ => kind

def children : LogicalOperator → List LogicalOperator
  | node _ children => children

end LogicalOperator

inductive PhysicalKind where
  | project
  | tableScan (tableId : Int32)
  | insert
  | explain
  | calculate
  | delete
  | predicate
  deriving DecidableEq, Repr

def PhysicalKind.opType : PhysicalKind → OpType
  | project => .projection
  | tableScan _ => .seqScan
  | insert => .insert
  | explain => .explain
  | calculate => .calculate
  | delete => .delete
  | predicate => .filter

inductive OperatorNode where
  | logical (operator : LogicalOperator)
  | physical (kind : PhysicalKind) (children : List LogicalOperator)

namespace OperatorNode

def opType : OperatorNode → OpType
  | logical operator => operator.kind.opType
  | physical kind _ => kind.opType

def generalChildren : OperatorNode → List LogicalOperator
  | logical operator => operator.children
  | physical _ children => children

def isPhysical : OperatorNode → Bool
  | logical _ => false
  | physical _ _ => true

def table : OperatorNode → Option Int32
  | logical (.node (.tableGet tableId) _) => some tableId
  | physical (.tableScan tableId) _ => some tableId
  | _ => none

end OperatorNode

/- `operator==`: types, then the table for scans and the children for the others. -/
mutual
def sameOperator : LogicalOperator → LogicalOperator → Bool
  | .node a as,.node b bs => a.opType == b.opType && match a,b with
    | .tableGet i,.tableGet j => i == j
    | _,_ => sameChildren as bs

def sameChildren : List LogicalOperator → List LogicalOperator → Bool
  | [],[] => true
  | x :: xs,y :: ys => sameOperator x y && sameChildren xs ys
  | _,_ => false
end

def sameNode (x y : OperatorNode) : Bool := x.opType == y.opType && match x.table,y.table with
  | some i,some j => i == j
  | _,_ => sameChildren x.generalChildren y.generalChildren

inductive Rule where
  | projectionToProjection
  | getToSeqScan
  | insertToInsert
  | explainToExplain
  | calcToCalc
  | deleteToDelete
  | predicateToPredicate
  deriving DecidableEq, Repr

structure GroupExpr where
  contents : OperatorNode
  childGroups : List Nat
  groupId : Nat
  ruleMask : List Rule := []
  lowestCost : Option Rat := none

structure Group where
  logical : List Nat := []
  physical : List Nat := []
  winner : Option (Rat × Nat) := none
  explored : Bool := false
  prop : Option Int := none

structure Memo where
  exprs : List GroupExpr := []
  groups : List Group := []

def findLogProp (rowNums : Int32 → Int) (kind : LogicalKind) (props : List (Option Int)) : Except Exit (Option Int) :=
  match kind,props with
  | .projection,props => .ok (some (props.map fun p => p.getD 0).sum)
  | .tableGet tableId,_ => .ok (some (rowNums tableId))
  | .join,[left,right] => match left,right with
    | some l,some r => .ok (some (l * r))
    | _,_ => .error .abort
  | _,_ => .ok none

namespace Memo

def childProps (m : Memo) (childGroups : List Nat) : List (Option Int) :=
  childGroups.map fun g => (m.groups[g]?).bind Group.prop

def addExpr (m : Memo) (expr : GroupExpr) : Memo where
  exprs := m.exprs ++ [expr]
  groups := m.groups.modify expr.groupId fun g =>
    if expr.contents.isPhysical then {g with physical := g.physical ++ [m.exprs.length]}
    else {g with logical := g.logical ++ [m.exprs.length]}

def newGroupProp (rowNums : Int32 → Int) (m : Memo) (contents : OperatorNode) (childGroups : List Nat) :
    Except Exit (Option Int) :=
  match contents with
  | .logical operator => findLogProp rowNums operator.kind (m.childProps childGroups)
  | .physical _ _ => .ok none

def insertExpression (rowNums : Int32 → Int) (contents : OperatorNode) (childGroups : List Nat) (target : Option Nat) (m : Memo) :
    Except Exit (Nat × Bool × Memo) :=
  match m.exprs.findIdx? fun e => sameNode e.contents contents && e.childGroups == childGroups with
  | some i => .ok (i,false,m)
  | none => match target with
    | some g => .ok (m.exprs.length,true,m.addExpr {contents,childGroups,groupId := g})
    | none => match newGroupProp rowNums m contents childGroups with
      | .error e => .error e
      | .ok prop => .ok (m.exprs.length,true,
          addExpr {m with groups := m.groups ++ [{prop := prop}]} {contents,childGroups,groupId := m.groups.length})

end Memo

mutual
def recordChild (rowNums : Int32 → Int) : LogicalOperator → Memo → Except Exit (Nat × Memo)
  | .node kind children,m => match recordChildren rowNums children m with
    | .error e => .error e
    | .ok (groups,m) => match m.insertExpression rowNums (.logical (.node kind children)) groups none with
      | .error e => .error e
      | .ok (i,_,m) => match m.exprs[i]? with
        | none => .error .abort
        | some expr => .ok (expr.groupId,m)

def recordChildren (rowNums : Int32 → Int) : List LogicalOperator → Memo → Except Exit (List Nat × Memo)
  | [],m => .ok ([],m)
  | child :: rest,m => match recordChild rowNums child m with
    | .error e => .error e
    | .ok (group,m) => match recordChildren rowNums rest m with
      | .error e => .error e
      | .ok (groups,m) => .ok (group :: groups,m)
end

def recordNodeIntoGroup (rowNums : Int32 → Int) (node : OperatorNode) (target : Option Nat) (m : Memo) :
    Except Exit (Nat × Bool × Memo) :=
  match recordChildren rowNums node.generalChildren m with
  | .error e => .error e
  | .ok (groups,m) => m.insertExpression rowNums node groups target

end MiniOb.Cascade
