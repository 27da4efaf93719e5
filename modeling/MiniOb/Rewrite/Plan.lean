import MiniOb.Common.Types
import MiniOb.Lib.Loop
import MiniOb.Sql.Scan

/-! Logical plans of SELECT and DELETE, the rewrite rules of the optimize stage and what a plan yields
(`sql/optimizer/logical_plan_generator.cpp`, `rewriter.cpp`, `expression_rewriter.cpp`,
`conjunction_simplification_rule.cpp`, `predicate_rewrite.cpp`, `predicate_pushdown_rewriter.cpp`,
`physical_plan_generator.cpp` and the physical operators). Field values are of any type. -/
namespace MiniOb.Rewrite
open Expression (CompOp)
variable {F V T : Type}

/- A side of a comparison; the generator casts fields, and folds the cast of a constant. -/
inductive Operand (F V : Type) where
  | field (f : F)
  | value (v : V)
  | cast (f : F)

structure Comparison (F V : Type) where
  op : CompOp
  left : Operand F V
  right : Operand F V

inductive Atom (F V : Type) where
  | comparison (c : Comparison F V)
  | value (b : Bool)

def Atom.isValue : Atom F V → Bool
  | .comparison _ => false
  | .value _ => true

def Atom.asComparison : Atom F V → Option (Comparison F V)
  | .comparison c => some c
  | .value _ => none

/- Conjunctions are AND, and never nested. -/
inductive Expr (F V : Type) where
  | atom (a : Atom F V)
  | conjunction (children : List (Atom F V))

inductive Operator where
  | project
  | limit (n : Nat)
  | orderBy
  | groupBy
  | delete
  deriving DecidableEq, Repr

/- An operator whose child is `nothing` has an empty list of children. -/
inductive Plan (F V T : Type) where
  | nothing
  | tableGet (table : T) (predicates : List (Comparison F V))
  | join (left right : Plan F V T)
  | predicate (expr : Expr F V) (child : Plan F V T)
  | operator (op : Operator) (child : Plan F V T)

namespace Plan

def depth : Plan F V T → Nat
  | nothing => 1
  | tableGet _ _ => 1
  | join left right => max left.depth right.depth + 1
  | predicate _ child => child.depth + 1
  | operator _ child => child.depth + 1

end Plan

structure Select (F V T : Type) where
  table : T
  more : List T
  conditions : List (Comparison F V)
  groupBy : Bool
  orderBy : Bool
  limit : Option Nat

inductive Statement (F V T : Type) where
  | select (s : Select F V T)
  | delete (table : T) (conditions : List (Comparison F V))

namespace Statement

def conditions : Statement F V T → List (Comparison F V)
  | select s => s.conditions
  | delete _ conditions => conditions

def source : Statement F V T → Plan F V T
  | select s => s.more.foldl (fun plan table => .join plan (.tableGet table [])) (.tableGet s.table [])
  | delete table _ => .tableGet table []

def operators : Statement F V T → List Operator
  | select s => .project :: ((s.limit.map Operator.limit).toList ++ ((if s.orderBy then [.orderBy] else []) ++
      if s.groupBy then [.groupBy] else []))
  | delete _ _ => [.delete]

end Statement

def stack (operators : List Operator) (plan : Plan F V T) : Plan F V T := operators.foldr Plan.operator plan

def filtered (conditions : List (Comparison F V)) (plan : Plan F V T) : Plan F V T :=
  match conditions with
  | [] => plan
  | conditions => .predicate (.conjunction (conditions.map Atom.comparison)) plan

def createPlan (s : Statement F V T) : Plan F V T := stack s.operators (filtered s.conditions s.source)

section Rules
variable (compare : CompOp → V → V → Bool)

def Comparison.tryGetValue (c : Comparison F V) : Option Bool :=
  match c.left,c.right with
  | .value l,.value r => some (compare c.op l r)
  | _,_ => none

def rewriteAtom : Atom F V → Atom F V × Bool
  | .comparison c => match c.tryGetValue compare with
    | some b => (.value b,true)
    | none => (.comparison c,false)
  | .value b => (.value b,false)

/- The loop of `ConjunctionSimplificationRule`: true is erased; false ends it with the first child that is left. -/
def simplify : List (Atom F V) → List (Atom F V) → Atom F V ⊕ List (Atom F V)
  | kept,[] => .inr kept
  | kept,.value true :: rest => simplify kept rest
  | kept,.value false :: _ => .inl (kept.headD (.value false))
  | kept,child :: rest => simplify (kept ++ [child]) rest

/- `ExpressionRewriter::rewrite_expression`; only a single child counts as a change of the conjunction. -/
def rewriteExpression : Expr F V → Expr F V × Bool
  | .atom a => ((.atom (rewriteAtom compare a).1),(rewriteAtom compare a).2)
  | .conjunction children => match simplify [] children with
    | .inl a => (.atom a,false)
    | .inr [single] => (.atom single,true)
    | .inr kept => (.conjunction (kept.map fun a => (rewriteAtom compare a).1),kept.any fun a => (rewriteAtom compare a).2)

def rewriteExpressions : Plan F V T → Plan F V T × Bool
  | .nothing => (.nothing,false)
  | .tableGet table predicates => (.tableGet table predicates,false)
  | .join left right =>
    (.join (rewriteExpressions left).1 (rewriteExpressions right).1,(rewriteExpressions left).2 || (rewriteExpressions right).2)
  | .predicate e child => (.predicate (rewriteExpression compare e).1 (rewriteExpressions child).1,
      (rewriteExpression compare e).2 || (rewriteExpressions child).2)
  | .operator op child => (.operator op (rewriteExpressions child).1,(rewriteExpressions child).2)

/- `PredicateRewriteRule`: a constant predicate gives way to its children, or is cut off with them. -/
def predicateRewrite : Plan F V T → Plan F V T × Bool
  | .operator op (.predicate (.atom (.value b)) child) => (.operator op (if b then child else .nothing),true)
  | .predicate e (.predicate (.atom (.value b)) child) => (.predicate e (if b then child else .nothing),true)
  | plan => (plan,false)

def Expr.comparisons : Expr F V → List (Comparison F V)
  | .atom (.comparison c) => [c]
  | .atom (.value _) => []
  | .conjunction children => children.filterMap Atom.asComparison

def Expr.withoutComparisons : Expr F V → Expr F V
  | .atom (.comparison _) => .atom (.value true)
  | .atom (.value b) => .atom (.value b)
  | .conjunction children => match children.filter Atom.isValue with
    | [] => .atom (.value true)
    | rest => .conjunction rest

def pushdown : Plan F V T → Plan F V T × Bool
  | .predicate e (.tableGet table predicates) => match e.comparisons with
    | [] => (.predicate e.withoutComparisons (.tableGet table predicates),false)
    | pushed => (.predicate e.withoutComparisons (.tableGet table pushed),true)
  | plan => (plan,false)

def rewriteHere (plan : Plan F V T) : Plan F V T × Bool :=
  let (one,changed) := rewriteExpressions compare plan
  let (two,changed') := predicateRewrite one
  let (three,changed'') := pushdown two
  (three,changed || changed' || changed'')

/- `Rewriter::rewrite`: the operator, then its children as the rules left them. No rule makes the tree deeper. -/
def rewriteAt : Nat → Plan F V T → Plan F V T × Bool
  | 0,plan => (plan,false)
  | depth + 1,plan =>
    let (here,changed) := rewriteHere compare plan
    match here with
    | .operator op child => (.operator op (rewriteAt depth child).1,changed || (rewriteAt depth child).2)
    | .predicate e child => (.predicate e (rewriteAt depth child).1,changed || (rewriteAt depth child).2)
    | .join left right => (.join (rewriteAt depth left).1 (rewriteAt depth right).1,
        changed || (rewriteAt depth left).2 || (rewriteAt depth right).2)
    | leaf => (leaf,changed)

def rewriteRound (plan : Plan F V T) : Plan F V T ⊕ Plan F V T :=
  let (next,changed) := rewriteAt compare plan.depth plan
  if changed then .inl next else .inr next

end Rules

/- Aggregation: a row goes to the first group with its key or opens one. A scalar aggregation has one key. -/
structure Grouping (R K A : Type) where
  key : R → Except Exit K
  same : K → K → Except Exit Bool
  create : R → Except Exit A
  accumulate : A → R → Except Exit A
  evaluate : A → Except Exit R

namespace Grouping
variable {R K A : Type} (g : Grouping R K A)

def feedKey (key : K) (row : R) : List (K × A) → Except Exit (List (K × A))
  | [] => do
    let made ← g.create row
    let value ← g.accumulate made row
    .ok [(key,value)]
  | (other,value) :: rest => do
    if ← g.same key other then
      let value ← g.accumulate value row
      .ok ((other,value) :: rest)
    else
      let rest ← feedKey key row rest
      .ok ((other,value) :: rest)

def feedAll : List R → List (K × A) → Except Exit (List (K × A))
  | [],groups => .ok groups
  | row :: rest,groups => do
    let key ← g.key row
    let groups ← g.feedKey key row groups
    feedAll rest groups

def evaluateAll : List (K × A) → Except Exit (List R)
  | [] => .ok []
  | (_,value) :: rest => do
    let row ← g.evaluate value
    let rows ← evaluateAll rest
    .ok (row :: rows)

def rows (input : List R) : Except Exit (List R) := do
  let groups ← g.feedAll input []
  g.evaluateAll groups

end Grouping

/- An index on a field, and the key that it makes of a constant. -/
structure FieldIndex (V : Type) : Type 1 where
  type : Scan.FieldType
  index : Scan.Index type
  constant : V → type.Constant

/- What the plan's parts compute on the tables at hand. The standard library's sort may order ties in any way;
what a join delivers is left open. -/
structure Engine (F V T R K A : Type) : Type 1 where
  compare : CompOp → V → V → Bool
  cast : V → V
  read : R → F → V
  rows : T → List R
  index : T → F → Option (FieldIndex V)
  getRecord : T → RID → Option R
  join : List R → List R → List R
  grouping : Grouping R K A
  sort : List R → List R
  sortPerm : ∀ rows,(sort rows).Perm rows
  project : R → R

namespace Engine
variable {R K A : Type} (engine : Engine F V T R K A)

def operand (row : R) : Operand F V → V
  | .field f => engine.read row f
  | .value v => v
  | .cast f => engine.cast (engine.read row f)

def holds (row : R) (c : Comparison F V) : Bool := engine.compare c.op (engine.operand row c.left) (engine.operand row c.right)

def atomHolds (row : R) : Atom F V → Bool
  | .comparison c => engine.holds row c
  | .value b => b

def exprHolds (row : R) : Expr F V → Bool
  | .atom a => engine.atomHolds row a
  | .conjunction children => children.all (engine.atomHolds row)

/- The comparison with a constant that picks an index: the first `=` or `<>` on an indexed field. -/
def chooseIndex (table : T) : List (Comparison F V) → Option (FieldIndex V × V)
  | [] => none
  | c :: rest =>
    if c.op = .equalTo ∨ c.op = .notEqual then match c.left,c.right with
      | .field f,.value v => match engine.index table f with
        | some index => some (index,v)
        | none => chooseIndex table rest
      | .value v,.field f => match engine.index table f with
        | some index => some (index,v)
        | none => chooseIndex table rest
      | _,_ => chooseIndex table rest
    else chooseIndex table rest

def fetch (table : T) (predicates : List (Comparison F V)) (rid : RID) : Except Exit (Option R) :=
  match engine.getRecord table rid with
  | none => .error (.rc .recordNotExist)
  | some row => .ok (Option.guard (fun row => predicates.all (engine.holds row)) row)

def scan (table : T) (predicates : List (Comparison F V)) : Except Exit (List R) :=
  match engine.chooseIndex table predicates with
  | some (index,v) => match index.index.scan (index.constant v) with
    | .error e => .error e
    | .ok rids => Scan.walk (engine.fetch table predicates) rids
  | none => .ok ((engine.rows table).filter fun row => predicates.all (engine.holds row))

def apply (op : Operator) (rows : List R) : Except Exit (List R) :=
  match op with
  | .project => .ok (rows.map engine.project)
  | .limit n => .ok (rows.take n)
  | .orderBy => .ok (engine.sort rows)
  | .groupBy => engine.grouping.rows rows
  | .delete => .ok rows

def execute (op : Operator) (below : Except Exit (List R)) : Except Exit (List R) :=
  match below with
  | .error e => .error e
  | .ok rows => engine.apply op rows

def childless : Operator → Except Exit (List R)
  | .project => .ok []
  | .limit _ => .error (.rc .invalidArgument)
  | .orderBy => .ok []
  | .groupBy => .error .abort
  | .delete => .ok []

def run : Plan F V T → Except Exit (List R)
  | .nothing => .error .abort
  | .tableGet table predicates => engine.scan table predicates
  | .join left right => match run left,run right with
    | .ok l,.ok r => .ok (engine.join l r)
    | .error e,_ => .error e
    | .ok _,.error e => .error e
  | .predicate e child => match run child with
    | .error err => .error err
    | .ok rows => .ok (rows.filter fun row => engine.exprHolds row e)
  | .operator op .nothing => childless op
  | .operator op child => engine.execute op (run child)

end Engine

/- `PhysicalPlanGenerator::create` asserts a child for a predicate and a group by. -/
def accepted : Plan F V T → Bool
  | .nothing => false
  | .tableGet _ _ => true
  | .join left right => accepted left && accepted right
  | .predicate _ child => accepted child
  | .operator .groupBy child => accepted child
  | .operator _ .nothing => true
  | .operator _ child => accepted child

end MiniOb.Rewrite
