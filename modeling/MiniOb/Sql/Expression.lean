import MiniOb.Common.Types
import MiniOb.Lib.Number

/-! Expressions over INTS and FLOATS, evaluated on a row's tuple and on a chunk's columns
(`sql/expr/expression.cpp`, `sql/expr/arithmetic_operator.hpp`, `storage/common/column.cpp`, `common/type`).
Floats are read as exact numbers. -/
namespace MiniOb.Expression

inductive NumType where
  | ints
  | floats
  deriving DecidableEq, Repr

inductive Value where
  | ints (i : Int32)
  | floats (x : Number)
  deriving DecidableEq, Repr

def epsilon : Rat := 1 / 1000000

def floatMax : Rat := (2 ^ 24 - 1) * 2 ^ 104

namespace Value

def type : Value → NumType
  | ints _ => .ints
  | floats _ => .floats

def getInt : Value → Int32
  | ints i => i
  | floats (.finite q) => Int32.ofInt (q.num.tdiv q.den)
  | floats _ => 0

def getFloat : Value → Number
  | ints i => .finite i.toInt
  | floats x => x

end Value

def compareInt (a b : Int32) : Int := if a > b then 1 else if a < b then -1 else 0

def compareFloat (a b : Number) : Int :=
  let cmp := a.sub b
  if Number.less (.finite epsilon) cmp then 1 else if Number.less cmp (.finite (-epsilon)) then -1 else 0

def Value.compare : Value → Value → Int
  | .ints a,.ints b => compareInt a b
  | a,b => compareFloat a.getFloat b.getFloat

inductive ArithmeticType where
  | add
  | sub
  | mul
  | div
  deriving DecidableEq, Repr

inductive CompOp where
  | equalTo
  | lessEqual
  | notEqual
  | lessThan
  | greatEqual
  | greatThan
  deriving DecidableEq, Repr

/- A unary minus is an arithmetic expression without a right child. Constants and fields hold exact numbers. -/
inductive Expr where
  | field (column : Nat) (type : NumType)
  | int (i : Int32)
  | float (q : Rat)
  | cast (child : Expr) (type : NumType)
  | arithmetic (op : ArithmeticType) (left right : Expr)
  | negative (left : Expr)
  deriving DecidableEq, Repr

def Expr.valueType : Expr → NumType
  | field _ type => type
  | int _ => .ints
  | float _ => .floats
  | cast _ type => type
  | arithmetic op left right => if left.valueType = .ints ∧ right.valueType = .ints ∧ op ≠ .div then .ints else .floats
  | negative left => left.valueType

/- `CastExpr::cast`: only INTS to FLOATS is a conversion. -/
def castValue (value : Value) (type : NumType) : Except Exit Value :=
  if type = value.type then .ok value
  else match value,type with
    | .ints i,.floats => .ok (.floats (.finite i.toInt))
    | .ints _,_ => .error (.rc .schemaFieldTypeMismatch)
    | .floats _,_ => .error (.rc .unsupported)

/- `Value::divide` on INTS is not reached: a quotient is always FLOATS. -/
def calcValue (target : NumType) (op : ArithmeticType) (left right : Value) : Value :=
  match target,op with
  | .ints,.add => .ints (left.getInt + right.getInt)
  | .ints,.sub => .ints (left.getInt - right.getInt)
  | .ints,.mul => .ints (left.getInt * right.getInt)
  | .ints,.div => .ints 0
  | .floats,.add => .floats (left.getFloat.add right.getFloat)
  | .floats,.sub => .floats (left.getFloat.sub right.getFloat)
  | .floats,.mul => .floats (left.getFloat.mul right.getFloat)
  | .floats,.div =>
    if Number.less (.finite (-epsilon)) right.getFloat && Number.less right.getFloat (.finite epsilon) then .floats (.finite floatMax)
    else .floats (left.getFloat.div right.getFloat)

abbrev Row := Nat → Value

/- `get_value`: a unary minus evaluates its missing right child. -/
def Expr.getValue (row : Row) : Expr → Except Exit Value
  | field column _ => .ok (row column)
  | int i => .ok (.ints i)
  | float q => .ok (.floats (.finite q))
  | cast child type => match child.getValue row with
    | .error e => .error e
    | .ok value => castValue value type
  | e@(arithmetic op left right) => match left.getValue row with
    | .error e => .error e
    | .ok l => match right.getValue row with
      | .error e => .error e
      | .ok r => .ok (calcValue e.valueType op l r)
  | negative left => match left.getValue row with
    | .error e => .error e
    | .ok _ => .error .abort

def compareResult (op : CompOp) (cmp : Int) : Bool :=
  match op with
  | .equalTo => 0 == cmp
  | .lessEqual => cmp <= 0
  | .notEqual => cmp != 0
  | .lessThan => cmp < 0
  | .greatEqual => cmp >= 0
  | .greatThan => cmp > 0

def compareGetValue (op : CompOp) (left right : Expr) (row : Row) : Except Exit Bool :=
  match left.getValue row with
  | .error e => .error e
  | .ok l => match right.getValue row with
    | .error e => .error e
    | .ok r => .ok (compareResult op (l.compare r))

/- A word of column memory holds what was stored there; loops that read it as the other type get its bits. -/
structure Bits where
  toFloat : Int32 → Number
  toInt : Number → Int32

namespace Bits
variable (bits : Bits)

def asInt : Value → Int32
  | .ints i => i
  | .floats x => bits.toInt x

def asFloat : Value → Number
  | .ints i => bits.toFloat i
  | .floats x => x

def asType : NumType → Value → Value
  | .ints,word => .ints (bits.asInt word)
  | .floats,word => .floats (bits.asFloat word)

end Bits

structure Column where
  type : NumType
  constant : Bool
  count : Nat
  capacity : Nat
  data : List Value

namespace Column

def word (column : Column) (i : Nat) : Option Value := column.data[if column.constant then 0 else i]?

def getValue (bits : Bits) (column : Column) (i : Nat) : Option Value :=
  if (if column.constant then 0 else i) < column.count then (column.word i).map (bits.asType column.type) else none

/- `Column::append_value`; the caller does not look at the failure. -/
def appendValue (column : Column) (value : Value) : Column :=
  if column.count < column.capacity then {column with data := column.data ++ [value],count := column.count + 1} else column

end Column

def defaultCapacity : Nat := 8192

structure Chunk where
  columns : List Column

def Chunk.rows (chunk : Chunk) : Nat := match chunk.columns with
  | [] => 0
  | column :: _ => column.count

def castLoop (bits : Bits) (child : Column) (type : NumType) : List Nat → Column → Except Exit Column
  | [],column => .ok column
  | i :: rest,column => match child.getValue bits i with
    | none => .error .abort
    | some value => match castValue value type with
      | .error e => .error e
      | .ok value => castLoop bits child type rest (column.appendValue value)

def calcWord (bits : Bits) (target : NumType) (op : ArithmeticType) (left right : Value) : Value :=
  match target,op with
  | .ints,.add => .ints (bits.asInt left + bits.asInt right)
  | .ints,.sub => .ints (bits.asInt left - bits.asInt right)
  | .ints,.mul => .ints (bits.asInt left * bits.asInt right)
  | .ints,.div => .ints (bits.asInt left / bits.asInt right)
  | .floats,.add => .floats ((bits.asFloat left).add (bits.asFloat right))
  | .floats,.sub => .floats ((bits.asFloat left).sub (bits.asFloat right))
  | .floats,.mul => .floats ((bits.asFloat left).mul (bits.asFloat right))
  | .floats,.div => .floats ((bits.asFloat left).div (bits.asFloat right))

/- Reading past a column's memory is undefined. -/
def binaryOperator (bits : Bits) (target : NumType) (op : ArithmeticType) (left right : Column) : List Nat → Except Exit (List Value)
  | [] => .ok []
  | i :: rest => match left.word i,right.word i with
    | some l,some r => match binaryOperator bits target op left right rest with
      | .error e => .error e
      | .ok words => .ok (calcWord bits target op l r :: words)
    | _,_ => .error .abort

def calcColumn (bits : Bits) (target : NumType) (op : ArithmeticType) (left right : Column) : Except Exit Column :=
  let size := max left.count right.count
  match binaryOperator bits target op left right (List.range size) with
  | .error e => .error e
  | .ok data => .ok {type := target,constant := left.constant && right.constant,count := size,capacity := size,data}

def Expr.getColumn (bits : Bits) (chunk : Chunk) : Expr → Except Exit Column
  | field column _ => match chunk.columns[column]? with
    | none => .error .abort
    | some column => .ok column
  | int i => .ok {type := .ints,constant := true,count := chunk.rows,capacity := 1,data := [.ints i]}
  | float q => .ok {type := .floats,constant := true,count := chunk.rows,capacity := 1,data := [.floats (.finite q)]}
  | cast child type => match child.getColumn bits chunk with
    | .error e => .error e
    | .ok column => castLoop bits column type (List.range column.count)
        {type,constant := false,count := 0,capacity := defaultCapacity,data := []}
  | e@(arithmetic op left right) => match left.getColumn bits chunk with
    | .error e => .error e
    | .ok l => match right.getColumn bits chunk with
      | .error e => .error e
      | .ok r => calcColumn bits e.valueType op l r
  | negative left => match left.getColumn bits chunk with
    | .error e => .error e
    | .ok _ => .error .abort

def compareInts (op : CompOp) (a b : Int32) : Bool :=
  match op with
  | .equalTo => a == b
  | .lessEqual => a ≤ b
  | .notEqual => a != b
  | .lessThan => a < b
  | .greatEqual => a ≥ b
  | .greatThan => a > b

def compareFloats (op : CompOp) (a b : Number) : Bool :=
  match op with
  | .equalTo => a.equal b
  | .lessEqual => a.less b || a.equal b
  | .notEqual => !a.equal b
  | .lessThan => a.less b
  | .greatEqual => b.less a || a.equal b
  | .greatThan => b.less a

def compareWord (bits : Bits) (type : NumType) (op : CompOp) (left right : Value) : Bool :=
  match type with
  | .ints => compareInts op (bits.asInt left) (bits.asInt right)
  | .floats => compareFloats op (bits.asFloat left) (bits.asFloat right)

/- `compare_result` clears the rows that fail; a row past the selection is undefined. -/
def compareLoop (bits : Bits) (op : CompOp) (left right : Column) : List Nat → List Bool → Except Exit (List Bool)
  | [],select => .ok select
  | i :: rest,select => match left.word i,right.word i,select[i]? with
    | some l,some r,some chosen =>
      compareLoop bits op left right rest (select.set i (chosen && compareWord bits left.type op l r))
    | _,_,_ => .error .abort

def compareEval (bits : Bits) (op : CompOp) (left right : Expr) (chunk : Chunk) (select : List Bool) : Except Exit (List Bool) :=
  match left.getColumn bits chunk with
  | .error e => .error e
  | .ok l => match right.getColumn bits chunk with
    | .error e => .error e
    | .ok r =>
      if l.type ≠ r.type then .error (.rc .internal)
      else compareLoop bits op l r (List.range (if l.constant && !r.constant then r.count else l.count)) select

end MiniOb.Expression
