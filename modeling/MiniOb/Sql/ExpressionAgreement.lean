import Mathlib.Tactic.Linarith
import MiniOb.Sql.Expression

/-! The two evaluators of `MiniOb.Sql.Expression` give each row the same value where the operands' types meet,
no divisor is near zero and no casted column is longer than its buffer; a comparison of FLOATS also needs its
sides equal or apart. -/
namespace MiniOb.Expression
open List MiniOb.Expression.Expr

def Exact : NumType → Value → Prop
  | .ints,value => ∃ i,value = .ints i
  | .floats,value => ∃ q,value = .floats (.finite q)

variable {type : NumType} {value : Value} {left right : Column} {l r values : Nat → Value} {n : Nat}

theorem exactType (exact : Exact type value) : value.type = type := by
  cases type with
  | ints =>
    obtain ⟨i,rfl⟩ := exact
    rfl
  | floats =>
    obtain ⟨q,rfl⟩ := exact
    rfl

theorem exactRead (bits : Bits) (exact : Exact type value) : bits.asType type value = value := by
  cases type with
  | ints =>
    obtain ⟨i,rfl⟩ := exact
    rfl
  | floats =>
    obtain ⟨q,rfl⟩ := exact
    rfl

structure Column.Carries (column : Column) (type : NumType) (n : Nat) (values : Nat → Value) : Prop where
  ofType : column.type = type
  count : column.count = n
  word : ∀ i < n,column.word i = some (values i)
  exact : ∀ i < n,Exact type (values i)

structure Chunk.Holds (chunk : Chunk) (types : List NumType) (n : Nat) (rows : Nat → Row) : Prop where
  count : chunk.rows = n
  columns : ∀ (c : Nat) (type : NumType),types[c]? = some type →
    ∃ column,chunk.columns[c]? = some column ∧ column.Carries type n fun i => rows i c

namespace Expr

def Bound (types : List NumType) : Expr → Prop
  | field column type => types[column]? = some type
  | int _ => True
  | float _ => True
  | cast child _ => child.Bound types
  | arithmetic _ left right => left.Bound types ∧ right.Bound types
  | negative left => left.Bound types

/- Both evaluators fail: a unary minus, or a cast of FLOATS to INTS. -/
def Fails : Expr → Prop
  | cast child type => child.Fails ∨ (child.valueType = .floats ∧ type = .ints)
  | arithmetic _ left right => left.Fails ∨ right.Fails
  | negative _ => True
  | _ => False

def Plain (n : Nat) (rows : Nat → Row) : Expr → Prop
  | field _ _ => True
  | int _ => True
  | float _ => True
  | cast child type => child.Plain n rows ∧ (type = child.valueType ∨ type = .floats) ∧ n ≤ defaultCapacity
  | arithmetic op left right => left.Plain n rows ∧ right.Plain n rows ∧ left.valueType = right.valueType ∧
      (op = .div → left.valueType = .floats ∧
        ∀ i < n,∀ q,right.getValue (rows i) = .ok (.floats (.finite q)) → epsilon ≤ |q|)
  | negative _ => False

end Expr

theorem binaryOperatorWords (bits : Bits) (target : NumType) (op : ArithmeticType)
    (is : List Nat) (lefts : ∀ i ∈ is,left.word i = some (l i)) (rights : ∀ i ∈ is,right.word i = some (r i)) :
    binaryOperator bits target op left right is = .ok (is.map fun i => calcWord bits target op (l i) (r i)) := by
  induction is with
  | nil => rfl
  | cons i rest ih =>
    have further := ih (fun j mem => lefts j (by simp [mem])) (fun j mem => rights j (by simp [mem]))
    simp [binaryOperator,lefts i (by simp),rights i (by simp),further]

theorem castLoopValues (bits : Bits) {child casted} (is : List Nat)
    (reads : ∀ i ∈ is,child.getValue bits i = some (values i)) (casts : ∀ i ∈ is,castValue (values i) type = .ok (casted i))
    (column : Column) (room : column.count + is.length ≤ column.capacity) :
    castLoop bits child type is column = .ok {column with data := column.data ++ is.map casted,count := column.count + is.length} := by
  induction is generalizing column with
  | nil => simp [castLoop]
  | cons i rest ih =>
    simp only [length_cons] at room
    have fits : column.count < column.capacity := by omega
    have appended : column.appendValue (casted i) = {column with data := column.data ++ [casted i],count := column.count + 1} := if_pos fits
    have further := ih (fun j mem => reads j (by simp [mem])) (fun j mem => casts j (by simp [mem])) (column.appendValue (casted i))
      (by rw [appended]; simp only; omega)
    simp only [castLoop,reads i (by simp),casts i (by simp),further]
    simp [appended,Nat.add_assoc,Nat.add_comm 1]

theorem carriesRead (bits : Bits) {column : Column}
    (carries : column.Carries type n values) (inside : i < n) : column.getValue bits i = some (values i) := by
  have bound : (if column.constant then 0 else i) < column.count := by
    rw [carries.count]
    split <;> omega
  rw [Column.getValue,if_pos bound,carries.word i inside,Option.map_some,carries.ofType,exactRead bits (carries.exact i inside)]

theorem calcAgrees (bits : Bits) {op l r} (left : Exact type l) (right : Exact type r)
    (divides : op = .div → type = .floats ∧ ∀ q,r = .floats (.finite q) → epsilon ≤ |q|) :
    calcWord bits type op l r = calcValue type op l r ∧ Exact type (calcValue type op l r) := by
  cases type with
  | ints =>
    obtain ⟨a,rfl⟩ := left
    obtain ⟨b,rfl⟩ := right
    cases op with
    | div => exact absurd (divides rfl).1 (by simp)
    | _ => exact ⟨rfl,_,rfl⟩
  | floats =>
    obtain ⟨a,rfl⟩ := left
    obtain ⟨b,rfl⟩ := right
    cases op with
    | div =>
      have far := (divides rfl).2 b rfl
      have positive : (0 : Rat) < epsilon := by norm_num [epsilon]
      have nonzero : b ≠ 0 := by
        intro zero
        simp only [zero,abs_zero] at far
        linarith
      have notNear : ¬ (-epsilon < b ∧ b < epsilon) := fun near => absurd (abs_lt.2 near) (not_lt.2 far)
      have quotient := Number.divFinite a nonzero
      simp [calcWord,calcValue,Bits.asFloat,Value.getFloat,quotient,notNear,Exact]
    | _ => exact ⟨rfl,by simp [calcValue,Value.getFloat,Exact]⟩

section Trees
variable {types : List NumType} {n : Nat} {rows : Nat → Row} {chunk : Chunk} (bits : Bits)

variable {left right : Expr} {type : NumType} {column : Column} {value : Value} {i : Nat}

theorem arithmeticType (op : ArithmeticType) (same : left.valueType = right.valueType)
    (divides : op = .div → left.valueType = .floats) : (arithmetic op left right).valueType = left.valueType := by
  cases kind : left.valueType with
  | ints =>
    have other : op ≠ .div := by
      intro isDiv
      simp [divides isDiv] at kind
    simp [valueType,← same,kind,other]
  | floats => simp [valueType,kind]

theorem tableCarries (capacity : Nat) {constant words values}
    (same : ∀ i < n,words i = values i) (exact : ∀ i < n,Exact type (values i)) (steady : constant = true → ∀ i < n,values i = values 0) :
    Column.Carries ⟨type,constant,n,capacity,(range n).map words⟩ type n values where
  ofType := rfl
  count := rfl
  exact := exact
  word := by
    intro i inside
    cases isConstant : constant with
    | false => simp [Column.word,inside,same i inside]
    | true =>
      have nonempty : 0 < n := by omega
      simp [Column.word,nonempty,same 0 nonempty,steady isConstant i inside]

theorem constantSteady {values} (carries : column.Carries type n values)
    (constant : column.constant = true) : ∀ i < n,values i = values 0 := by
  intro i inside
  have here := carries.word i inside
  have first := carries.word 0 (by omega)
  simp only [Column.word,constant,if_true] at here first
  exact Option.some.inj (here.symm.trans first)

theorem castExact {kind} (exact : Exact kind value) (supported : type = kind ∨ type = .floats) :
    ∃ casted,castValue value type = .ok casted ∧ Exact type casted := by
  cases kind with
  | ints =>
    obtain ⟨i,rfl⟩ := exact
    cases type with
    | ints => exact ⟨.ints i,rfl,i,rfl⟩
    | floats => exact ⟨.floats (.finite i.toInt),rfl,_,rfl⟩
  | floats =>
    obtain ⟨q,rfl⟩ := exact
    cases type with
    | ints => rcases supported with same | same <;> cases same
    | floats => exact ⟨.floats (.finite q),rfl,q,rfl⟩

def Expr.Carried (chunk : Chunk) (n : Nat) (rows : Nat → Row) (e : Expr) : Prop :=
  ∃ column values,e.getColumn bits chunk = .ok column ∧ column.Carries e.valueType n values ∧
    ∀ i < n,e.getValue (rows i) = .ok (values i)

theorem castCarried {child : Expr} (carried : child.Carried bits chunk n rows)
    (supported : type = child.valueType ∨ type = .floats) (short : n ≤ defaultCapacity) :
    (cast child type).Carried bits chunk n rows := by
  obtain ⟨column,values,ran,carries,gave⟩ := carried
  have each : ∀ i,∃ value,i < n → castValue (values i) type = .ok value ∧ Exact type value := by
    intro i
    by_cases inside : i < n
    · obtain ⟨value,ok,exact⟩ := castExact (carries.exact i inside) supported
      exact ⟨value,fun _ => ⟨ok,exact⟩⟩
    · exact ⟨.ints 0,fun contra => absurd contra inside⟩
  choose casted good using each
  have room : 0 + (range n).length ≤ defaultCapacity := by simpa using short
  have loop := castLoopValues bits (range n) (fun i mem => carriesRead bits carries (mem_range.1 mem))
    (fun i mem => (good i (mem_range.1 mem)).1) ⟨type,false,0,defaultCapacity,[]⟩ room
  simp only [nil_append,length_range,Nat.zero_add] at loop
  have varied : false = true → ∀ i < n,casted i = casted 0 := by simp
  refine ⟨_,casted,?_,tableCarries defaultCapacity (fun i _ => rfl) (fun i inside => (good i inside).2) varied,?_⟩
  · simp only [getColumn,ran,carries.count,loop,valueType]
  · intro i inside
    simp only [getValue,gave i inside,(good i inside).1]

theorem arithmeticCarried {op} (carriedLeft : left.Carried bits chunk n rows)
    (carriedRight : right.Carried bits chunk n rows) (same : left.valueType = right.valueType)
    (divides : op = .div → left.valueType = .floats ∧
      ∀ i < n,∀ q,right.getValue (rows i) = .ok (.floats (.finite q)) → epsilon ≤ |q|) :
    (arithmetic op left right).Carried bits chunk n rows := by
  obtain ⟨l,lefts,ranLeft,carriesLeft,gaveLeft⟩ := carriedLeft
  obtain ⟨r,rights,ranRight,carriesRight,gaveRight⟩ := carriedRight
  have target := arithmeticType op same fun isDiv => (divides isDiv).1
  have each : ∀ i < n,calcWord bits left.valueType op (lefts i) (rights i) = calcValue left.valueType op (lefts i) (rights i) ∧
      Exact left.valueType (calcValue left.valueType op (lefts i) (rights i)) := by
    intro i inside
    refine calcAgrees bits (carriesLeft.exact i inside) (same ▸ carriesRight.exact i inside) fun isDiv => ⟨(divides isDiv).1,?_⟩
    intro q isFloat
    exact (divides isDiv).2 i inside q (isFloat ▸ gaveRight i inside)
  have words := binaryOperatorWords bits left.valueType op (l := lefts) (r := rights) (range n)
    (fun i mem => carriesLeft.word i (mem_range.1 mem)) (fun i mem => carriesRight.word i (mem_range.1 mem))
  have steady : (l.constant && r.constant) = true → ∀ i < n,
      calcValue left.valueType op (lefts i) (rights i) = calcValue left.valueType op (lefts 0) (rights 0) := by
    intro constant i inside
    obtain ⟨isLeft,isRight⟩ := Bool.and_eq_true_iff.1 constant
    rw [constantSteady carriesLeft isLeft i inside,constantSteady carriesRight isRight i inside]
  rw [Expr.Carried,target]
  refine ⟨_,fun i => calcValue left.valueType op (lefts i) (rights i),?_,
    tableCarries n (fun i inside => (each i inside).1) (fun i inside => (each i inside).2) steady,?_⟩
  · simp only [getColumn,ranLeft,ranRight,calcColumn,target,carriesLeft.count,carriesRight.count,max_self,words]
  · intro i inside
    simp [getValue,gaveLeft i inside,gaveRight i inside,target]

theorem plainAgrees (holds : chunk.Holds types n rows) (e : Expr) (bound : e.Bound types) (plain : e.Plain n rows) :
    e.Carried bits chunk n rows := by
  induction e with
  | field c type =>
    obtain ⟨column,isColumn,carries⟩ := holds.columns c type bound
    exact ⟨column,_,by simp [getColumn,isColumn],carries,fun i _ => rfl⟩
  | int k =>
    exact ⟨_,fun _ => .ints k,rfl,⟨rfl,holds.count,fun i _ => by simp [Column.word],fun i _ => ⟨k,rfl⟩⟩,fun i _ => rfl⟩
  | float q =>
    exact ⟨_,fun _ => .floats (.finite q),rfl,⟨rfl,holds.count,fun i _ => by simp [Column.word],fun i _ => ⟨q,rfl⟩⟩,fun i _ => rfl⟩
  | cast child type ih => exact castCarried bits (ih bound plain.1) plain.2.1 plain.2.2
  | arithmetic op left right ihLeft ihRight =>
    obtain ⟨plainLeft,plainRight,same,divides⟩ := plain
    exact arithmeticCarried bits (ihLeft bound.1 plainLeft) (ihRight bound.2 plainRight) same divides
  | negative left _ => exact plain.elim

theorem calcValueType (type : NumType) (op : ArithmeticType) (l r : Value) : (calcValue type op l r).type = type := by
  cases type with
  | ints => cases op <;> rfl
  | floats =>
    cases op with
    | div =>
      simp only [calcValue]
      split <;> rfl
    | _ => rfl

theorem valueTyped (holds : chunk.Holds types n rows) (e : Expr) (bound : e.Bound types) (inside : i < n)
    (gave : e.getValue (rows i) = .ok value) : value.type = e.valueType := by
  induction e generalizing value with
  | field c type =>
    obtain ⟨column,_,carries⟩ := holds.columns c type bound
    cases gave
    exact exactType (carries.exact i inside)
  | int k =>
    cases gave
    rfl
  | float q =>
    cases gave
    rfl
  | cast child type _ =>
    simp only [getValue] at gave
    split at gave
    · cases gave
    · rename_i v _
      cases v <;> cases type <;> simp [castValue,Value.type] at gave <;> cases gave <;> rfl
  | arithmetic op left right _ _ =>
    simp only [getValue] at gave
    split at gave
    · cases gave
    · split at gave
      · cases gave
      · cases gave
        exact calcValueType _ _ _ _
  | negative left _ =>
    simp only [getValue] at gave
    split at gave <;> cases gave

theorem castLoopKeeps {child result} (is : List Nat)
    (ran : castLoop bits child type is column = .ok result) :
    result.type = column.type ∧ (column.count < column.capacity → is ≠ [] → 0 < result.count) ∧ (0 < column.count → 0 < result.count) := by
  induction is generalizing column with
  | nil =>
    cases ran
    exact ⟨rfl,fun _ none => absurd rfl none,id⟩
  | cons i rest ih =>
    simp only [castLoop] at ran
    split at ran
    · cases ran
    · split at ran
      · cases ran
      · obtain ⟨sameType,_,stays⟩ := ih ran
        by_cases fits : column.count < column.capacity
        · rw [Column.appendValue,if_pos fits] at sameType stays
          exact ⟨sameType,fun _ _ => stays (Nat.succ_pos _),fun _ => stays (Nat.succ_pos _)⟩
        · rw [Column.appendValue,if_neg fits] at sameType stays
          exact ⟨sameType,fun room => absurd room fits,stays⟩

theorem columnTyped (holds : chunk.Holds types n rows) (nonempty : 0 < n) (e : Expr) (bound : e.Bound types)
    (ran : e.getColumn bits chunk = .ok column) : column.type = e.valueType ∧ 0 < column.count := by
  induction e generalizing column with
  | field c type =>
    obtain ⟨column',isColumn,carries⟩ := holds.columns c type bound
    simp only [getColumn,isColumn] at ran
    cases ran
    exact ⟨carries.ofType,carries.count ▸ nonempty⟩
  | int k =>
    cases ran
    exact ⟨rfl,holds.count ▸ nonempty⟩
  | float q =>
    cases ran
    exact ⟨rfl,holds.count ▸ nonempty⟩
  | cast child type ih =>
    simp only [getColumn] at ran
    split at ran
    · cases ran
    · rename_i childColumn ranChild
      obtain ⟨_,some⟩ := ih bound ranChild
      obtain ⟨sameType,grows,_⟩ := castLoopKeeps bits _ ran
      exact ⟨sameType,grows (by simp [defaultCapacity]) (by simpa using Nat.ne_of_gt some)⟩
  | arithmetic op left right ihLeft ihRight =>
    simp only [getColumn] at ran
    split at ran
    · cases ran
    · rename_i l ranLeft
      split at ran
      · cases ran
      · simp only [calcColumn] at ran
        split at ran
        · cases ran
        · cases ran
          exact ⟨rfl,Nat.lt_of_lt_of_le (ihLeft bound.1 ranLeft).2 (Nat.le_max_left _ _)⟩
  | negative left _ =>
    simp only [getColumn] at ran
    split at ran <;> cases ran

theorem floatsToInts (isFloat : value.type = .floats) : castValue value .ints = .error (.rc .unsupported) := by
  cases value with
  | ints i => cases isFloat
  | floats x => rfl

theorem readTyped (read : column.getValue bits i = some value) : value.type = column.type := by
  simp only [Column.getValue,Option.ite_none_right_eq_some,Option.map_eq_some_iff] at read
  obtain ⟨_,word,_,rfl⟩ := read
  cases column.type <;> rfl

theorem failsValue (holds : chunk.Holds types n rows) (e : Expr) (bound : e.Bound types) (fails : e.Fails) (inside : i < n) :
    ∃ err,e.getValue (rows i) = .error err := by
  induction e with
  | field c type => exact fails.elim
  | int k => exact fails.elim
  | float q => exact fails.elim
  | cast child type ih =>
    cases gave : child.getValue (rows i) with
    | error err => exact ⟨err,by simp [getValue,gave]⟩
    | ok value =>
      rcases fails with fails | ⟨isFloat,rfl⟩
      · obtain ⟨err,failed⟩ := ih bound fails
        simp [failed] at gave
      · have kind := (valueTyped holds child bound inside gave).trans isFloat
        exact ⟨.rc .unsupported,by simp only [getValue,gave,floatsToInts kind]⟩
  | arithmetic op left right ihLeft ihRight =>
    cases gave : left.getValue (rows i) with
    | error err => exact ⟨err,by simp [getValue,gave]⟩
    | ok value =>
      rcases fails with fails | fails
      · obtain ⟨err,failed⟩ := ihLeft bound.1 fails
        simp [failed] at gave
      · obtain ⟨err,failed⟩ := ihRight bound.2 fails
        exact ⟨err,by simp [getValue,gave,failed]⟩
  | negative left _ =>
    cases gave : left.getValue (rows i) with
    | error err => exact ⟨err,by simp [getValue,gave]⟩
    | ok value => exact ⟨.abort,by simp [getValue,gave]⟩

theorem failsColumn (holds : chunk.Holds types n rows) (nonempty : 0 < n) (e : Expr) (bound : e.Bound types) (fails : e.Fails) :
    ∃ err,e.getColumn bits chunk = .error err := by
  induction e with
  | field c type => exact fails.elim
  | int k => exact fails.elim
  | float q => exact fails.elim
  | cast child type ih =>
    cases ran : child.getColumn bits chunk with
    | error err => exact ⟨err,by simp [getColumn,ran]⟩
    | ok column =>
      rcases fails with fails | ⟨isFloat,rfl⟩
      · obtain ⟨err,failed⟩ := ih bound fails
        simp [failed] at ran
      · obtain ⟨kind,some⟩ := columnTyped bits holds nonempty child bound ran
        obtain ⟨count,isCount⟩ : ∃ k,column.count = k + 1 := ⟨column.count - 1,by omega⟩
        simp only [getColumn,ran,isCount,range_succ_eq_map,castLoop]
        cases read : column.getValue bits 0 with
        | none => exact ⟨_,rfl⟩
        | some value =>
          have readType := (readTyped bits read).trans (kind.trans isFloat)
          exact ⟨.rc .unsupported,by simp only [floatsToInts readType]⟩
  | arithmetic op left right ihLeft ihRight =>
    cases ran : left.getColumn bits chunk with
    | error err => exact ⟨err,by simp [getColumn,ran]⟩
    | ok column =>
      rcases fails with fails | fails
      · obtain ⟨err,failed⟩ := ihLeft bound.1 fails
        simp [failed] at ran
      · obtain ⟨err,failed⟩ := ihRight bound.2 fails
        exact ⟨err,by simp [getColumn,ran,failed]⟩
  | negative left _ =>
    cases ran : left.getColumn bits chunk with
    | error err => exact ⟨err,by simp [getColumn,ran]⟩
    | ok column => exact ⟨.abort,by simp [getColumn,ran]⟩

end Trees

theorem compareLoopRows (bits : Bits) (op : CompOp) (is : List Nat) (nodup : is.Nodup)
    (lefts : ∀ i ∈ is,left.word i = some (l i)) (rights : ∀ i ∈ is,right.word i = some (r i)) (select : List Bool)
    (inside : ∀ i ∈ is,i < select.length) : ∃ chosen,compareLoop bits op left right is select = .ok chosen ∧
      (∀ i ∈ is,chosen[i]? = (select[i]?).map fun before => before && compareWord bits left.type op (l i) (r i)) ∧
      (∀ i ∉ is,chosen[i]? = select[i]?) := by
  induction is generalizing select with
  | nil => exact ⟨select,rfl,by simp,by simp⟩
  | cons i rest ih =>
    obtain ⟨notLater,nodupRest⟩ := nodup_cons.1 nodup
    obtain ⟨before,here⟩ : ∃ before,select[i]? = some before := ⟨_,getElem?_eq_getElem (inside i (by simp))⟩
    obtain ⟨chosen,ran,set,kept⟩ := ih nodupRest (fun j mem => lefts j (by simp [mem])) (fun j mem => rights j (by simp [mem]))
      (select.set i (before && compareWord bits left.type op (l i) (r i)))
      (fun j mem => by simpa using inside j (by simp [mem]))
    refine ⟨chosen,?_,?_,?_⟩
    · simp only [compareLoop,lefts i (by simp),rights i (by simp),here,ran]
    · intro j mem
      rcases mem_cons.1 mem with rfl | later
      · rw [kept j notLater]
        rw [getElem?_set_self (inside j (by simp)),here,Option.map_some]
      · have other : i ≠ j := fun same => notLater (same ▸ later)
        rw [set j later,getElem?_set_ne other]
    · intro j absent
      obtain ⟨other,absentRest⟩ := not_or.1 (mem_cons.not.1 absent)
      rw [kept j absentRest,getElem?_set_ne (Ne.symm other)]

/- The tuple's comparison of two FLOATS allows a difference, the column's does not. -/
def Apart (op : CompOp) : Value → Value → Prop
  | .ints _,.ints _ => True
  | .floats (.finite a),.floats (.finite b) => match op with
    | .equalTo => ¬ (0 < |a - b| ∧ |a - b| ≤ epsilon)
    | .notEqual => ¬ (0 < |a - b| ∧ |a - b| ≤ epsilon)
    | .lessThan => ¬ (0 < b - a ∧ b - a ≤ epsilon)
    | .greatEqual => ¬ (0 < b - a ∧ b - a ≤ epsilon)
    | .greatThan => ¬ (0 < a - b ∧ a - b ≤ epsilon)
    | .lessEqual => ¬ (0 < a - b ∧ a - b ≤ epsilon)
  | _,_ => False

theorem compareIntsAgree (op : CompOp) (a b : Int32) : compareResult op (compareInt a b) = compareInts op a b := by
  rcases Int.lt_trichotomy a.toInt b.toInt with less | same | more
  · have notMore : ¬ b < a := by simp [Int32.lt_iff_toInt_lt]; omega
    have isLess : a < b := by simpa [Int32.lt_iff_toInt_lt] using less
    have notSame : a ≠ b := fun same => by simp [same] at less
    have atMost : a ≤ b := by simp [Int32.le_iff_toInt_le]; omega
    have notAtLeast : ¬ b ≤ a := by simp [Int32.le_iff_toInt_le]; omega
    cases op <;> simp [compareResult,compareInt,compareInts,notMore,isLess,notSame,atMost,notAtLeast]
  · have isSame : a = b := Int32.toInt_inj.1 same
    cases op <;> simp [compareResult,compareInt,compareInts,isSame]
  · have isMore : b < a := by simpa [Int32.lt_iff_toInt_lt] using more
    have notSame : a ≠ b := fun same => by simp [same] at more
    have atLeast : b ≤ a := by simp [Int32.le_iff_toInt_le]; omega
    have notAtMost : ¬ a ≤ b := by simp [Int32.le_iff_toInt_le]; omega
    cases op <;> simp [compareResult,compareInt,compareInts,isMore,notSame,atLeast,notAtMost]

theorem compareFloatExact (a b : Rat) :
    compareFloat (.finite a) (.finite b) = if epsilon < a - b then 1 else if a - b < -epsilon then -1 else 0 := by
  simp [compareFloat]

theorem compareFloatsAgree (op : CompOp) (a b : Rat) :
    compareResult op (compareFloat (.finite a) (.finite b)) = compareFloats op (.finite a) (.finite b) ↔
      Apart op (.floats (.finite a)) (.floats (.finite b)) := by
  have positive : (0 : Rat) < epsilon := by norm_num [epsilon]
  rw [compareFloatExact]
  rcases lt_trichotomy a b with less | rfl | more
  · have notSame : a ≠ b := ne_of_lt less
    have notMore : ¬ b < a := not_lt_of_gt less
    have first : ¬ epsilon < a - b := by linarith
    have gap : |a - b| = b - a := by rw [abs_of_neg (by linarith),neg_sub]
    have gapPositive : 0 < b - a := by linarith
    have noGap : ¬ 0 < a - b := by linarith
    by_cases near : b - a ≤ epsilon
    · have second : ¬ a - b < -epsilon := by linarith
      cases op <;> simp [compareResult,compareFloats,Apart,first,second,less,notSame,notMore,gap,gapPositive,noGap,near]
    · have second : a - b < -epsilon := by linarith
      cases op <;> simp [compareResult,compareFloats,Apart,first,second,less,notSame,notMore,gap,gapPositive,noGap,near]
  · have first : ¬ epsilon < (0 : Rat) := by linarith
    have second : ¬ (0 : Rat) < -epsilon := by linarith
    cases op <;> simp [compareResult,compareFloats,Apart,first,second]
  · have notSame : a ≠ b := ne_of_gt more
    have notLess : ¬ a < b := not_lt_of_gt more
    have gap : |a - b| = a - b := abs_of_pos (by linarith)
    have gapPositive : 0 < a - b := by linarith
    have noGap : ¬ 0 < b - a := by linarith
    have second : ¬ a - b < -epsilon := by linarith
    by_cases near : a - b ≤ epsilon
    · have first : ¬ epsilon < a - b := by linarith
      cases op <;> simp [compareResult,compareFloats,Apart,first,second,more,notSame,notLess,gap,gapPositive,noGap,near]
    · have first : epsilon < a - b := by linarith
      cases op <;> simp [compareResult,compareFloats,Apart,first,more,notSame,notLess,gap,gapPositive,noGap,near]

theorem apartIff (bits : Bits) (op : CompOp) {l r} (left : Exact type l) (right : Exact type r) :
    compareResult op (l.compare r) = compareWord bits type op l r ↔ Apart op l r := by
  cases type with
  | ints =>
    obtain ⟨a,rfl⟩ := left
    obtain ⟨b,rfl⟩ := right
    exact iff_of_true (compareIntsAgree op a b) trivial
  | floats =>
    obtain ⟨a,rfl⟩ := left
    obtain ⟨b,rfl⟩ := right
    exact compareFloatsAgree op a b

theorem plainNotFails {rows} (e : Expr) (plain : e.Plain n rows) : ¬ e.Fails := by
  induction e with
  | cast child type ih =>
    rintro (fails | ⟨isFloat,isInt⟩)
    · exact ih plain.1 fails
    · rcases plain.2.1 with same | same <;> simp_all
  | arithmetic op left right ihLeft ihRight =>
    rintro (fails | fails)
    · exact ihLeft plain.1 fails
    · exact ihRight plain.2.1 fails
  | negative left _ => exact plain.elim
  | _ => exact id

inductive Tree where
  | number (e : Expr)
  | comparison (op : CompOp) (left right : Expr)

namespace Tree

def Bound (types : List NumType) : Tree → Prop
  | number e => e.Bound types
  | comparison _ left right => left.Bound types ∧ right.Bound types

def Agrees (bits : Bits) (chunk : Chunk) (n : Nat) (rows : Nat → Row) : Tree → Prop
  | number e => ∀ i < n,match e.getValue (rows i),e.getColumn bits chunk with
    | .ok value,.ok column => column.getValue bits i = some value
    | .error _,.error _ => True
    | _,_ => False
  | comparison op left right => ∀ select : List Bool,select.length = n → ∀ i < n,
    match compareGetValue op left right (rows i),compareEval bits op left right chunk select with
    | .ok result,.ok chosen => chosen[i]? = (select[i]?).map fun before => before && result
    | .error _,.error _ => True
    | _,_ => False

def Plain (n : Nat) (rows : Nat → Row) : Tree → Prop
  | number e => 0 < n → e.Fails ∨ e.Plain n rows
  | comparison _ left right => 0 < n → left.Fails ∨ right.Fails ∨ (left.Plain n rows ∧ right.Plain n rows)

def Apart (n : Nat) (rows : Nat → Row) : Tree → Prop
  | number _ => True
  | comparison op left right => left.Fails ∨ right.Fails ∨ ∀ i < n,left.valueType = right.valueType ∧
      ∀ l r,left.getValue (rows i) = .ok l → right.getValue (rows i) = .ok r → Expression.Apart op l r

end Tree

section Agreement
variable {types : List NumType} {n : Nat} {rows : Nat → Row} {chunk : Chunk} (bits : Bits)

theorem numberAgrees (holds : chunk.Holds types n rows) (e : Expr) (bound : e.Bound types) (plain : (Tree.number e).Plain n rows) :
    (Tree.number e).Agrees bits chunk n rows := by
  intro i inside
  rcases plain (Nat.zero_lt_of_lt inside) with fails | plain
  · obtain ⟨err,failed⟩ := failsValue holds e bound fails inside
    obtain ⟨err',failed'⟩ := failsColumn bits holds (Nat.zero_lt_of_lt inside) e bound fails
    simp [failed,failed']
  · obtain ⟨column,values,ran,carries,gave⟩ := plainAgrees bits holds e bound plain
    simp [ran,gave i inside,carriesRead bits carries inside]

variable {left right : Expr}

theorem failedComparison (holds : chunk.Holds types n rows) (op : CompOp) (boundLeft : left.Bound types)
    (boundRight : right.Bound types) (fails : left.Fails ∨ right.Fails) : (Tree.comparison op left right).Agrees bits chunk n rows := by
  intro select _ i inside
  have nonempty := Nat.zero_lt_of_lt inside
  have tuple : ∃ err,compareGetValue op left right (rows i) = .error err := by
    cases gave : left.getValue (rows i) with
    | error err => exact ⟨err,by simp [compareGetValue,gave]⟩
    | ok l =>
      rcases fails with fails | fails
      · obtain ⟨err,failed⟩ := failsValue holds left boundLeft fails inside
        simp [failed] at gave
      · obtain ⟨err,failed⟩ := failsValue holds right boundRight fails inside
        exact ⟨err,by simp [compareGetValue,gave,failed]⟩
  have column : ∃ err,compareEval bits op left right chunk select = .error err := by
    cases ran : left.getColumn bits chunk with
    | error err => exact ⟨err,by simp [compareEval,ran]⟩
    | ok l =>
      rcases fails with fails | fails
      · obtain ⟨err,failed⟩ := failsColumn bits holds nonempty left boundLeft fails
        simp [failed] at ran
      · obtain ⟨err,failed⟩ := failsColumn bits holds nonempty right boundRight fails
        exact ⟨err,by simp [compareEval,ran,failed]⟩
  obtain ⟨err,failed⟩ := tuple
  obtain ⟨err',failed'⟩ := column
  simp [failed,failed']

theorem comparedRows (op : CompOp) {l r lefts rights}
    (ranLeft : left.getColumn bits chunk = .ok l) (ranRight : right.getColumn bits chunk = .ok r)
    (carriesLeft : l.Carries left.valueType n lefts) (carriesRight : r.Carries right.valueType n rights)
    (same : left.valueType = right.valueType) {select} (length : select.length = n) :
    ∃ chosen,compareEval bits op left right chunk select = .ok chosen ∧
      ∀ i < n,chosen[i]? = (select[i]?).map fun before => before && compareWord bits left.valueType op (lefts i) (rights i) := by
  have count : (if l.constant && !r.constant then r.count else l.count) = n := by
    simp only [carriesLeft.count,carriesRight.count,ite_self]
  have sameType : l.type = r.type := by rw [carriesLeft.ofType,carriesRight.ofType,same]
  obtain ⟨chosen,ran,set,_⟩ := compareLoopRows bits op (range n) nodup_range
    (fun i mem => carriesLeft.word i (mem_range.1 mem)) (fun i mem => carriesRight.word i (mem_range.1 mem)) select
    (fun i mem => length ▸ mem_range.1 mem)
  refine ⟨chosen,?_,fun i inside => ?_⟩
  · simp only [compareEval,ranLeft,ranRight,sameType,ne_eq,not_true_eq_false,if_false,count,ran]
  · rw [set i (mem_range.2 inside),carriesLeft.ofType]

theorem apartRow (op : CompOp) {x y : Except Exit Value} {l r} (isLeft : x = .ok l) (isRight : y = .ok r)
    (exactLeft : Exact type l) (exactRight : Exact type r) :
    (∀ a b,x = .ok a → y = .ok b → Apart op a b) ↔ compareResult op (l.compare r) = compareWord bits type op l r := by
  rw [apartIff bits op exactLeft exactRight]
  constructor
  · intro apart
    exact apart _ _ isLeft isRight
  · intro apart a b isA isB
    cases Except.ok.inj (isA.symm.trans isLeft)
    cases Except.ok.inj (isB.symm.trans isRight)
    exact apart

theorem plainComparison (holds : chunk.Holds types n rows) (op : CompOp) (boundLeft : left.Bound types)
    (boundRight : right.Bound types) (plainLeft : left.Plain n rows) (plainRight : right.Plain n rows) :
    (Tree.comparison op left right).Agrees bits chunk n rows ↔ ∀ i < n,left.valueType = right.valueType ∧
      ∀ l r,left.getValue (rows i) = .ok l → right.getValue (rows i) = .ok r → Apart op l r := by
  obtain ⟨l,lefts,ranLeft,carriesLeft,gaveLeft⟩ := plainAgrees bits holds left boundLeft plainLeft
  obtain ⟨r,rights,ranRight,carriesRight,gaveRight⟩ := plainAgrees bits holds right boundRight plainRight
  have tuple : ∀ i < n,compareGetValue op left right (rows i) = .ok (compareResult op ((lefts i).compare (rights i))) := by
    intro i inside
    simp only [compareGetValue,gaveLeft i inside,gaveRight i inside]
  by_cases same : left.valueType = right.valueType
  · have rowIff := fun i (inside : i < n) => apartRow bits op (gaveLeft i inside) (gaveRight i inside)
      (carriesLeft.exact i inside) (same ▸ carriesRight.exact i inside)
    constructor
    · intro agrees i inside
      refine ⟨same,(rowIff i inside).2 ?_⟩
      obtain ⟨chosen,ran,set⟩ := comparedRows bits op ranLeft ranRight carriesLeft carriesRight same (length_replicate (a := true))
      have here := agrees (replicate n true) (length_replicate) i inside
      simp only [tuple i inside,ran,set i inside] at here
      simpa [inside,eq_comm] using here
    · intro apart select length i inside
      obtain ⟨chosen,ran,set⟩ := comparedRows bits op ranLeft ranRight carriesLeft carriesRight same length
      simp only [tuple i inside,ran,set i inside,(rowIff i inside).1 (apart i inside).2]
  · have failed : ∀ select,compareEval bits op left right chunk select = .error (.rc .internal) := by
      intro select
      simp only [compareEval,ranLeft,ranRight,carriesLeft.ofType,carriesRight.ofType,ne_eq,same,not_false_eq_true,if_true]
    constructor
    · intro agrees i inside
      have here := agrees (replicate n true) (length_replicate) i inside
      simp only [tuple i inside,failed] at here
    · intro apart select _ i inside
      exact absurd (apart i inside).1 same

theorem evaluationsAgreeIff (holds : chunk.Holds types n rows) (t : Tree) (bound : t.Bound types) (plain : t.Plain n rows) :
    t.Agrees bits chunk n rows ↔ t.Apart n rows := by
  cases t with
  | number e => exact iff_of_true (numberAgrees bits holds e bound plain) trivial
  | comparison op left right =>
    rcases Nat.eq_zero_or_pos n with rfl | some
    · exact iff_of_true (fun _ _ i none => absurd none (Nat.not_lt_zero i)) (.inr (.inr fun i none => absurd none (Nat.not_lt_zero i)))
    rcases plain some with fails | fails | ⟨plainLeft,plainRight⟩
    · exact iff_of_true (failedComparison bits holds op bound.1 bound.2 (.inl fails)) (.inl fails)
    · exact iff_of_true (failedComparison bits holds op bound.1 bound.2 (.inr fails)) (.inr (.inl fails))
    · rw [plainComparison bits holds op bound.1 bound.2 plainLeft plainRight]
      constructor
      · exact fun apart => .inr (.inr apart)
      · intro apart
        rcases apart with fails | fails | apart
        · exact absurd fails (plainNotFails left plainLeft)
        · exact absurd fails (plainNotFails right plainRight)
        · exact apart

end Agreement

def oneFloat (q : Rat) : Chunk := ⟨[⟨.floats,false,1,1,[.floats (.finite q)]⟩]⟩

def oneFloatRow (q : Rat) : Nat → Row := fun _ _ => .floats (.finite q)

theorem oneFloatHolds (q : Rat) : (oneFloat q).Holds [.floats] 1 (oneFloatRow q) where
  count := rfl
  columns := by
    intro c type isType
    cases c with
    | zero =>
      cases isType
      refine ⟨_,rfl,rfl,rfl,fun i inside => ?_,fun i _ => ⟨q,rfl⟩⟩
      cases Nat.lt_one_iff.1 inside
      rfl
    | succ c => simp at isType

def zeroBits : Bits := ⟨fun _ => .finite 0,fun _ => 0⟩

def sumCompared : Tree := .comparison .greatThan (.arithmetic .add (.field 0 .floats) (.float (3 / 2))) (.float (1 / 2))

theorem sumComparedAlike : sumCompared.Agrees zeroBits (oneFloat 2) 1 (oneFloatRow 2) := by
  have bound : sumCompared.Bound [.floats] := ⟨⟨rfl,trivial⟩,trivial⟩
  have plain : sumCompared.Plain 1 (oneFloatRow 2) := fun _ => .inr (.inr ⟨⟨trivial,trivial,rfl,by simp⟩,trivial⟩)
  have apart : sumCompared.Apart 1 (oneFloatRow 2) := by
    refine .inr (.inr fun i _ => ⟨rfl,fun l r isLeft isRight => ?_⟩)
    have sum : (arithmetic .add (.field 0 .floats) (.float (3 / 2))).getValue (oneFloatRow 2 i) = .ok (.floats (.finite (2 + 3 / 2))) := rfl
    cases Except.ok.inj (sum.symm.trans isLeft)
    cases isRight
    norm_num [Apart,epsilon]
  exact (evaluationsAgreeIff zeroBits (oneFloatHolds 2) sumCompared bound plain).2 apart

/- `a = 0` on a row with `a = 0.0000005`: the tuple's comparison holds, the column's does not. -/
def equalsZero : Tree := .comparison .equalTo (.field 0 .floats) (.float 0)

theorem nearZeroDiffers : (oneFloat (1 / 2000000)).Holds [.floats] 1 (oneFloatRow (1 / 2000000)) ∧ equalsZero.Bound [.floats] ∧
    ¬ equalsZero.Agrees zeroBits (oneFloat (1 / 2000000)) 1 (oneFloatRow (1 / 2000000)) := by
  have holds := oneFloatHolds (1 / 2000000)
  have bound : equalsZero.Bound [.floats] := ⟨rfl,trivial⟩
  refine ⟨holds,bound,fun agrees => ?_⟩
  have apart := ((plainComparison zeroBits holds .equalTo bound.1 bound.2 trivial trivial).1 agrees 0 (by simp)).2 _ _ rfl rfl
  have far : ¬ (0 < |(1 / 2000000 : Rat) - 0| ∧ |(1 / 2000000 : Rat) - 0| ≤ epsilon) := apart
  norm_num [epsilon] at far

end MiniOb.Expression
