import MiniOb.Rewrite.Fixpoint
import MiniOb.Sql.ScanAgreement

/-! The rows of a statement's plan before and after the rewrite. -/
namespace MiniOb.Rewrite
open Expression (CompOp)
open Loop Engine Option List

namespace Grouping
variable {R K A : Type} (g : Grouping R K A)

variable {groups fed : List (K × A)} {input out : List R}

theorem feedKeySome {key row} (ran : g.feedKey key row groups = .ok fed) : fed ≠ [] := by
  cases groups with
  | nil =>
    simp only [feedKey,bind,Except.bind] at ran
    split at ran
    · cases ran
    · split at ran
      · cases ran
      · cases ran
        simp
  | cons first rest =>
    simp only [feedKey,bind,Except.bind] at ran
    split at ran
    · cases ran
    · split at ran
      · split at ran
        · cases ran
        · cases ran
          simp
      · split at ran
        · cases ran
        · cases ran
          simp

theorem feedAllSome (ran : g.feedAll input groups = .ok fed) (some : input ≠ [] ∨ groups ≠ []) : fed ≠ [] := by
  induction input generalizing groups with
  | nil =>
    cases ran
    exact some.resolve_left (by simp)
  | cons row rest ih =>
    simp only [feedAll,bind,Except.bind] at ran
    split at ran
    · cases ran
    · split at ran
      · cases ran
      · rename_i next fedOne
        exact ih ran (.inr (g.feedKeySome fedOne))

theorem evaluateAllSome (ran : g.evaluateAll groups = .ok out) (some : groups ≠ []) : out ≠ [] := by
  cases groups with
  | nil => exact absurd rfl some
  | cons first rest =>
    simp only [evaluateAll,bind,Except.bind] at ran
    split at ran
    · cases ran
    · split at ran
      · cases ran
      · cases ran
        simp

theorem rowsSome (ran : g.rows input = .ok out) (some : input ≠ []) : out ≠ [] := by
  simp only [rows,bind,Except.bind] at ran
  split at ran
  · cases ran
  · rename_i groups fed
    exact g.evaluateAllSome ran (g.feedAllSome fed (.inl some))

theorem rowsNone : g.rows [] = .ok [] := rfl

end Grouping

section Output
variable {F V T R K A : Type} (engine : Engine F V T R K A)

def output (ops : List Operator) (below : Except Exit (List R)) : Except Exit (List R) :=
  ops.foldr engine.execute below

theorem applyNone (op : Operator) : engine.apply op [] = .ok [] := by
  cases op with
  | orderBy => simp [apply,(engine.sortPerm []).eq_nil]
  | groupBy => exact engine.grouping.rowsNone
  | _ => simp [apply]

theorem outputNone (ops : List Operator) : output engine ops (.ok []) = .ok [] := by
  induction ops with
  | nil => rfl
  | cons op rest ih =>
    simp only [output,foldr_cons] at ih ⊢
    rw [ih]
    exact applyNone engine op

variable {plan : Plan F V T}

theorem stackNotNothing (some : plan ≠ .nothing) (ops : List Operator) : stack ops plan ≠ .nothing := by
  cases ops with
  | nil => exact some
  | cons op rest => simp [stack]

theorem runOperator (some : child ≠ .nothing) (op : Operator) :
    engine.run (.operator op child) = engine.execute op (engine.run child) := by
  cases child with
  | nothing => exact absurd rfl some
  | _ => rfl

theorem runStack (some : plan ≠ .nothing) (ops : List Operator) :
    engine.run (stack ops plan) = output engine ops (engine.run plan) := by
  induction ops with
  | nil => rfl
  | cons op rest ih =>
    have here := runOperator engine (stackNotNothing some rest) op
    rw [ih] at here
    exact here

theorem acceptedStack (some : plan ≠ .nothing) (ops : List Operator) : accepted (stack ops plan) = accepted plan := by
  induction ops with
  | nil => rfl
  | cons op rest ih =>
    have child := stackNotNothing some rest
    have here : accepted (.operator op (stack rest plan)) = accepted (stack rest plan) := by
      generalize stack rest plan = below at child
      cases op <;> cases below <;> first | rfl | exact absurd rfl child
    exact here.trans ih

end Output

section Conditions
variable {F V T R K A : Type} (engine : Engine F V T R K A)

theorem constantHolds (constant : c.tryGetValue engine.compare = some b) (row : R) : engine.holds row c = b := by
  obtain ⟨op,left,right⟩ := c
  cases left <;> cases right <;> simp only [Comparison.tryGetValue] at constant <;> cases constant
  rfl

variable {first : Option (Comparison F V)} {cs : List (Comparison F V)} {s : Plan F V T} {rows : List R}
  {statement : Statement F V T}

theorem undecidedHold (noFalse : beforeFalse engine.compare first cs = none)
    (row : R) : cs.all (engine.holds row) = (undecided engine.compare cs).all (engine.holds row) := by
  induction cs generalizing first with
  | nil => rfl
  | cons c rest ih =>
    simp only [beforeFalse] at noFalse
    rcases constant : c.tryGetValue engine.compare with _ | _ | _
    · simp only [constant] at noFalse
      simp [undecided,constant,ih noFalse]
    · simp [constant] at noFalse
    · simp only [constant] at noFalse
      simp [undecided,constant,ih noFalse,constantHolds engine constant row]

theorem falseHolds
    (isFalse : beforeFalse engine.compare first cs = some found) (row : R) : cs.all (engine.holds row) = false := by
  induction cs generalizing first with
  | nil => cases isFalse
  | cons c rest ih =>
    simp only [beforeFalse] at isFalse
    rcases constant : c.tryGetValue engine.compare with _ | _ | _
    · simp only [constant] at isFalse
      simp [ih isFalse]
    · simp [constantHolds engine constant row]
    · simp only [constant] at isFalse
      simp [ih isFalse]

theorem exprInitial (cs : List (Comparison F V)) (row : R) : engine.exprHolds row (initial cs) = cs.all (engine.holds row) := by
  simp only [initial,exprHolds,List.all_map]
  rfl

theorem exprUnwrap (rest : List (Comparison F V)) (row : R) : engine.exprHolds row (unwrap rest) = rest.all (engine.holds row) := by
  by_cases single : rest.length = 1
  · obtain ⟨c,rfl⟩ := length_eq_one_iff.1 single
    simp [unwrap,exprHolds,atomHolds]
  · rw [unwrapSeveral single]
    exact exprInitial engine rest row

theorem sourceRuns (source : Source s) : ∃ rows,engine.run s = .ok rows := by
  induction source with
  | table t => exact ⟨engine.rows t,by simp [run,scan,chooseIndex]⟩
  | join _ _ left right =>
    obtain ⟨l,ranLeft⟩ := left
    obtain ⟨r,ranRight⟩ := right
    exact ⟨engine.join l r,by simp [run,ranLeft,ranRight]⟩

theorem sourceAccepted (source : Source s) : accepted s = true := by
  induction source with
  | table t => rfl
  | join _ _ left right => simp [accepted,left,right]

theorem sourceNotNothing (source : Source s) : s ≠ .nothing := by
  cases source <;> simp

def reached (s : Plan F V T) (rest : List (Comparison F V)) : Except Exit (List R) :=
  match s with
  | .tableGet table _ => engine.scan table rest
  | s => match engine.run s with
    | .error e => .error e
    | .ok rows => .ok (rows.filter fun row => rest.all (engine.holds row))

def Cuttable : Statement F V T → Prop
  | .select s => s.groupBy = false ∧ (s.limit = none ∨ s.orderBy = true)
  | .delete _ _ => True

def Unseen (statement : Statement F V T) (rows : List R) : Prop := rows = [] ∨
  ∃ s,statement = .select s ∧ s.limit = some 0 ∧ (s.groupBy = true → ∃ out,engine.grouping.rows rows = .ok out)

/- The index picked is a vector index, or a tree over INTS or CHARS with the entries of the rows: `op` is the comparison that
picked it, and its constant is neither empty nor longer than the field. -/
inductive Picked (table : T) (cs : List (Comparison F V)) : Option CompOp → Prop
  | ivfflat {A compare same entries constant v} (chosen : engine.chooseIndex table cs =
      some (⟨.tolerant A compare same,.ivfflat entries,constant⟩,v)) : Picked table cs none
  | tree {op : CompOp} {t : BplusTree.KeyType} {handler : BplusTree.Handler (BplusTree.IndexKey t.Attr)}
      {constant : V → t.UserKey} {v : V} (attr : R → t.Attr) (rid : R → RID)
      (chosen : engine.chooseIndex table cs = some (⟨.ordered t,.ordered handler,constant⟩,v))
      (entries : (Scan.Index.ordered handler).Matches ((engine.rows table).map fun row => (attr row,rid row)))
      (heapOrder : (engine.rows table).Pairwise fun a b => rid a < rid b)
      (stored : ∀ row ∈ engine.rows table,engine.getRecord table (rid row) = some row)
      (fits : ¬ t.Long (constant v)) (bounded : Scan.dataBound t (constant v) ≠ none)
      (told : ∀ row ∈ engine.rows table,cs.all (engine.holds row) → (t.value (attr row) = t.bound (constant v) ↔ op = .equalTo)) :
      Picked table cs (some op)

/- After `=` the scan of such a tree finds the rows, after `<>` none of them; a vector index has no scanner. -/
def Allowed (statement : Statement F V T) (wanted : List R) : Option CompOp → Prop
  | some op => op = .equalTo ∨ Unseen engine statement wanted
  | none => output engine statement.operators (.ok wanted) = .error (.rc .internal)

def SameScan (statement : Statement F V T) (table : T) (cs : List (Comparison F V)) : Prop :=
  let wanted := (engine.rows table).filter fun row => cs.all (engine.holds row)
  (∀ found,Picked engine table cs found → Allowed engine statement wanted found) ∧
    ((∀ found,¬ Picked engine table cs found) →
      output engine statement.operators (engine.scan table cs) = output engine statement.operators (.ok wanted))

def Keeps (statement : Statement F V T) : Prop :=
  match beforeFalse engine.compare none statement.conditions with
  | none => ∀ table,statement.source = .tableGet table [] →
      SameScan engine statement table (undecided engine.compare statement.conditions)
  | some none => Cuttable statement
  | some (some c) => ∃ rows,reached engine statement.source [c] = .ok rows ∧ Unseen engine statement rows

theorem statementSource (statement : Statement F V T) : Source statement.source := by
  cases statement with
  | delete table _ => exact .table table
  | select s =>
    have grows : ∀ (more : List T) (plan : Plan F V T),Source plan →
        Source (more.foldl (fun plan table => Plan.join plan (.tableGet table [])) plan) := by
      intro more
      induction more with
      | nil => exact fun _ source => source
      | cons table rest ih => exact fun plan source => ih _ (.join source (.table table))
    exact grows s.more _ (.table s.table)

theorem operatorsSome (statement : Statement F V T) : statement.operators ≠ [] := by
  cases statement <;> simp [Statement.operators]

theorem cutIff (statement : Statement F V T) : (accepted (stack statement.operators (.nothing : Plan F V T)) = true ∧
    engine.run (stack statement.operators .nothing) = .ok []) ↔ Cuttable statement := by
  cases statement with
  | delete table conditions => simp [Statement.operators,stack,accepted,run,childless,Cuttable]
  | select s =>
    obtain ⟨table,more,conditions,groupBy,orderBy,limit⟩ := s
    cases groupBy <;> cases orderBy <;> cases limit <;>
      simp [Statement.operators,stack,accepted,run,childless,Cuttable,execute,apply]

theorem overOk :
    engine.execute op below = .ok out ↔ ∃ rows,below = .ok rows ∧ engine.apply op rows = .ok out := by
  cases below with
  | error e => simp [execute]
  | ok rows => simp [execute]

theorem lowerOutput (orderBy groupBy : Bool) (below : Except Exit (List R)) (out : List R)
    (ran : output engine ((if orderBy then [.orderBy] else []) ++ if groupBy then [.groupBy] else []) below = .ok out) :
    ∃ rows,below = .ok rows ∧ (out = [] → rows = []) ∧ (groupBy = true → ∃ grouped,engine.grouping.rows rows = .ok grouped) := by
  have grouped : ∃ rows middle : List R,below = .ok rows ∧ (middle = [] → rows = []) ∧ (out = [] → middle = []) ∧
      (groupBy = true → ∃ grouped,engine.grouping.rows rows = .ok grouped) := by
    cases groupBy with
    | false =>
      cases orderBy with
      | false => exact ⟨out,out,ran,id,id,by simp⟩
      | true =>
        obtain ⟨rows,isBelow,sorted⟩ := (overOk engine).1 ran
        cases sorted
        exact ⟨rows,rows,isBelow,id,fun none => (none ▸ engine.sortPerm rows).symm.eq_nil,by simp⟩
    | true =>
      cases orderBy with
      | false =>
        obtain ⟨rows,isBelow,made⟩ := (overOk engine).1 ran
        exact ⟨rows,out,isBelow,fun none => by_contra fun some => engine.grouping.rowsSome made some none,id,fun _ => ⟨out,made⟩⟩
      | true =>
        obtain ⟨middle,ranBelow,sorted⟩ := (overOk engine).1 ran
        obtain ⟨rows,isBelow,made⟩ := (overOk engine).1 ranBelow
        cases sorted
        exact ⟨rows,middle,isBelow,fun none => by_contra fun some => engine.grouping.rowsSome made some none,
          fun none => (none ▸ engine.sortPerm middle).symm.eq_nil,fun _ => ⟨middle,made⟩⟩
  obtain ⟨rows,middle,isBelow,first,second,made⟩ := grouped
  exact ⟨rows,isBelow,fun none => first (second none),made⟩

theorem lowerRuns (orderBy groupBy : Bool) (made : groupBy = true → ∃ grouped,engine.grouping.rows rows = .ok grouped) :
    ∃ out,output engine ((if orderBy then [.orderBy] else []) ++ if groupBy then [.groupBy] else []) (.ok rows) = .ok out := by
  cases groupBy with
  | false => cases orderBy <;> exact ⟨_,rfl⟩
  | true =>
    obtain ⟨grouped,ran⟩ := made rfl
    cases orderBy with
    | false => exact ⟨grouped,ran⟩
    | true => exact ⟨engine.sort grouped,(overOk engine).2 ⟨grouped,ran,rfl⟩⟩

theorem outputEmptyIff (statement : Statement F V T) (below : Except Exit (List R)) :
    output engine statement.operators below = .ok [] ↔ ∃ rows,below = .ok rows ∧ Unseen engine statement rows := by
  constructor
  · intro empty
    cases statement with
    | delete table conditions =>
      obtain ⟨rows,isBelow,same⟩ := (overOk engine).1 empty
      cases same
      exact ⟨[],isBelow,.inl rfl⟩
    | select s =>
      obtain ⟨projected,ran,mapped⟩ := (overOk engine).1 empty
      have none : projected = [] := by simpa [apply] using mapped
      subst none
      cases limit : s.limit with
      | none =>
        simp only [limit,map_none,toList_none,nil_append] at ran
        obtain ⟨rows,isBelow,nothing,_⟩ := lowerOutput engine s.orderBy s.groupBy below [] ran
        exact ⟨rows,isBelow,.inl (nothing rfl)⟩
      | some n =>
        simp only [limit,map_some,toList_some,singleton_append] at ran
        obtain ⟨limited,ranLower,taken⟩ := (overOk engine).1 ran
        obtain ⟨rows,isBelow,nothing,made⟩ := lowerOutput engine s.orderBy s.groupBy below limited ranLower
        have short : n = 0 ∨ limited = [] := by simpa [apply,take_eq_nil_iff] using taken
        rcases short with rfl | none
        · exact ⟨rows,isBelow,.inr ⟨s,rfl,limit,made⟩⟩
        · exact ⟨rows,isBelow,.inl (nothing none)⟩
  · rintro ⟨rows,rfl,none | ⟨s,rfl,limit,made⟩⟩
    · rw [none]
      exact outputNone engine _
    · obtain ⟨out,ran⟩ := lowerRuns engine s.orderBy s.groupBy made
      have limited : output engine
          (.limit 0 :: ((if s.orderBy then [.orderBy] else []) ++ if s.groupBy then [.groupBy] else [])) (.ok rows) = .ok [] :=
        (overOk engine).2 ⟨out,ran,rfl⟩
      simp only [Statement.operators,limit,map_some,toList_some,singleton_append]
      exact (overOk engine).2 ⟨[],limited,rfl⟩

def pickedRows (wanted : List R) : Option CompOp → Except Exit (List R)
  | some op => .ok (if op = .equalTo then wanted else [])
  | none => .error (.rc .internal)

theorem Picked.scans {table cs found} (index : Picked engine table cs found) :
    engine.scan table cs = pickedRows ((engine.rows table).filter fun row => cs.all (engine.holds row)) found := by
  cases index with
  | ivfflat chosen => simp only [scan,chosen,Scan.Index.scan,pickedRows]
  | @tree op t handler constant v attr rid chosen entries heapOrder stored fits bounded told =>
    have scanned : (Scan.Index.ordered handler).scan (constant v) = .ok (((engine.rows table).filter fun row =>
        t.value (attr row) = t.bound (constant v)).map rid) := by
      refine (Scan.scanEqual entries (pairwise_map.2 heapOrder) fits bounded).trans (congrArg _ ?_)
      exact (congrArg (map Prod.snd) List.filter_map).trans map_map
    have fetched : ∀ row ∈ (engine.rows table).filter fun row => t.value (attr row) = t.bound (constant v),
        engine.fetch table cs (rid row) = .ok (Option.guard (fun row => cs.all (engine.holds row)) row) := by
      intro row inside
      simp only [fetch,stored row (mem_filter.1 inside).1]
    simp only [scan,chosen,scanned]
    rw [Scan.walkCongr fetched,Scan.walkRuns fun _ _ => rfl,filterMap_eq_filter,List.filter_filter]
    refine congrArg _ ?_
    split
    case isTrue equal => exact filter_congr fun row inside => by simpa [equal] using told row inside
    case isFalse apart => exact filter_eq_nil_iff.2 fun row inside => by simpa [apart] using told row inside

theorem outputError (ops : List Operator) (e : Exit) : output engine ops (.error e) = .error e := by
  induction ops with
  | nil => rfl
  | cons op rest ih =>
    simp only [output,foldr_cons] at ih ⊢
    rw [ih]
    rfl

theorem allowedIff {statement : Statement F V T} {wanted found} : Allowed engine statement wanted found ↔
    output engine statement.operators (pickedRows wanted found) = output engine statement.operators (.ok wanted) := by
  cases found with
  | none => rw [pickedRows,outputError,eq_comm,Allowed]
  | some op =>
    by_cases equal : op = .equalTo
    · simp [Allowed,pickedRows,equal]
    · rw [pickedRows,if_neg equal,outputNone,eq_comm,outputEmptyIff]
      simp [Allowed,equal]

theorem sameScanIff (statement : Statement F V T) (table : T) (cs : List (Comparison F V)) :
    SameScan engine statement table cs ↔ output engine statement.operators (engine.scan table cs) =
      output engine statement.operators (.ok ((engine.rows table).filter fun row => cs.all (engine.holds row))) := by
  refine ⟨fun ⟨all,others⟩ => ?_,fun same => ⟨fun found index => ?_,fun _ => same⟩⟩
  · by_cases picked : ∃ found,Picked engine table cs found
    · obtain ⟨found,index⟩ := picked
      rw [index.scans]
      exact (allowedIff engine).1 (all found index)
    · exact others (not_exists.1 picked)
  · rw [index.scans] at same
    exact (allowedIff engine).2 same

def Preserved (statement : Statement F V T) : Prop := ∃ plan,Stops (rewriteRound engine.compare) (createPlan statement) plan ∧
  accepted plan = true ∧ engine.run plan = engine.run (createPlan statement)

theorem preservedUnfiltered (none : statement.conditions = []) : Preserved engine statement := by
  have source := statementSource statement
  have plan : createPlan statement = stack statement.operators statement.source := by simp [createPlan,filtered,none]
  have stops := stopsStill engine.compare (sourceStill engine.compare source) statement.operators
  rw [← plan] at stops
  refine ⟨_,stops,?_,rfl⟩
  rw [plan,acceptedStack (sourceNotNothing source),sourceAccepted source]

theorem preservedFiltered (some : statement.conditions ≠ [])
    (ran : engine.run statement.source = .ok rows) : Preserved engine statement ↔
      accepted (stack statement.operators (finished engine.compare statement.conditions statement.source)) = true ∧
      engine.run (stack statement.operators (finished engine.compare statement.conditions statement.source)) =
        output engine statement.operators (.ok (rows.filter fun row => statement.conditions.all (engine.holds row))) := by
  have source := statementSource statement
  have plan : createPlan statement = stack statement.operators (.predicate (initial statement.conditions) statement.source) := by
    unfold createPlan filtered
    split
    · rename_i none
      exact absurd none some
    · rfl
  have original : engine.run (createPlan statement) =
      output engine statement.operators (.ok (rows.filter fun row => statement.conditions.all (engine.holds row))) := by
    rw [plan,runStack engine (by simp)]
    simp only [run,ran,exprInitial]
  have stops := rewriteStops engine.compare some source (operatorsSome statement)
  rw [← plan] at stops
  constructor
  · intro preserved
    obtain ⟨final,stops',isAccepted,same⟩ := preserved
    cases stopsUnique stops stops'
    exact ⟨isAccepted,same.trans original⟩
  · intro kept
    exact ⟨_,stops,kept.1,kept.2.trans original.symm⟩

theorem scanNone (table : T) : engine.scan table [] = .ok (engine.rows table) := by
  simp [scan,chooseIndex]

theorem runOpen (isOpen : normal engine.compare statement.conditions = unwrap rest) :
    accepted (stack statement.operators (finished engine.compare statement.conditions statement.source)) = true ∧
    engine.run (stack statement.operators (finished engine.compare statement.conditions statement.source)) =
      output engine statement.operators (reached engine statement.source rest) := by
  have source := statementSource statement
  generalize statement.source = s at source
  cases source with
  | table t =>
    rw [finishedTable engine.compare isOpen,acceptedStack (by simp),runStack engine (by simp)]
    exact ⟨rfl,rfl⟩
  | join first second =>
    rw [finishedJoin engine.compare isOpen,acceptedStack (by simp),runStack engine (by simp)]
    refine ⟨by simpa [accepted] using sourceAccepted (.join first second),?_⟩
    obtain ⟨rows,ran⟩ := sourceRuns engine (.join first second)
    simp only [reached,run] at ran ⊢
    simp only [ran,exprUnwrap]

theorem keepsOpen (ran : engine.run statement.source = .ok rows) (rest : List (Comparison F V)) :
    output engine statement.operators (reached engine statement.source rest) =
      output engine statement.operators (.ok (rows.filter fun row => rest.all (engine.holds row))) ↔
    ∀ table,statement.source = .tableGet table [] → output engine statement.operators (engine.scan table rest) =
      output engine statement.operators (.ok ((engine.rows table).filter fun row => rest.all (engine.holds row))) := by
  have source := statementSource statement
  generalize statement.source = s at source ran
  cases source with
  | table t =>
    rw [run,scanNone] at ran
    cases ran
    constructor
    · intro same table isTable
      cases isTable
      exact same
    · intro same
      exact same t rfl
  | join first second =>
    refine iff_of_true ?_ (by simp)
    simp only [reached,ran]

theorem rewritePreservesIff (statement : Statement F V T) : Preserved engine statement ↔ Keeps engine statement := by
  have source := statementSource statement
  have all (below : List R) : (below.filter fun row => all [] (engine.holds row)) = below := filter_eq_self.2 (by simp)
  by_cases unfiltered : statement.conditions = []
  · refine iff_of_true (preservedUnfiltered engine unfiltered) ?_
    rw [Keeps,unfiltered]
    simp only [sameScanIff]
    intro table isTable
    exact congrArg _ ((scanNone engine table).trans (congrArg Except.ok (all _).symm))
  · obtain ⟨rows,ran⟩ := sourceRuns engine source
    rw [preservedFiltered engine unfiltered ran,Keeps]
    simp only [sameScanIff]
    match found : beforeFalse engine.compare none statement.conditions with
    | some none =>
      have constant : normal engine.compare statement.conditions = .atom (.value false) := by simp [normal,found]
      have nothing : rows.filter (fun row => statement.conditions.all (engine.holds row)) = [] := by
        simp [falseHolds engine found]
      rw [finishedValue engine.compare constant,nothing,outputNone]
      exact cutIff engine statement
    | some (some c) =>
      have isOpen : normal engine.compare statement.conditions = unwrap [c] := by simp [normal,found,unwrap]
      have nothing : rows.filter (fun row => statement.conditions.all (engine.holds row)) = [] := by
        simp [falseHolds engine found]
      obtain ⟨isAccepted,final⟩ := runOpen engine isOpen
      rw [final,nothing,outputNone]
      simp only [isAccepted,true_and]
      exact outputEmptyIff engine statement _
    | none =>
      simp only [undecidedHold engine found]
      by_cases isTrue : statement.conditions.length = 1 ∧ undecided engine.compare statement.conditions = []
      · have constant : normal engine.compare statement.conditions = .atom (.value true) := by simp [normal,found,isTrue]
        rw [finishedValue engine.compare constant,isTrue.2]
        refine iff_of_true ⟨?_,?_⟩ ?_
        · exact (acceptedStack (sourceNotNothing source) _).trans (sourceAccepted source)
        · rw [if_pos rfl,runStack engine (sourceNotNothing source),ran,all]
        · intro table isTable
          rw [scanNone,all]
      · have isOpen : normal engine.compare statement.conditions = unwrap (undecided engine.compare statement.conditions) := by
          simp only [normal,found,if_neg isTrue]
        obtain ⟨isAccepted,final⟩ := runOpen engine isOpen
        rw [final]
        simp only [isAccepted,true_and]
        exact keepsOpen engine ran _

end Conditions

def oneRow : Engine Unit Int Unit Int Unit Unit where
  compare op a b := match op with
    | .equalTo => a == b
    | .lessEqual => a ≤ b
    | .notEqual => a != b
    | .lessThan => a < b
    | .greatEqual => b ≤ a
    | .greatThan => b < a
  cast := id
  read row _ := row
  rows _ := [1]
  index _ _ := none
  getRecord _ _ := none
  join left _ := left
  grouping := ⟨fun _ => .ok (),fun _ _ => .ok true,fun _ => .ok (),fun _ _ => .ok (),fun _ => .ok 0⟩
  sort := id
  sortPerm _ := .refl _
  project := id

/- `select * from t where a = 1 and 1 = 2`. -/
def neverTrue : Statement Unit Int Unit :=
  .select ⟨(),[],[⟨.equalTo,.field (),.value 1⟩,⟨.equalTo,.value 1,.value 2⟩],false,false,none⟩

theorem falseConstantDropped : (∃ plan,Stops (rewriteRound oneRow.compare) (createPlan neverTrue) plan ∧ oneRow.run plan = .ok [1]) ∧
    oneRow.run (createPlan neverTrue) = .ok [] ∧ ¬ Preserved oneRow neverTrue := by
  have filtered : neverTrue.conditions ≠ [] := by simp [neverTrue,Statement.conditions]
  have stops := rewriteStops oneRow.compare filtered (statementSource neverTrue) (operatorsSome neverTrue)
  have row : oneRow.run (stack neverTrue.operators (finished oneRow.compare neverTrue.conditions neverTrue.source)) = .ok [1] := by rfl
  refine ⟨⟨_,stops,row⟩,rfl,?_⟩
  intro preserved
  obtain ⟨plan,stops',_,same⟩ := preserved
  cases stopsUnique stops stops'
  cases row.symm.trans same

end MiniOb.Rewrite
