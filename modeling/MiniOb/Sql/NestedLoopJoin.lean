import MiniOb.Lib.Loop
import MiniOb.Sql.PhysicalOperator

/-! `NestedLoopJoinPhysicalOperator` (`sql/operator/nested_loop_join_physical_operator.cpp`): its flags,
its children's cursors and the loop of `next`, over any two children that deliver finite lists of rows. -/
namespace MiniOb.Sql
open Prog

/- `left_` and `right_` are the two children; before a successful `open` they are null. Tuples are kept by
value: a child's tuple does not change until the child moves. -/
structure NestedLoopJoin (τ σ row : Type) where
  children : List σ
  bound : Bool := false
  trx : Option τ := none
  leftTuple : Option row := none
  rightTuple : Option row := none
  joinedTuple : Option row × Option row := (none,none)
  roundDone : Bool := true
  rightClosed : Bool := true
  deriving DecidableEq, Repr

namespace NestedLoopJoin
variable {τ σ row : Type}

abbrev Call (τ σ row : Type) := Prog (NestedLoopJoin τ σ row) Exit

def onLeft (call : Prog σ Exit Unit) : Call τ σ row Unit := fun s => match s.bound,s.children with
  | true,[l,r] => ((call l).1,{s with children := [(call l).2,r]})
  | _,_ => (.error .abort,s)

def onRight (call : Prog σ Exit Unit) : Call τ σ row Unit := fun s => match s.bound,s.children with
  | true,[l,r] => ((call r).1,{s with children := [l,(call r).2]})
  | _,_ => (.error .abort,s)

variable (op : PhysicalOperator τ σ row)

def openOp (trx : Option τ) : Call τ σ row Unit := fun s =>
  if s.children.length ≠ 2 then (.error (.rc .internal),s)
  else ensure (onLeft (op.openOp trx)) (fun s => {s with trx := trx})
    {s with bound := true,rightClosed := true,roundDone := true}

def leftNext : Call τ σ row Unit := do
  onLeft op.next
  update fun s =>
    let tuple := s.children[0]?.bind op.currentTuple
    {s with leftTuple := tuple,joinedTuple := (tuple,s.joinedTuple.2)}

def startRound : Call τ σ row Unit := do
  whenever (¬ (← Prog.read rightClosed)) (ensure (onRight op.close) fun s => {s with rightClosed := true})
  onRight (op.openOp (← Prog.read trx))
  update fun s => {s with rightClosed := false,roundDone := false}

def rightStep : Call τ σ row Unit := fun s => match onRight op.next s with
  | (.error (.rc .recordEof),t) => (.error (.rc .recordEof),{t with roundDone := true})
  | other => other

def rightNext : Call τ σ row Unit := do
  whenever (← Prog.read roundDone) (startRound op)
  rightStep op
  update fun s =>
    let tuple := s.children[1]?.bind op.currentTuple
    {s with rightTuple := tuple,joinedTuple := (s.joinedTuple.1,tuple)}

def advance (s : NestedLoopJoin τ σ row) : Except Exit Unit × NestedLoopJoin τ σ row :=
  if s.leftTuple.isNone || s.roundDone then leftNext op s else (.ok (),s)

/- One round of the `while` in `next`. A row of the right child leaves `rc` at SUCCESS, so the loop
goes round again as it does at the end of the right child. -/
def round (s : NestedLoopJoin τ σ row) : NestedLoopJoin τ σ row ⊕ (Except Exit Unit × NestedLoopJoin τ σ row) :=
  match advance op s with
  | (.error e,t) => .inr (.error e,t)
  | (.ok _,t) => match rightNext op t with
    | (.error (.rc .recordEof),u) => .inl {u with roundDone := true}
    | (.error e,u) => .inr (.error e,u)
    | (.ok _,u) => .inl u

def Next (s : NestedLoopJoin τ σ row) (result : Except Exit Unit) (t : NestedLoopJoin τ σ row) : Prop :=
  Loop.Stops (round op) s (result,t)

def close : Call τ σ row Unit := fun s =>
  let (rc,s) := onLeft op.close s
  match rc with
  | .error .abort => (.error .abort,s)
  | rc => if s.rightClosed then (rc,s) else match onRight op.close s with
    | (.ok _,t) => (.ok (),{t with rightClosed := true})
    | failed => failed

def currentTuple (s : NestedLoopJoin τ σ row) : Option row × Option row := s.joinedTuple

inductive Fetched : NestedLoopJoin τ σ row → NestedLoopJoin τ σ row → Prop where
  | stop (s : NestedLoopJoin τ σ row) : Fetched s s
  | eof {s t : NestedLoopJoin τ σ row} (last : Next op s (.error (.rc .recordEof)) t) : Fetched s t
  | row {s t u : NestedLoopJoin τ σ row} (one : Next op s (.ok ()) t) (rest : Fetched t u) : Fetched s u

inductive Reached (s : NestedLoopJoin τ σ row) : NestedLoopJoin τ σ row → Prop where
  | start : Reached s s
  | again {t u v w : NestedLoopJoin τ σ row} {trx : Option τ} (before : Reached s t)
      (opened : openOp op trx t = (.ok (),u)) (used : Fetched op u v) (closed : close op v = (.ok (),w)) : Reached s w

inductive Drains : NestedLoopJoin τ σ row → List (row × row) → NestedLoopJoin τ σ row → Prop where
  | eof {s t : NestedLoopJoin τ σ row} (last : Next op s (.error (.rc .recordEof)) t) : Drains s [] t
  | row {s t u : NestedLoopJoin τ σ row} {x y : row} {rest : List (row × row)} (one : Next op s (.ok ()) t)
      (tuple : currentTuple t = (some x,some y)) (more : Drains t rest u) : Drains s ((x,y) :: rest) u

def pairs (left right : List row) : List (row × row) := left.flatMap fun x => right.map fun y => (x,y)

def ReturnsPairs (left right : List row) (s : NestedLoopJoin τ σ row) : Prop :=
  ∀ trx, ∃ t u, openOp op trx s = (.ok (),t) ∧ Drains op t (pairs left right) u

section Children
variable {op} {left right : List row} (dl : Delivers op left) (dr : Delivers op right)

def RightSide (closed : Bool) (r : σ) : Prop :=
  if closed then dr.closed r else dr.ended r ∨ ∃ rest, dr.pending rest r

structure Shut (s : NestedLoopJoin τ σ row) : Prop where
  sides : ∃ l r, s.children = [l,r] ∧ dl.closed l ∧ dr.closed r

structure Between (rest : List row) (s : NestedLoopJoin τ σ row) : Prop where
  bound : s.bound = true
  done : s.roundDone = true
  sides : ∃ l r, s.children = [l,r] ∧ dl.pending rest l ∧ RightSide dr s.rightClosed r

structure Within (rest more : List row) (s : NestedLoopJoin τ σ row) : Prop where
  bound : s.bound = true
  going : s.roundDone = false
  openRight : s.rightClosed = false
  tuple : s.leftTuple.isSome = true
  sides : ∃ l r, s.children = [l,r] ∧ dl.pending rest l ∧ dr.pending more r

structure Finished (s : NestedLoopJoin τ σ row) : Prop where
  bound : s.bound = true
  sides : ∃ l r, s.children = [l,r] ∧ dl.ended l ∧ RightSide dr s.rightClosed r

variable {dl dr} {s : NestedLoopJoin τ σ row}

theorem openBetween (trx : Option τ) (shut : Shut dl dr s) : ∃ t, openOp op trx s = (.ok (),t) ∧ Between dl dr left t := by
  obtain ⟨l,r,two,closedL,closedR⟩ := shut.sides
  obtain ⟨l',opened,pending⟩ := dl.opens trx l closedL
  have bound : RightSide dr true r := closedR
  refine ⟨{s with bound := true,rightClosed := true,roundDone := true,children := [l',r],trx := trx},?_,
    rfl,rfl,l',r,rfl,pending,bound⟩
  simp [openOp,two,ensure,onLeft,opened]

variable {x : row} {rest more : List row} {t : NestedLoopJoin τ σ row}

theorem leftNextRow (between : Between dl dr (x :: rest) s) :
    ∃ t, leftNext op s = (.ok (),t) ∧ Between dl dr rest t ∧ t.leftTuple = some x := by
  obtain ⟨bound,done,l,r,two,pending,side⟩ := between
  obtain ⟨l',moved,pending',tuple⟩ := dl.moves x rest l pending
  refine ⟨{s with children := [l',r],leftTuple := some x,joinedTuple := (some x,s.joinedTuple.2)},?_,
    ⟨bound,done,l',r,rfl,pending',side⟩,rfl⟩
  simp [leftNext,onLeft,bound,two,moved,bindApply,tuple]

theorem leftNextEnd (between : Between dl dr [] s) :
    ∃ t, leftNext op s = (.error (.rc .recordEof),t) ∧ Finished dl dr t := by
  obtain ⟨bound,done,l,r,two,pending,side⟩ := between
  obtain ⟨l',moved,ended⟩ := dl.ends l pending
  refine ⟨{s with children := [l',r]},?_,bound,l',r,rfl,ended,side⟩
  simp [leftNext,onLeft,bound,two,moved,bindApply]

theorem startRoundWithin (between : Between dl dr rest s) (tuple : s.leftTuple.isSome = true) :
    ∃ t, startRound op s = (.ok (),t) ∧ Within dl dr rest right t := by
  obtain ⟨bound,done,l,r,two,pending,side⟩ := between
  cases flag : s.rightClosed with
  | true =>
    simp only [RightSide,flag,if_true] at side
    obtain ⟨r',opened,pending'⟩ := dr.opens s.trx r side
    refine ⟨{s with children := [l,r'],rightClosed := false,roundDone := false},?_,
      bound,rfl,rfl,tuple,l,r',rfl,pending,pending'⟩
    simp [startRound,bindApply,whenever,flag,onRight,bound,two,opened]
  | false =>
    simp only [RightSide,flag,Bool.false_eq_true,if_false] at side
    obtain ⟨r1,closed,side1⟩ := dr.closes r side
    obtain ⟨r2,opened,pending'⟩ := dr.opens s.trx r1 side1
    refine ⟨{s with children := [l,r2],rightClosed := false,roundDone := false},?_,
      bound,rfl,rfl,tuple,l,r2,rfl,pending,pending'⟩
    simp [startRound,bindApply,whenever,flag,ensure,onRight,bound,two,closed,opened]

theorem rightNextRow {y} (within : Within dl dr rest (y :: more) s) :
    ∃ t, rightNext op s = (.ok (),t) ∧ Within dl dr rest more t := by
  obtain ⟨bound,going,openRight,tuple,l,r,two,pending,side⟩ := within
  obtain ⟨r',moved,side',current⟩ := dr.moves y more r side
  refine ⟨{s with children := [l,r'],rightTuple := some y,joinedTuple := (s.joinedTuple.1,some y)},?_,
    bound,going,openRight,tuple,l,r',rfl,pending,side'⟩
  simp [rightNext,rightStep,bindApply,whenever,going,onRight,bound,two,moved,current]

theorem rightNextEnd (within : Within dl dr rest [] s) :
    ∃ t, rightNext op s = (.error (.rc .recordEof),t) ∧ Between dl dr rest t := by
  obtain ⟨bound,going,openRight,tuple,l,r,two,pending,side⟩ := within
  obtain ⟨r',moved,ended⟩ := dr.ends r side
  have side' : RightSide dr s.rightClosed r' := by
    simp only [RightSide,openRight,Bool.false_eq_true,if_false]
    exact Or.inl ended
  refine ⟨{s with children := [l,r'],roundDone := true},?_,bound,rfl,l,r',rfl,pending,side'⟩
  simp [rightNext,rightStep,bindApply,whenever,going,onRight,bound,two,moved]

theorem rightNextStart (between : Between dl dr rest s) (tuple : s.leftTuple.isSome = true) :
    ∃ t, Within dl dr rest right t ∧ rightNext op s = rightNext op t := by
  obtain ⟨t,started,within⟩ := startRoundWithin between tuple
  refine ⟨t,within,?_⟩
  simp [rightNext,bindApply,whenever,between.done,started,within.going]

theorem advanceBetween (between : Between dl dr rest s) : advance op s = leftNext op s := by
  simp [advance,between.done]

theorem advanceWithin (within : Within dl dr rest more s) : advance op s = (.ok (),s) := by
  have set : s.leftTuple.isNone = false := by simpa using within.tuple
  simp [advance,within.going,set]

theorem withinRuns (within : Within dl dr rest more s) :
    ∃ t, Between dl dr rest t ∧ ∀ result, Loop.Stops (round op) t result → Loop.Stops (round op) s result := by
  induction more generalizing s with
  | nil =>
    obtain ⟨t,ended,between⟩ := rightNextEnd within
    have once : round op s = .inl {t with roundDone := true} := by simp [round,advanceWithin within,ended]
    exact ⟨{t with roundDone := true},⟨between.bound,rfl,between.sides⟩,fun _ stops => Loop.stopsStep once stops⟩
  | cons y more ih =>
    obtain ⟨t,moved,within'⟩ := rightNextRow within
    have once : round op s = .inl t := by simp [round,advanceWithin within,moved]
    obtain ⟨u,between,runs⟩ := ih within'
    exact ⟨u,between,fun result stops => Loop.stopsStep once (runs result stops)⟩

theorem roundStart (between : Between dl dr (x :: rest) s) :
    ∃ t, Within dl dr rest right t ∧ round op s = round op t := by
  obtain ⟨t,moved,between',tuple⟩ := leftNextRow between
  obtain ⟨u,within,same⟩ := rightNextStart between' (by simp [tuple])
  refine ⟨u,within,?_⟩
  simp only [round,advanceBetween between,moved,advanceWithin within,same]

theorem betweenRuns (between : Between dl dr rest s) :
    ∃ t, Next op s (.error (.rc .recordEof)) t ∧ Finished dl dr t := by
  induction rest generalizing s with
  | nil =>
    obtain ⟨t,ended,finished⟩ := leftNextEnd between
    exact ⟨t,Loop.stopsNow (by simp [round,advanceBetween between,ended]),finished⟩
  | cons x rest ih =>
    obtain ⟨t,within,same⟩ := roundStart between
    obtain ⟨u,between',runs⟩ := withinRuns within
    obtain ⟨v,stops,finished⟩ := ih between'
    exact ⟨v,Loop.stopsCongr same (runs _ stops),finished⟩

theorem nextBetween {result} (between : Between dl dr rest s) (next : Next op s result t) :
    result = .error (.rc .recordEof) ∧ Finished dl dr t := by
  obtain ⟨u,stops,finished⟩ := betweenRuns between
  cases Loop.stopsUnique next stops
  exact ⟨rfl,finished⟩

theorem fetchedBetween (between : Between dl dr rest s)
    (fetched : Fetched op s t) : Between dl dr rest t ∨ Finished dl dr t := by
  cases fetched with
  | stop => exact Or.inl between
  | eof last => exact Or.inr (nextBetween between last).2
  | row one _ => cases (nextBetween between one).1

theorem closeShut {l r} (bound : s.bound = true) (two : s.children = [l,r])
    (leftSide : dl.ended l ∨ ∃ rest, dl.pending rest l) (side : RightSide dr s.rightClosed r) :
    ∃ t, close op s = (.ok (),t) ∧ Shut dl dr t := by
  obtain ⟨l',closedL,shutL⟩ := dl.closes l leftSide
  cases flag : s.rightClosed with
  | true =>
    simp only [RightSide,flag,if_true] at side
    refine ⟨{s with children := [l',r]},?_,l',r,rfl,shutL,side⟩
    simp [close,onLeft,bound,two,closedL,flag]
  | false =>
    simp only [RightSide,flag,Bool.false_eq_true,if_false] at side
    obtain ⟨r',closedR,shutR⟩ := dr.closes r side
    refine ⟨{s with children := [l',r'],rightClosed := true},?_,l',r',rfl,shutL,shutR⟩
    simp [close,onLeft,onRight,bound,two,closedL,closedR,flag]

theorem fetchedShut (state : Between dl dr left s ∨ Finished dl dr s)
    (closed : close op s = (.ok (),t)) : Shut dl dr t := by
  rcases state with ⟨bound,_,l,r,two,pending,side⟩ | ⟨bound,l,r,two,ended,side⟩
  · obtain ⟨u,same,shut⟩ := closeShut bound two (Or.inr ⟨left,pending⟩) side
    cases closed.symm.trans same
    exact shut
  · obtain ⟨u,same,shut⟩ := closeShut bound two (Or.inl ended) side
    cases closed.symm.trans same
    exact shut

theorem reachedShut (shut : Shut dl dr s) (reached : Reached op s t) : Shut dl dr t := by
  induction reached with
  | start => exact shut
  | again _ opened used closed ih =>
    obtain ⟨u,same,between⟩ := openBetween _ ih
    cases opened.symm.trans same
    exact fetchedShut (fetchedBetween between used) closed

theorem pairsNil : pairs left right = [] ↔ left = [] ∨ right = [] := by
  cases left with
  | nil => simp [pairs]
  | cons x rest =>
    simp only [pairs,List.flatMap_cons,List.append_eq_nil_iff,List.map_eq_nil_iff,reduceCtorEq,false_or]
    constructor
    · exact And.left
    · intro none
      simp [none]

theorem returnsPairsIff (shut : Shut dl dr s) : ReturnsPairs op left right s ↔ left = [] ∨ right = [] := by
  constructor
  · intro returns
    obtain ⟨t,u,opened,drains⟩ := returns none
    obtain ⟨t',same,between⟩ := openBetween none shut
    cases opened.symm.trans same
    apply pairsNil.mp
    generalize pairs left right = rows at drains
    cases drains with
    | eof => rfl
    | row one _ _ => cases (nextBetween between one).1
  · intro empty trx
    obtain ⟨t,opened,between⟩ := openBetween trx shut
    obtain ⟨u,ended,_⟩ := betweenRuns between
    have none : pairs left right = [] := pairsNil.mpr empty
    exact ⟨t,u,opened,none ▸ Drains.eof ended⟩

theorem joinReturnsPairsIff (dl : Delivers op left) (dr : Delivers op right) {l r : σ} (closedL : dl.closed l) (closedR : dr.closed r) :
    (∀ s, Reached op {children := [l,r]} s → ReturnsPairs op left right s) ↔ left = [] ∨ right = [] := by
  have shut : Shut dl dr ({children := [l,r]} : NestedLoopJoin τ σ row) := ⟨l,r,rfl,closedL,closedR⟩
  constructor
  · intro every
    exact (returnsPairsIff shut).mp (every _ Reached.start)
  · intro empty s reached
    exact (returnsPairsIff (reachedShut shut reached)).mpr empty

end Children

theorem emptyRightJoin : (pairs [1,2] ([] : List Nat) = []) ∧
    ∀ s, Reached (rowList Nat) {children := [⟨[1,2],none,none⟩,⟨[],none,none⟩]} s → ReturnsPairs (rowList Nat) [1,2] [] s :=
  ⟨rfl,(joinReturnsPairsIff (rowListDelivers [1,2]) (rowListDelivers []) (l := ⟨[1,2],none,none⟩) (r := ⟨[],none,none⟩)
    rfl rfl).mpr (Or.inr rfl)⟩

def oneByOne : NestedLoopJoin Unit (RowList Nat) Nat := {children := [⟨[1],none,none⟩,⟨[2],none,none⟩]}

/- One row on each side: `next` goes past the pair and answers RECORD_EOF. -/
theorem onePairLost : (∃ t u, openOp (rowList Nat) none oneByOne = (.ok (),t) ∧
      Next (rowList Nat) t (.error (.rc .recordEof)) u) ∧ ¬ ReturnsPairs (rowList Nat) [1] [2] oneByOne := by
  have shut : Shut (rowListDelivers [1]) (rowListDelivers [2]) oneByOne := ⟨_,_,rfl,rfl,rfl⟩
  refine ⟨⟨_,_,rfl,4,rfl⟩,fun returns => ?_⟩
  have empty := (returnsPairsIff shut).mp returns
  simp at empty

end NestedLoopJoin
end MiniOb.Sql
