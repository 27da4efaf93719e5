import Mathlib.Data.List.FinRange
import MiniOb.Lib.Loop
import MiniOb.Lib.Sorting
import MiniOb.Sql.PhysicalOperator

/-! `OrderByPhysicalOperator` (`sql/operator/order_by_physical_operator.cpp`) over a child that delivers a
finite list of rows. Tuples are kept by value: a tuple of the child is what `ValueListTuple::make` makes of it,
its cells or the code of the first cell that cannot be read. -/
namespace MiniOb.Sql
open Sorting List Int32

/- `none` is a value of type UNDEFINED, which compares as `DataType::compare` says. -/
structure Comparison (value : Type) where
  compare : Option value → Option value → Int
  undefined : ∀ other, compare none other = maxValue.toInt

structure OrderByKey (row value : Type) where
  getValue : row → Except RC (Option value)
  asc : Bool

structure OrderBy (σ row : Type) where
  children : List σ
  sortedTuples : List row := []
  currentIndex : Int32 := -1

namespace OrderBy
variable {τ σ row value : Type} (cmp : Comparison value)

def sortKey (key : OrderByKey row value) (tuple : row) : Option value := match key.getValue tuple with
  | .ok v => v
  | .error _ => none

def comparator : List (OrderByKey row value) → row → row → Bool
  | [],_,_ => false
  | key :: rest,a,b => match sortKey key a,sortKey key b with
    | none,none => comparator rest a b
    | none,some _ => false
    | some _,none => true
    | some va,some vb =>
      let c := cmp.compare (some va) (some vb)
      if c ≠ 0 then if key.asc then c < 0 else c > 0 else comparator rest a b

def arrange (sort : SortFunction) (keys : List (OrderByKey row value)) (rows : List row) : List row :=
  if keys ≠ [] ∧ 1 < rows.length then
    (sort (Fin rows.length) (fun a b => comparator cmp keys (rows.get a) (rows.get b)) (finRange rows.length)).map rows.get
  else rows

/- One round of the loop that reads the child. -/
def readNext (op : PhysicalOperator τ σ (Except RC row)) : σ × List row → (σ × List row) ⊕ (Except Exit (List row) × σ)
  | (child,rows) => match op.next child with
    | (.error (.rc .recordEof),c) => .inr (.ok rows,c)
    | (.error e,c) => .inr (.error e,c)
    | (.ok _,c) => match op.currentTuple c with
      | none => .inr (.error (.rc .internal),c)
      | some (.error rc) => .inr (.error (.rc rc),c)
      | some (.ok tuple) => .inl (c,rows ++ [tuple])

def Opens (sort : SortFunction) (keys : List (OrderByKey row value)) (op : PhysicalOperator τ σ (Except RC row))
    (trx : Option τ) (s : OrderBy σ row) (result : Except Exit Unit) (t : OrderBy σ row) : Prop :=
  match s.children with
  | [] => result = .ok () ∧ t = s
  | child :: others => match op.openOp trx child with
    | (.error e,c) => result = .error e ∧ t = { s with children := c :: others }
    | (.ok _,c) => ∃ read, Loop.Stops (readNext op) (c,[]) read ∧ match read with
      | (.error e,c) => result = .error e ∧ t = { s with children := c :: others }
      | (.ok rows,c) => result = .ok () ∧ t = ⟨c :: others,arrange cmp sort keys rows,-1⟩

def size (s : OrderBy σ row) : Int32 := ofNat s.sortedTuples.length

def next : Prog (OrderBy σ row) Exit Unit := fun s =>
  (if s.size ≤ s.currentIndex + 1 then .error (.rc .recordEof) else .ok (),{ s with currentIndex := s.currentIndex + 1 })

def currentTuple (s : OrderBy σ row) : Option row :=
  if s.currentIndex < 0 ∨ s.size ≤ s.currentIndex then none else s.sortedTuples[s.currentIndex.toInt.toNat]?

inductive Drains : OrderBy σ row → List row → OrderBy σ row → Prop where
  | eof {s t : OrderBy σ row} (last : next s = (.error (.rc .recordEof),t)) : Drains s [] t
  | row {s t u : OrderBy σ row} {x : row} {rest : List row} (one : next s = (.ok (),t)) (tuple : currentTuple t = some x)
      (more : Drains t rest u) : Drains s (x :: rest) u

/-! ### What the rows are ordered by -/

def KeyLe (key : OrderByKey row value) (a b : row) : Prop := match key.getValue a,key.getValue b with
  | _,.error _ => True
  | .error _,.ok _ => False
  | .ok va,.ok vb => if key.asc then cmp.compare va vb ≤ 0 else 0 ≤ cmp.compare va vb

def LexLe : List (OrderByKey row value) → row → row → Prop
  | [],_,_ => True
  | key :: rest,a,b => KeyLe cmp key a b ∧ (KeyLe cmp key b a → LexLe rest a b)

def Column (rows : List row) (key : OrderByKey row value) (v : Option value) : Prop := ∃ a ∈ rows, key.getValue a = .ok v

structure TotalPreorder (values : Option value → Prop) : Prop where
  flip : ∀ a b, values a → values b → (0 < cmp.compare a b ↔ cmp.compare b a < 0)
  trans : ∀ a b c, values a → values b → values c → cmp.compare a b ≤ 0 → cmp.compare b c ≤ 0 → cmp.compare a c ≤ 0

variable {cmp} {rows : List row} {key : OrderByKey row value} {a b c : row}

section
variable (order : TotalPreorder cmp (Column rows key)) (inA : a ∈ rows) (inB : b ∈ rows)
include order inA inB

theorem keyLeTotal : KeyLe cmp key a b ∨ KeyLe cmp key b a := by
  cases atA : key.getValue a with
  | error _ => simp [KeyLe,atA]
  | ok va =>
    cases atB : key.getValue b with
    | error _ => simp [KeyLe,atB]
    | ok vb =>
      have flip' := order.flip vb va ⟨b,inB,atB⟩ ⟨a,inA,atA⟩
      simp only [KeyLe,atA,atB]
      split <;> omega

theorem keyLeTrans (inC : c ∈ rows) (first : KeyLe cmp key a b) (second : KeyLe cmp key b c) : KeyLe cmp key a c := by
  cases atA : key.getValue a with
  | error _ => cases atB : key.getValue b <;> cases atC : key.getValue c <;> simp_all [KeyLe]
  | ok va =>
    cases atB : key.getValue b with
    | error _ => cases atC : key.getValue c <;> simp_all [KeyLe]
    | ok vb =>
      cases atC : key.getValue c with
      | error _ => simp [KeyLe,atC]
      | ok vc =>
        have up := order.trans va vb vc ⟨a,inA,atA⟩ ⟨b,inB,atB⟩ ⟨c,inC,atC⟩
        have down := order.trans vc vb va ⟨c,inC,atC⟩ ⟨b,inB,atB⟩ ⟨a,inA,atA⟩
        have flipAB := order.flip vb va ⟨b,inB,atB⟩ ⟨a,inA,atA⟩
        have flipBC := order.flip vc vb ⟨c,inC,atC⟩ ⟨b,inB,atB⟩
        have flipAC := order.flip vc va ⟨c,inC,atC⟩ ⟨a,inA,atA⟩
        simp only [KeyLe,atA,atB,atC] at first second ⊢
        split at first
        · simp_all
        · simp_all
          omega

end

theorem TotalPreorder.defined (order : TotalPreorder cmp (Column rows key)) (at' : Column rows key v) :
    ∃ x, v = some x ∧ cmp.compare v v = 0 := by
  have flip := order.flip v v at' at'
  cases v with
  | some x => exact ⟨x,rfl,by omega⟩
  | none =>
    rw [cmp.undefined] at flip
    exact absurd flip (by decide)

variable {keys : List (OrderByKey row value)}

section
variable (orders : ∀ key ∈ keys, TotalPreorder cmp (Column rows key))
include orders

theorem lexLeTotal (inA : a ∈ rows) (inB : b ∈ rows) : LexLe cmp keys a b ∨ LexLe cmp keys b a := by
  induction keys with
  | nil => exact .inl trivial
  | cons key rest ih =>
    have total := keyLeTotal (orders key mem_cons_self) inA inB
    have later := ih fun k inside => orders k (mem_cons_of_mem _ inside)
    simp only [LexLe]
    tauto

theorem lexLeTrans (inA : a ∈ rows) (inB : b ∈ rows) (inC : c ∈ rows) (first : LexLe cmp keys a b) (second : LexLe cmp keys b c) :
    LexLe cmp keys a c := by
  induction keys with
  | nil => trivial
  | cons key rest ih =>
    have order := orders key mem_cons_self
    refine ⟨keyLeTrans order inA inB inC first.1 second.1,fun back => ih (fun k inside => orders k (mem_cons_of_mem _ inside)) ?_ ?_⟩
    · exact first.2 (keyLeTrans order inB inC inA second.1 back)
    · exact second.2 (keyLeTrans order inC inA inB back first.1)

theorem comparatorIff (inA : a ∈ rows) (inB : b ∈ rows) : comparator cmp keys a b = true ↔ ¬LexLe cmp keys b a := by
  induction keys with
  | nil => simp [comparator,LexLe]
  | cons key rest ih =>
    have order := orders key mem_cons_self
    have later := ih fun k inside => orders k (mem_cons_of_mem _ inside)
    cases atA : key.getValue a with
    | error _ =>
      cases atB : key.getValue b with
      | error _ => simp [comparator,sortKey,LexLe,KeyLe,atA,atB,later]
      | ok vb =>
        obtain ⟨y,rfl,-⟩ := order.defined ⟨b,inB,atB⟩
        simp [comparator,sortKey,LexLe,KeyLe,atA,atB]
    | ok va =>
      obtain ⟨x,rfl,-⟩ := order.defined ⟨a,inA,atA⟩
      cases atB : key.getValue b with
      | error _ => simp [comparator,sortKey,LexLe,KeyLe,atA,atB]
      | ok vb =>
        obtain ⟨y,rfl,-⟩ := order.defined ⟨b,inB,atB⟩
        have flip := order.flip _ _ ⟨a,inA,atA⟩ ⟨b,inB,atB⟩
        have flip' := order.flip _ _ ⟨b,inB,atB⟩ ⟨a,inA,atA⟩
        simp only [comparator,sortKey,LexLe,KeyLe,atA,atB]
        by_cases tie : cmp.compare (some x) (some y) = 0
        · have back : cmp.compare (some y) (some x) = 0 := by omega
          simp [tie,back,later]
        · rw [if_pos tie]
          split <;> simp <;> omega

theorem strictWeak : StrictWeakOn (finRange rows.length) fun a b => comparator cmp keys (rows.get a) (rows.get b) :=
  strictWeakOf (fun a b => LexLe cmp keys (rows.get a) (rows.get b))
    (fun a _ b _ => lexLeTotal orders (rows.get_mem a) (rows.get_mem b))
    (fun a _ b _ c _ => lexLeTrans orders (rows.get_mem a) (rows.get_mem b) (rows.get_mem c))
    (fun a _ b _ => comparatorIff orders (rows.get_mem a) (rows.get_mem b))

variable {sort : SortFunction} (sorts : Sorts sort)
include sorts

theorem arranged : (arrange cmp sort keys rows).Perm rows ∧ (arrange cmp sort keys rows).Pairwise (LexLe cmp keys) := by
  by_cases needed : keys ≠ [] ∧ 1 < rows.length
  · obtain ⟨perm,ordered⟩ := sorts _ _ _ (strictWeak orders)
    rw [arrange,if_pos needed]
    constructor
    · have mapped := perm.map rows.get
      rwa [map_get_finRange] at mapped
    · refine pairwise_map.mpr (ordered.imp fun {a b} notAfter => ?_)
      have iff := comparatorIff orders (rows.get_mem b) (rows.get_mem a)
      rw [notAfter] at iff
      simpa using iff
  · rw [arrange,if_neg needed]
    refine ⟨.refl _,?_⟩
    rcases not_and_or.mp needed with none | short
    · rw [not_not.mp none]
      exact pairwise_of_forall fun _ _ => trivial
    · rcases rows with _ | ⟨x,_ | ⟨y,more⟩⟩
      · exact .nil
      · exact pairwise_singleton _ _
      · simp at short

end

/-! ### Calls -/

section
variable {op : PhysicalOperator τ σ (Except RC row)} (delivers : Delivers op (rows.map .ok))

theorem readsAll {rest} (pending : delivers.pending (rest.map .ok) child) (done : List row) :
    ∃ c, Loop.Stops (readNext op) (child,done) (.ok (done ++ rest),c) := by
  induction rest generalizing child done with
  | nil =>
    obtain ⟨c,ended,-⟩ := delivers.ends child pending
    exact ⟨c,Loop.stopsNow (by simp [readNext,ended])⟩
  | cons x rest ih =>
    obtain ⟨c,moved,pending',tuple⟩ := delivers.moves (.ok x) (rest.map .ok) child pending
    obtain ⟨d,stops⟩ := ih pending' (done ++ [x])
    rw [append_assoc] at stops
    exact ⟨d,Loop.stopsStep (by simp [readNext,moved,tuple]) stops⟩

variable {s t u : OrderBy σ row} {out : List row} {sort : SortFunction}

variable (cmp sort) in
theorem opens (keys : List (OrderByKey row value)) (trx : Option τ) (closed : delivers.closed child) (alone : s.children = [child]) :
    (∃ c, Opens cmp sort keys op trx s (.ok ()) ⟨[c],arrange cmp sort keys rows,-1⟩) ∧
    ∀ t, Opens cmp sort keys op trx s (.ok ()) t → t.sortedTuples = arrange cmp sort keys rows ∧ t.currentIndex = -1 := by
  obtain ⟨c,opened,pending⟩ := delivers.opens trx child closed
  obtain ⟨d,stops⟩ := readsAll delivers pending []
  simp only [Opens,alone,opened]
  refine ⟨⟨d,_,stops,by simp⟩,?_⟩
  rintro t ⟨read,stops',same⟩
  cases Loop.stopsUnique stops' stops
  rw [same.2]
  exact ⟨rfl,rfl⟩

theorem drainsRest (small : s.sortedTuples.length < 2 ^ 31) (inside : i ≤ s.sortedTuples.length)
    (index : s.currentIndex.toInt = (i : Int) - 1) : ∃ u, Drains s (s.sortedTuples.drop i) u := by
  obtain ⟨left,isLeft⟩ : ∃ left, s.sortedTuples.length - i = left := ⟨_,rfl⟩
  have size : s.size.toInt = s.sortedTuples.length := toInt_ofNat_of_lt small
  have step : (s.currentIndex + 1).toInt = i := by
    rw [toInt_add,index,show (1 : Int32).toInt = 1 from rfl,Int.sub_add_cancel]
    exact Int.bmod_eq_of_le (by omega) (by omega)
  induction left generalizing s i with
  | zero =>
    have ended : s.size ≤ s.currentIndex + 1 := by rw [le_iff_toInt_le]; omega
    rw [drop_eq_nil_of_le (by omega)]
    exact ⟨_,.eof (by rw [next,if_pos ended])⟩
  | succ left ih =>
    have here : i < s.sortedTuples.length := by omega
    have going : ¬s.size ≤ s.currentIndex + 1 := by rw [le_iff_toInt_le]; omega
    have tuple : currentTuple { s with currentIndex := s.currentIndex + 1 } = some s.sortedTuples[i] := by
      have inRange : ¬(s.currentIndex + 1 < 0 ∨ s.size ≤ s.currentIndex + 1) := by
        rw [lt_iff_toInt_lt,le_iff_toInt_le,step,toInt_zero]
        omega
      rw [currentTuple]
      show (if s.currentIndex + 1 < 0 ∨ s.size ≤ s.currentIndex + 1 then none else s.sortedTuples[(s.currentIndex + 1).toInt.toNat]?) = _
      rw [if_neg inRange,step,Int.toNat_natCast,getElem?_eq_getElem here]
    have next' : (s.currentIndex + 1 + 1).toInt = ((i + 1 : Nat) : Int) := by
      rw [toInt_add,step,show (1 : Int32).toInt = 1 from rfl]
      exact Int.bmod_eq_of_le (by omega) (by omega)
    obtain ⟨u,rest⟩ := ih (s := { s with currentIndex := s.currentIndex + 1 }) (i := i + 1) small here (by simp [step])
      (by simp only; omega) size next'
    rw [drop_eq_getElem_cons here]
    exact ⟨u,.row (by rw [next,if_neg going]) tuple rest⟩

theorem drainsFew (drains : Drains s out u) (low : -1 ≤ s.currentIndex.toInt) (high : s.currentIndex.toInt < 2 ^ 31 - 1) :
    s.currentIndex.toInt + out.length < 2 ^ 31 - 1 := by
  induction drains with
  | eof _ => simpa using high
  | @row s t u x rest one tuple more ih =>
    have step : (s.currentIndex + 1).toInt = s.currentIndex.toInt + 1 := by
      rw [toInt_add]
      exact Int.bmod_eq_of_le (by simp; omega) (by simp; omega)
    have going : s.currentIndex + 1 < s.size := by
      by_contra ended
      rw [next,if_pos (Int32.not_lt.mp ended)] at one
      cases one
    have below := toInt_lt s.size
    rw [lt_iff_toInt_lt] at going
    cases (Prod.ext_iff.mp one).2
    have more := ih (by simp only [step]; omega) (by simp only; omega)
    simp only [step,length_cons] at more ⊢
    omega

end

def Returns (cmp : Comparison value) (sort : SortFunction) (keys : List (OrderByKey row value))
    (op : PhysicalOperator τ σ (Except RC row)) (rows : List row) (s : OrderBy σ row) : Prop :=
  ∀ trx, ∃ t u out, Opens cmp sort keys op trx s (.ok ()) t ∧ Drains t out u ∧ out.Perm rows ∧ out.Pairwise (LexLe cmp keys)

theorem returnsIff (sorts : Sorts sort)
    (orders : ∀ key ∈ keys, TotalPreorder cmp (Column rows key)) (delivers : Delivers op (rows.map .ok))
    (closed : delivers.closed child) (alone : s.children = [child]) :
    Returns cmp sort keys op rows s ↔ rows.length < 2 ^ 31 := by
  obtain ⟨perm,ordered⟩ := arranged orders sorts
  constructor
  · intro returns
    obtain ⟨t,u,out,opened,drains,all,-⟩ := returns none
    obtain ⟨-,start⟩ := (opens cmp delivers sort keys none closed alone).2 t opened
    have few := drainsFew drains (by rw [start]; decide) (by rw [start]; decide)
    rw [start,all.length_eq,show (-1 : Int32).toInt = -1 from rfl] at few
    omega
  · intro small trx
    obtain ⟨c,opened⟩ := (opens cmp delivers sort keys trx closed alone).1
    obtain ⟨u,drains⟩ := drainsRest (s := ⟨[c],arrange cmp sort keys rows,-1⟩) (i := 0) (perm.length_eq ▸ small) (Nat.zero_le _) rfl
    exact ⟨_,u,_,opened,drains,perm,ordered⟩

theorem orderByReturnsIff {op : PhysicalOperator τ σ (Except RC row)} {sort : SortFunction} (sorts : Sorts sort)
    (orders : ∀ key ∈ keys, TotalPreorder cmp (Column rows key)) (delivers : Delivers op (rows.map .ok)) {child : σ}
    (closed : delivers.closed child) {s : OrderBy σ row} (alone : s.children = [child]) :
    (StrictWeakOn (finRange rows.length) fun a b => comparator cmp keys (rows.get a) (rows.get b)) ∧
      (Returns cmp sort keys op rows s ↔ rows.length < 2 ^ 31) :=
  ⟨strictWeak orders,returnsIff sorts orders delivers closed alone⟩

def byNumber : Comparison Nat where
  compare a b := match a,b with
    | none,_ => maxValue.toInt
    | some a,some b => (a : Int) - b
    | some _,none => 0
  undefined _ := rfl

def positive (asc : Bool) : OrderByKey Nat Nat := ⟨fun n => if n = 0 then .error .invalidArgument else .ok (some n),asc⟩

theorem byNumberOrders {rows} (asc : Bool) : TotalPreorder byNumber (Column rows (positive asc)) := by
  have some : ∀ v, Column rows (positive asc) v → ∃ n, v = some n := by
    rintro v ⟨a,-,at'⟩
    simp only [positive] at at'
    split at at' <;> cases at'
    exact ⟨a,rfl⟩
  refine ⟨fun a b atA atB => ?_,fun a b c atA atB atC => ?_⟩
  · obtain ⟨m,rfl⟩ := some a atA
    obtain ⟨n,rfl⟩ := some b atB
    simp only [byNumber]
    omega
  · obtain ⟨m,rfl⟩ := some a atA
    obtain ⟨n,rfl⟩ := some b atB
    obtain ⟨k,rfl⟩ := some c atC
    simp only [byNumber]
    omega

theorem threeRowsOrdered : [2,0,3].length < 2 ^ 31 ∧
    Returns byNumber sortAll [positive false] (rowList (Except RC Nat)) [2,0,3] ⟨[⟨[.ok 2,.ok 0,.ok 3],none,none⟩],[],-1⟩ :=
  ⟨by decide,(orderByReturnsIff sortAllSorts (fun key inside => mem_singleton.mp inside ▸ byNumberOrders false)
    (rowListDelivers _) (show (rowListDelivers _).closed ⟨_,none,none⟩ from rfl) rfl).2.mpr (by decide)⟩

/- The number of rows is read as an `int`. -/
theorem manyRowsLost : ¬Returns byNumber sortAll [positive false] (rowList (Except RC Nat)) (replicate (2 ^ 31) 1)
    ⟨[⟨(replicate (2 ^ 31) 1).map .ok,none,none⟩],[],-1⟩ := by
  rw [returnsIff sortAllSorts (fun key inside => mem_singleton.mp inside ▸ byNumberOrders false)
    (rowListDelivers _) (show (rowListDelivers _).closed ⟨_,none,none⟩ from rfl) rfl,length_replicate]
  exact lt_irrefl _

end OrderBy
end MiniOb.Sql
