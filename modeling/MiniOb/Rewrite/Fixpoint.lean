import MiniOb.Rewrite.Plan

/-! What `OptimizeStage::rewrite` makes of a statement's plan: the fixpoint of the rules, whatever the operators
above the predicate. -/
namespace MiniOb.Rewrite
open Expression (CompOp)
open Loop List Atom
variable {F V T : Type}

section Conditions
variable (compare : CompOp → V → V → Bool)

def undecided (cs : List (Comparison F V)) : List (Comparison F V) := cs.filter fun c => (c.tryGetValue compare).isNone

def beforeFalse : Option (Comparison F V) → List (Comparison F V) → Option (Option (Comparison F V))
  | _,[] => none
  | first,c :: rest => match c.tryGetValue compare with
    | some true => beforeFalse first rest
    | some false => some first
    | none => beforeFalse (first.or (some c)) rest

def unwrap : List (Comparison F V) → Expr F V
  | [c] => .atom (.comparison c)
  | rest => .conjunction (rest.map comparison)

variable {rest cs : List (Comparison F V)} {c : Comparison F V}

theorem unwrapSeveral (several : rest.length ≠ 1) : unwrap rest = .conjunction (rest.map comparison) := by
  match rest with
  | [] => rfl
  | [_] => exact absurd rfl several
  | _ :: _ :: _ => rfl

def normal (cs : List (Comparison F V)) : Expr F V :=
  match beforeFalse compare none cs with
  | some none => .atom (.value false)
  | some (some c) => .atom (.comparison c)
  | none => if cs.length = 1 ∧ undecided compare cs = [] then .atom (.value true) else unwrap (undecided compare cs)

theorem rewriteUndecided (open' : c.tryGetValue compare = none) :
    rewriteAtom compare (.comparison c) = (.comparison c,false) := by
  simp [rewriteAtom,open']

def folded (c : Comparison F V) : Atom F V := (rewriteAtom compare (.comparison c)).1

theorem foldedOpen (open' : c.tryGetValue compare = none) : folded compare c = .comparison c := by
  simp [folded,rewriteAtom,open']

theorem foldedConstant (constant : c.tryGetValue compare = some b) : folded compare c = .value b := by
  simp [folded,rewriteAtom,constant]

theorem simplifyComparisons (kept : List (Atom F V)) (cs : List (Comparison F V)) :
    simplify kept (cs.map comparison) = .inr (kept ++ cs.map comparison) := by
  induction cs generalizing kept with
  | nil => simp [simplify]
  | cons c rest ih => simp [simplify,ih]

theorem simplifyFolded (kept cs : List (Comparison F V)) :
    simplify (kept.map comparison) (cs.map (folded compare)) =
      match beforeFalse compare kept.head? cs with
      | some none => .inl (.value false)
      | some (some c) => .inl (.comparison c)
      | none => .inr ((kept ++ undecided compare cs).map comparison) := by
  induction cs generalizing kept with
  | nil => simp [simplify,beforeFalse,undecided]
  | cons c rest ih =>
    cases constant : c.tryGetValue compare with
    | none =>
      have further := ih (kept ++ [c])
      have first : (kept ++ [c]).head? = kept.head?.or (some c) := by cases kept <;> rfl
      simp only [map_append,map_cons,map_nil,first] at further
      simp only [map_cons,foldedOpen compare constant,simplify,further,beforeFalse,constant]
      simp [undecided,constant]
    | some b =>
      cases b with
      | true =>
        simp only [map_cons,foldedConstant compare constant,simplify,ih kept,beforeFalse,constant]
        simp [undecided,constant]
      | false =>
        simp only [map_cons,foldedConstant compare constant,simplify,beforeFalse,constant]
        cases kept <;> simp

theorem beforeFalseOpen
    (isOpen : ∀ d,first = some d → d.tryGetValue compare = none) (found : beforeFalse compare first cs = some (some c)) :
    c.tryGetValue compare = none := by
  induction cs generalizing first with
  | nil => cases found
  | cons d rest ih =>
    simp only [beforeFalse] at found
    cases constant : d.tryGetValue compare with
    | none =>
      simp only [constant] at found
      refine ih (fun e same => ?_) found
      cases first with
      | none =>
        cases same
        exact constant
      | some f => exact isOpen e same
    | some b =>
      cases b with
      | true =>
        simp only [constant] at found
        exact ih isOpen found
      | false =>
        simp only [constant] at found
        exact isOpen c (Option.some.inj found)

theorem firstPass (several : cs.length ≠ 1) : rewriteExpression compare (.conjunction (cs.map comparison)) =
      (.conjunction (cs.map (folded compare)),cs.any fun c => (c.tryGetValue compare).isSome) := by
  have kept := simplifyComparisons [] cs
  have changes : (cs.map comparison).any (fun a => (rewriteAtom compare a).2) = cs.any fun c => (c.tryGetValue compare).isSome := by
    rw [any_map]
    congr 1
    funext c
    cases constant : c.tryGetValue compare <;> simp [rewriteAtom,constant]
  simp only [rewriteExpression,kept,nil_append]
  split
  · rename_i single
    cases single
  · rename_i a single
    have length := congrArg length (Sum.inr.inj single)
    simp only [length_map,length_singleton] at length
    exact absurd length several
  · rename_i rest _ same
    cases Sum.inr.inj same
    rw [changes,map_map]
    rfl

theorem undecidedOpen (mem : c ∈ undecided compare cs) : c.tryGetValue compare = none := by
  simpa [undecided] using (mem_filter.1 mem).2

theorem rewriteKept (isOpen : ∀ c ∈ rest,c.tryGetValue compare = none)
    (kept : simplify [] children = .inr (rest.map comparison)) :
    rewriteExpression compare (.conjunction children) = (unwrap rest,decide (rest.length = 1)) := by
  match rest with
  | [] => simp [rewriteExpression,kept,unwrap]
  | [c] => simp [rewriteExpression,kept,unwrap]
  | c :: d :: more =>
    have same : ((c :: d :: more).map comparison).map (fun a => (rewriteAtom compare a).1) = (c :: d :: more).map comparison := by
      rw [map_map]
      exact map_congr_left fun e mem => foldedOpen compare (isOpen e mem)
    have unchanged : ((c :: d :: more).map comparison).any (fun a => (rewriteAtom compare a).2) = false := by
      rw [any_map,any_eq_false]
      intro e mem
      simp [rewriteUndecided compare (isOpen e mem)]
    have shape : rewriteExpression compare (.conjunction children) =
        (.conjunction (((c :: d :: more).map comparison).map fun a => (rewriteAtom compare a).1),
          ((c :: d :: more).map comparison).any fun a => (rewriteAtom compare a).2) := by
      simp only [rewriteExpression,kept]
      rfl
    rw [shape,same,unchanged]
    simp [unwrap]

theorem secondPass (cs : List (Comparison F V)) :
    (rewriteExpression compare (.conjunction (cs.map (folded compare)))).1 = match beforeFalse compare none cs with
      | some none => .atom (.value false)
      | some (some c) => .atom (.comparison c)
      | none => unwrap (undecided compare cs) := by
  have settled := simplifyFolded compare [] cs
  simp only [map_nil,head?_nil,nil_append] at settled
  match found : beforeFalse compare none cs with
  | some none =>
    simp only [found] at settled
    simp [rewriteExpression,settled]
  | some (some c) =>
    simp only [found] at settled
    simp [rewriteExpression,settled]
  | none =>
    simp only [found] at settled
    rw [rewriteKept compare (fun c mem => undecidedOpen compare mem) settled]

def initial (cs : List (Comparison F V)) : Expr F V := .conjunction (cs.map comparison)

def once (cs : List (Comparison F V)) : Expr F V := (rewriteExpression compare (initial cs)).1

theorem onceNotValue (cs : List (Comparison F V)) (b : Bool) : once compare cs ≠ .atom (.value b) := by
  by_cases single : cs.length = 1
  · obtain ⟨c,rfl⟩ := length_eq_one_iff.1 single
    simp [once,initial,rewriteExpression,simplify]
  · rw [once,initial,firstPass compare single]
    simp

theorem twiceNormal (cs : List (Comparison F V)) : (rewriteExpression compare (once compare cs)).1 = normal compare cs := by
  match cs with
  | [c] =>
    have unwrapped : once compare [c] = .atom (.comparison c) := by simp [once,initial,rewriteExpression,simplify]
    rw [unwrapped]
    match constant : c.tryGetValue compare with
    | none => simp [rewriteExpression,rewriteAtom,normal,beforeFalse,undecided,constant,unwrap]
    | some true => simp [rewriteExpression,rewriteAtom,normal,beforeFalse,undecided,constant]
    | some false => simp [rewriteExpression,rewriteAtom,normal,beforeFalse,constant]
  | [] => simp [once,initial,rewriteExpression,simplify,normal,beforeFalse,undecided,unwrap]
  | c :: d :: rest =>
    have several : (c :: d :: rest).length ≠ 1 := by simp
    have folds : once compare (c :: d :: rest) = .conjunction ((c :: d :: rest).map (folded compare)) := by
      rw [once,initial,firstPass compare several]
    rw [folds,secondPass,normal]
    simp only [several,false_and,if_false]

theorem unwrapStable (isOpen : ∀ c ∈ rest,c.tryGetValue compare = none) :
    rewriteExpression compare (unwrap rest) = (unwrap rest,false) := by
  by_cases single : rest.length = 1
  · obtain ⟨c,rfl⟩ := length_eq_one_iff.1 single
    simp [unwrap,rewriteExpression,rewriteUndecided compare (isOpen c (by simp))]
  · rw [unwrapSeveral single,rewriteKept compare isOpen (simplifyComparisons [] rest),unwrapSeveral single]
    simp [single]

theorem normalStable (cs : List (Comparison F V)) : rewriteExpression compare (normal compare cs) = (normal compare cs,false) := by
  rw [normal]
  split
  · rfl
  · rename_i c found
    have isOpen := beforeFalseOpen compare (by simp) found
    simp [rewriteExpression,rewriteUndecided compare isOpen]
  · split
    · rfl
    · exact unwrapStable compare fun c mem => undecidedOpen compare mem

theorem unchangedInitial (same : (rewriteExpression compare (initial cs)).2 = false) :
    normal compare cs = initial cs := by
  by_cases single : cs.length = 1
  · obtain ⟨c,rfl⟩ := length_eq_one_iff.1 single
    simp [initial,rewriteExpression,simplify] at same
  · rw [initial,firstPass compare single] at same
    have isOpen : ∀ c ∈ cs,c.tryGetValue compare = none := by simpa using same
    have first := twiceNormal compare cs
    have folds : cs.map (folded compare) = cs.map comparison := map_congr_left fun c mem => foldedOpen compare (isOpen c mem)
    rw [once,initial,firstPass compare single,folds,rewriteKept compare isOpen (simplifyComparisons [] cs),unwrapSeveral single] at first
    exact first.symm

end Conditions

section Rounds
variable (compare : CompOp → V → V → Bool)

structure Still (plan : Plan F V T) : Prop where
  expressions : rewriteExpressions compare plan = (plan,false)
  again : ∀ n,rewriteAt compare n plan = (plan,false)
  notPredicate : ∀ e child,plan ≠ .predicate e child

variable {plan s : Plan F V T} {ops : List Operator}

theorem stillHere (expressions : rewriteExpressions compare plan = (plan,false))
    (noPredicate : predicateRewrite plan = (plan,false)) (noPush : pushdown plan = (plan,false)) :
    rewriteHere compare plan = (plan,false) := by
  simp [rewriteHere,expressions,noPredicate,noPush]

theorem stillNothing : Still compare (.nothing : Plan F V T) where
  expressions := rfl
  again := by
    intro n
    cases n <;> rfl
  notPredicate := by simp

theorem stillTable (table : T) (predicates : List (Comparison F V)) : Still compare (.tableGet table predicates) where
  expressions := rfl
  again := by
    intro n
    cases n <;> rfl
  notPredicate := by simp

theorem stillJoin (stillLeft : Still compare left) (stillRight : Still compare right) :
    Still compare (.join left right) where
  expressions := by simp [rewriteExpressions,stillLeft.expressions,stillRight.expressions]
  again := by
    intro n
    cases n with
    | zero => rfl
    | succ n =>
      have here : rewriteHere compare (.join left right) = (.join left right,false) :=
        stillHere compare (by simp [rewriteExpressions,stillLeft.expressions,stillRight.expressions]) rfl rfl
      simp [rewriteAt,here,stillLeft.again n,stillRight.again n]
  notPredicate := by simp

theorem operatorStep
    (here : rewriteHere compare plan = (.operator op child,changed)) (n : Nat) :
    rewriteAt compare (n + 1) plan = (.operator op (rewriteAt compare n child).1,changed || (rewriteAt compare n child).2) := by
  rw [rewriteAt,here]

theorem predicateUnderPredicate (still : Still compare s) (e : Expr F V) :
    predicateRewrite (.predicate e s) = (.predicate e s,false) := by
  cases s with
  | predicate e' child => exact absurd rfl (still.notPredicate e' child)
  | _ => rfl

theorem pushdownStill (still : Still compare s) (e : Expr F V) :
    ∃ e' s' changed,pushdown (.predicate e s) = (.predicate e' s',changed) ∧ Still compare s' := by
  cases s with
  | tableGet table predicates =>
    simp only [pushdown]
    split
    · exact ⟨_,_,_,rfl,stillTable compare table predicates⟩
    · exact ⟨_,_,_,rfl,stillTable compare table _⟩
  | _ => exact ⟨_,_,_,rfl,still⟩

theorem atPredicate (still : Still compare s) (n : Nat) (e : Expr F V) :
    rewriteAt compare (n + 1) (.predicate e s) = ((pushdown (.predicate (rewriteExpression compare e).1 s)).1,
      (rewriteExpression compare e).2 || (pushdown (.predicate (rewriteExpression compare e).1 s)).2) := by
  have expressions : rewriteExpressions compare (.predicate e s) =
      (.predicate (rewriteExpression compare e).1 s,(rewriteExpression compare e).2) := by
    simp [rewriteExpressions,still.expressions]
  obtain ⟨e',s',changed,pushed,still'⟩ := pushdownStill compare still (rewriteExpression compare e).1
  have here : rewriteHere compare (.predicate e s) = (.predicate e' s',(rewriteExpression compare e).2 || changed) := by
    simp [rewriteHere,expressions,predicateUnderPredicate compare still,pushed]
  simp [rewriteAt,here,still'.again n,pushed]

def settle (e : Expr F V) (s : Plan F V T) : Plan F V T × Bool :=
  match e with
  | .atom (.value b) => (if b then s else .nothing,true)
  | e => ((pushdown (.predicate (rewriteExpression compare e).1 s)).1,
      (rewriteExpression compare e).2 || (pushdown (.predicate (rewriteExpression compare e).1 s)).2)

theorem atLowest (still : Still compare s) (n : Nat) (op : Operator) (e : Expr F V) :
    rewriteAt compare (n + 2) (.operator op (.predicate e s)) = (.operator op (settle compare (rewriteExpression compare e).1 s).1,
      (rewriteExpression compare e).2 || (settle compare (rewriteExpression compare e).1 s).2) := by
  have expressions : rewriteExpressions compare (.operator op (.predicate e s)) =
      (.operator op (.predicate (rewriteExpression compare e).1 s),(rewriteExpression compare e).2) := by
    simp [rewriteExpressions,still.expressions]
  have below := atPredicate compare still n (rewriteExpression compare e).1
  match simplified : (rewriteExpression compare e).1 with
  | .atom (.value b) =>
    have here : rewriteHere compare (.operator op (.predicate e s)) = (.operator op (if b then s else .nothing),true) := by
      simp [rewriteHere,expressions,simplified,predicateRewrite,pushdown]
    rw [operatorStep compare here]
    cases b with
    | true => simp [settle,still.again (n + 1)]
    | false => simp [settle,(stillNothing compare).again (n + 1)]
  | .atom (.comparison c) =>
    have here : rewriteHere compare (.operator op (.predicate e s)) =
        (.operator op (.predicate (.atom (.comparison c)) s),(rewriteExpression compare e).2) := by
      simp [rewriteHere,expressions,simplified,predicateRewrite,pushdown]
    rw [simplified] at below
    rw [operatorStep compare here,below]
    rfl
  | .conjunction children =>
    have here : rewriteHere compare (.operator op (.predicate e s)) =
        (.operator op (.predicate (.conjunction children) s),(rewriteExpression compare e).2) := by
      simp [rewriteHere,expressions,simplified,predicateRewrite,pushdown]
    rw [simplified] at below
    rw [operatorStep compare here,below]
    rfl

theorem stackExpressions (still : Still compare s) (ops : List Operator) (e : Expr F V) :
    rewriteExpressions compare (stack ops (.predicate e s)) =
      (stack ops (.predicate (rewriteExpression compare e).1 s),(rewriteExpression compare e).2) := by
  induction ops with
  | nil => simp [stack,rewriteExpressions,still.expressions]
  | cons op rest ih =>
    simp only [stack,foldr_cons] at ih ⊢
    simp [rewriteExpressions,ih]

theorem atUpper (still : Still compare s) (n : Nat) (op op' : Operator) (rest : List Operator) (e : Expr F V) :
    rewriteAt compare (n + 1) (stack (op :: op' :: rest) (.predicate e s)) =
      (.operator op (rewriteAt compare n (stack (op' :: rest) (.predicate (rewriteExpression compare e).1 s))).1,
        (rewriteExpression compare e).2 ||
          (rewriteAt compare n (stack (op' :: rest) (.predicate (rewriteExpression compare e).1 s))).2) := by
  have here : rewriteHere compare (stack (op :: op' :: rest) (.predicate e s)) =
      (.operator op (stack (op' :: rest) (.predicate (rewriteExpression compare e).1 s)),(rewriteExpression compare e).2) := by
    simp only [rewriteHere,stackExpressions compare still]
    simp [stack,predicateRewrite,pushdown]
  exact operatorStep compare here n

theorem roundStable (still : Still compare s) (stable : rewriteExpression compare e = (e,false)) (some : ops ≠ [])
    (n : Nat) (deep : ops.length < n) :
    rewriteAt compare n (stack ops (.predicate e s)) = (stack ops (settle compare e s).1,(settle compare e s).2) := by
  induction ops generalizing n with
  | nil => exact absurd rfl some
  | cons op rest ih =>
    cases rest with
    | nil =>
      obtain ⟨n,rfl⟩ : ∃ m,n = m + 2 := ⟨n - 2,by simp at deep; omega⟩
      have lowest := atLowest compare still n op e
      simpa [stable,stack] using lowest
    | cons op' rest =>
      obtain ⟨n,rfl⟩ : ∃ m,n = m + 1 := ⟨n - 1,by omega⟩
      have below := ih (by simp) n (by simpa using deep)
      rw [atUpper compare still,stable,below]
      simp [stack]

theorem roundOnce (still : Still compare s) (next : (rewriteExpression compare e).1 = e')
    (stable : rewriteExpression compare e' = (e',false)) (some : ops ≠ []) (n : Nat) (deep : ops.length < n) :
    rewriteAt compare n (stack ops (.predicate e s)) =
      (stack ops (settle compare e' s).1,(rewriteExpression compare e).2 || (settle compare e' s).2) := by
  match ops with
  | [] => exact absurd rfl some
  | [op] =>
    obtain ⟨n,rfl⟩ : ∃ m,n = m + 2 := ⟨n - 2,by simp at deep; omega⟩
    have lowest := atLowest compare still n op e
    simpa [next,stack] using lowest
  | op :: op' :: rest =>
    obtain ⟨n,rfl⟩ : ∃ m,n = m + 1 := ⟨n - 1,by omega⟩
    rw [atUpper compare still,next,roundStable compare still stable (by simp) n (by simpa using deep)]
    simp [stack]

theorem roundStill (still : Still compare plan) (ops : List Operator) (n : Nat) :
    rewriteAt compare n (stack ops plan) = (stack ops plan,false) := by
  induction ops generalizing n with
  | nil => exact still.again n
  | cons op rest ih =>
    cases n with
    | zero => rfl
    | succ n =>
      have expressions : ∀ ops : List Operator,rewriteExpressions compare (stack ops plan) = (stack ops plan,false) := by
        intro ops
        induction ops with
        | nil => exact still.expressions
        | cons op rest ih =>
          simp only [stack,foldr_cons] at ih ⊢
          simp [rewriteExpressions,ih]
      have noPredicate : predicateRewrite (stack (op :: rest) plan) = (stack (op :: rest) plan,false) := by
        cases rest with
        | nil =>
          cases plan with
          | predicate e child => exact absurd rfl (still.notPredicate e child)
          | _ => rfl
        | cons op' rest => rfl
      have here : rewriteHere compare (stack (op :: rest) plan) = (.operator op (stack rest plan),false) :=
        stillHere compare (expressions _) noPredicate rfl
      rw [operatorStep compare here,ih n]
      rfl

end Rounds

inductive Source : Plan F V T → Prop
  | table (t : T) : Source (.tableGet t [])
  | join {left right : Plan F V T} (first : Source left) (second : Source right) : Source (.join left right)

section Stops
variable (compare : CompOp → V → V → Bool)

variable {s plan : Plan F V T} {ops : List Operator} {cs rest : List (Comparison F V)}

theorem sourceStill (source : Source s) : Still compare s := by
  induction source with
  | table t => exact stillTable compare t []
  | join _ _ stillLeft stillRight => exact stillJoin compare stillLeft stillRight

def finished (cs : List (Comparison F V)) (s : Plan F V T) : Plan F V T :=
  match normal compare cs,s with
  | .atom (.value b),s => if b then s else .nothing
  | e,.tableGet table _ => .tableGet table e.comparisons
  | e,s => .predicate e s

theorem roundOf {next changed} (ran : rewriteAt compare plan.depth plan = (next,changed)) :
    rewriteRound compare plan = if changed then .inl next else .inr next := by
  simp [rewriteRound,ran]

theorem depthStack (ops : List Operator) (plan : Plan F V T) : (stack ops plan).depth = plan.depth + ops.length := by
  induction ops with
  | nil => rfl
  | cons op rest ih =>
    simp only [stack,foldr_cons,Plan.depth] at ih ⊢
    simp [ih,Nat.add_assoc]

theorem depthPredicate (ops : List Operator) (e : Expr F V) (s : Plan F V T) : ops.length < (stack ops (.predicate e s)).depth := by
  rw [depthStack,Plan.depth]
  omega

theorem stopsStill (still : Still compare plan) (ops : List Operator) :
    Stops (rewriteRound compare) (stack ops plan) (stack ops plan) :=
  stopsNow (by rw [roundOf compare (roundStill compare still ops _)]; rfl)

theorem stableRound (still : Still compare s) (stable : rewriteExpression compare e = (e,false)) (some : ops ≠ []) :
    rewriteRound compare (stack ops (.predicate e s)) =
      if (settle compare e s).2 then .inl (stack ops (settle compare e s).1) else .inr (stack ops (settle compare e s).1) :=
  roundOf compare (roundStable compare still stable some _ (depthPredicate ops e s))

theorem stopsConstant (still : Still compare s) (some : ops ≠ []) (b : Bool) :
    Stops (rewriteRound compare) (stack ops (.predicate (.atom (.value b)) s)) (stack ops (if b then s else .nothing)) := by
  have round := stableRound compare still (rfl : rewriteExpression compare (.atom (.value b)) = _) some
  refine stopsStep round (stopsStill compare ?_ ops)
  cases b with
  | true => exact still
  | false => exact stillNothing compare

theorem normalShape (cs : List (Comparison F V)) : (∃ b,normal compare cs = .atom (.value b)) ∨ ∃ rest,normal compare cs = unwrap rest := by
  rw [normal]
  split
  · exact .inl ⟨false,rfl⟩
  · rename_i c _
    exact .inr ⟨[c],rfl⟩
  · split
    · exact .inl ⟨true,rfl⟩
    · exact .inr ⟨_,rfl⟩

theorem unwrapComparisons (rest : List (Comparison F V)) : (unwrap rest).comparisons = rest := by
  by_cases single : rest.length = 1
  · obtain ⟨c,rfl⟩ := length_eq_one_iff.1 single
    rfl
  · rw [unwrapSeveral single,Expr.comparisons,filterMap_map]
    exact filterMap_some

theorem unwrapWithout (rest : List (Comparison F V)) : (unwrap rest).withoutComparisons = .atom (.value true) := by
  by_cases single : rest.length = 1
  · obtain ⟨c,rfl⟩ := length_eq_one_iff.1 single
    rfl
  · have none : (rest.map comparison).filter isValue = [] := by simp [isValue]
    rw [unwrapSeveral single,Expr.withoutComparisons,none]

theorem unwrapNotValue (rest : List (Comparison F V)) (b : Bool) : unwrap rest ≠ .atom (.value b) := by
  by_cases single : rest.length = 1
  · obtain ⟨c,rfl⟩ := length_eq_one_iff.1 single
    simp [unwrap]
  · simp [unwrapSeveral single]

theorem finishedValue (constant : normal compare cs = .atom (.value b)) (s : Plan F V T) :
    finished compare cs s = if b then s else .nothing := by
  simp [finished,constant]

theorem finishedTable (isOpen : normal compare cs = unwrap rest) (t : T) :
    finished compare cs (.tableGet t []) = .tableGet t rest := by
  unfold finished
  rw [isOpen]
  split
  · rename_i b same
    exact absurd same (unwrapNotValue rest b)
  · rename_i table predicates same _
    cases same
    rw [unwrapComparisons]
  · rename_i e _ notTable
    exact absurd rfl (notTable _ _)

theorem finishedJoin (isOpen : normal compare cs = unwrap rest) (left right : Plan F V T) :
    finished compare cs (.join left right) = .predicate (unwrap rest) (.join left right) := by
  unfold finished
  rw [isOpen]
  split
  · rename_i b same
    exact absurd same (unwrapNotValue rest b)
  · rename_i same _
    cases same
  · rfl

theorem settleOpen (stable : rewriteExpression compare (unwrap rest) = (unwrap rest,false)) (s : Plan F V T) :
    settle compare (unwrap rest) s = pushdown (.predicate (unwrap rest) s) := by
  rw [settle]
  · simp [stable]
  · exact unwrapNotValue rest

theorem stopsPushed (source : Source s) (some : ops ≠ []) :
    Stops (rewriteRound compare) (stack ops (pushdown (.predicate (normal compare cs) s)).1) (stack ops (finished compare cs s)) := by
  have still := sourceStill compare source
  have stable := normalStable compare cs
  rcases normalShape compare cs with ⟨b,constant⟩ | ⟨rest,isOpen⟩
  · have same : (pushdown (.predicate (.atom (.value b)) s)).1 = .predicate (.atom (.value b)) s := by
      cases s <;> rfl
    rw [constant,same,finishedValue compare constant]
    exact stopsConstant compare still some b
  · rw [isOpen] at stable ⊢
    cases source with
    | table t =>
      rw [finishedTable compare isOpen]
      have pushed : (pushdown (.predicate (unwrap rest) (.tableGet t []))).1 = .predicate (.atom (.value true)) (.tableGet t rest) := by
        simp only [pushdown,unwrapComparisons,unwrapWithout]
        cases rest <;> rfl
      rw [pushed]
      exact stopsConstant compare (stillTable compare t rest) some true
    | join first second =>
      rw [finishedJoin compare isOpen]
      have round := stableRound compare still stable some
      rw [settleOpen compare stable] at round
      exact stopsNow round

theorem firstRound (source : Source s) (some : ops ≠ []) :
    (∃ changed,rewriteAt compare (stack ops (.predicate (initial cs) s)).depth (stack ops (.predicate (initial cs) s)) =
        (stack ops (pushdown (.predicate (normal compare cs) s)).1,
          (rewriteExpression compare (initial cs)).2 || (changed || (pushdown (.predicate (normal compare cs) s)).2))) ∨
      (∃ b,normal compare cs = .atom (.value b)) ∧
        rewriteAt compare (stack ops (.predicate (initial cs) s)).depth (stack ops (.predicate (initial cs) s)) =
          (stack ops (finished compare cs s),true) := by
  have still := sourceStill compare source
  have deep := depthPredicate ops (initial cs) s
  generalize (stack ops (.predicate (initial cs) s)).depth = n at deep ⊢
  match ops with
  | [] => exact absurd rfl some
  | [op] =>
    obtain ⟨n,rfl⟩ : ∃ m,n = m + 2 := ⟨n - 2,by simp at deep; omega⟩
    have lowest := atLowest compare still n op (initial cs)
    have open' : settle compare (once compare cs) s = ((pushdown (.predicate (normal compare cs) s)).1,
        (rewriteExpression compare (once compare cs)).2 || (pushdown (.predicate (normal compare cs) s)).2) := by
      rw [settle]
      · rw [twiceNormal]
      · exact onceNotValue compare cs
    refine .inl ⟨(rewriteExpression compare (once compare cs)).2,?_⟩
    simp only [stack,foldr_cons,foldr_nil]
    rw [lowest,← once,open']
  | op :: op' :: rest =>
    obtain ⟨n,rfl⟩ : ∃ m,n = m + 1 := ⟨n - 1,by omega⟩
    have upper := atUpper compare still n op op' rest (initial cs)
    rw [← once,roundOnce compare still (twiceNormal compare cs) (normalStable compare cs) (by simp) n (by simpa using deep)] at upper
    rw [upper]
    rcases normalShape compare cs with ⟨b,constant⟩ | ⟨open',isOpen⟩
    · refine .inr ⟨⟨b,constant⟩,?_⟩
      rw [finishedValue compare constant,constant]
      simp [settle,stack]
    · refine .inl ⟨(rewriteExpression compare (once compare cs)).2,?_⟩
      have stable := normalStable compare cs
      rw [isOpen] at stable ⊢
      rw [settleOpen compare stable]
      rfl

theorem rewriteStops (nonempty : cs ≠ []) (source : Source s) (some : ops ≠ []) :
    Stops (rewriteRound compare) (stack ops (.predicate (initial cs) s)) (stack ops (finished compare cs s)) := by
  have still := sourceStill compare source
  rcases firstRound compare source some with ⟨changed,round⟩ | ⟨⟨b,constant⟩,round⟩
  · have step := roundOf compare round
    cases flag : ((rewriteExpression compare (initial cs)).2 || (changed || (pushdown (.predicate (normal compare cs) s)).2)) with
    | true =>
      rw [flag] at step
      exact stopsStep step (stopsPushed compare source some)
    | false =>
      -- no rule changed anything: several open comparisons over a join
      obtain ⟨unchanged,rest⟩ := Bool.or_eq_false_iff.1 flag
      have notPushed := (Bool.or_eq_false_iff.1 rest).2
      have same := unchangedInitial compare unchanged
      rw [flag] at step
      rcases normalShape compare cs with ⟨b,constant⟩ | ⟨rest,isOpen⟩
      · simp [initial,constant] at same
      · have all : rest = cs := by
          have comparisons := congrArg Expr.comparisons (isOpen.symm.trans same)
          rw [unwrapComparisons] at comparisons
          rw [comparisons,initial,Expr.comparisons,filterMap_map]
          exact filterMap_some
        rw [isOpen] at notPushed step
        cases source with
        | table t =>
          rw [pushdown,unwrapComparisons,all] at notPushed
          cases cs with
          | nil => exact absurd rfl nonempty
          | cons c more => cases notPushed
        | join _ _ =>
          rw [finishedJoin compare isOpen]
          exact stopsNow step
  · refine stopsStep (roundOf compare round) (stopsStill compare ?_ ops)
    rw [finishedValue compare constant]
    cases b with
    | true => exact still
    | false => exact stillNothing compare

end Stops

end MiniOb.Rewrite
