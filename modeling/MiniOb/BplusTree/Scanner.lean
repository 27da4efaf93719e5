import Mathlib.Algebra.BigOperators.Group.List.Basic
import Mathlib.Data.List.TakeWhile
import MiniOb.BplusTree.Calls

/-! `BplusTreeScanner`: opening a range on the tree and reading its entries one by one. -/
namespace MiniOb.BplusTree
open Prog PagedTree PagedTree.Bound List InternalIndexNodeHandler

/-! ### The scanner -/

section
variable {K : Type}

structure Scanner (K : Type) where
  inited : Bool
  firstEmitted : Bool
  currentFrame : Option PageNum
  iterIndex : Int
  rightKey : Option K

structure Scan (K : Type) where
  handler : Handler K
  scanner : Scanner K

abbrev ScanM (K : Type) := Prog (Scan K) Exit

def newScanner (s : Handler K) : Scan K := ⟨s.beginMtr,⟨false,false,none,-1,none⟩⟩

def onTree {α : Type} (m : TreeM K α) : ScanM K α := fun s => match m s.handler with
  | (r,t) => (r,{ s with handler := t })

def getScanner : ScanM K (Scanner K) := read Scan.scanner

def setScanner (f : Scanner K → Scanner K) : ScanM K Unit := update fun s => { s with scanner := f s.scanner }

def currentItem : ScanM K (K × RID) := do
  let c ← getScanner
  match c.currentFrame with
  | none => exit .abort
  | some page =>
      let (_,_,items) ← onTree (LeafIndexNodeHandler.view page)
      if c.iterIndex < 0 then exit .abort
      else match items[c.iterIndex.toNat]? with
        | some item => pure item
        | none => exit .abort

def fetchItem : ScanM K RID := do
  let item ← currentItem
  pure item.2

def touchEnd (ops : KeyOps K) : ScanM K Bool := do
  let c ← getScanner
  match c.rightKey with
  | none => pure false
  | some right =>
      let item ← currentItem
      pure (decide (0 < ops.compare item.1 right))

def orEmpty {α : Type} (m : TreeM K α) : TreeM K (Option α) := fun s => match m s with
  | (.ok a,t) => (.ok (some a),t)
  | (.error (.rc .empty),t) => (.ok none,t)
  | (.error e,t) => (.error e,t)

/-- The part of `open` that goes to the first entry not below the left key. The result tells
whether there is one to stop at. -/
def seek (ops : KeyOps K) : Option K → ScanM K Bool
  | none => do
      match ← onTree (orEmpty leftMostPage) with
      | none =>
          setScanner fun c => { c with currentFrame := none }
          pure false
      | some page =>
          setScanner fun c => { c with currentFrame := some page, iterIndex := 0 }
          pure true
  | some key => do
      match ← onTree (orEmpty (findLeaf ops .read key)) with
      | none =>
          setScanner fun c => { c with currentFrame := none }
          pure false
      | some page =>
          let (_,next,items) ← onTree (LeafIndexNodeHandler.view page)
          let index := (LeafIndexNodeHandler.lookup ops key items).1
          if items.length ≤ index then
            if next = bpInvalidPageNum then
              onTree release
              setScanner fun c => { c with currentFrame := none }
              pure false
            else
              onTree (getPage next)
              onTree (latch (.shared next))
              setScanner fun c => { c with currentFrame := some next, iterIndex := 0 }
              pure true
          else
            setScanner fun c => { c with currentFrame := some page, iterIndex := index }
            pure true

def openKeys (ops : KeyOps K) (left right : Option K) : ScanM K Unit := do
  if ← seek ops left then
    setScanner fun c => { c with rightKey := right }
    if ← touchEnd ops then setScanner fun c => { c with currentFrame := none } else pure ()
  else pure ()

/-- `open` once it knows whether the range is refused. -/
def openRange (ops : KeyOps K) (invalid : Bool) (left right : Option K) : ScanM K Unit := do
  let c ← getScanner
  if c.inited then exit (.rc .internal)
  else
    setScanner fun c => { c with inited := true, firstEmitted := false }
    if invalid then exit (.rc .invalidArgument)
    else openKeys ops left right

def trySlatch (page : PageNum) : TreeM K Bool := fun s => match s.mtr.faults with
  | some _ :: rest => (.ok false,{ s with mtr := { s.mtr with faults := rest } })
  | none :: rest => ((do latch (.shared page); pure true : TreeM K Bool) { s with mtr := { s.mtr with faults := rest } })
  | [] => ((do latch (.shared page); pure true : TreeM K Bool) s)

/-- Whether the latches that a scan tries are free, one after the other; later ones are. The page
itself can be fetched. -/
def latchFaults (attempts : List Bool) : List (Option RC) :=
  attempts.flatMap fun free => [none,if free then none else some .lockedNeedWait]

/-- `next_entry`. It calls itself on the next page, which in a tree has an entry. -/
def nextEntryFrom (ops : KeyOps K) : Nat → ScanM K RID
  | 0 => exit .abort
  | fuel+1 => do
      let c ← getScanner
      match c.currentFrame with
      | none => exit (.rc .recordEof)
      | some page =>
          if c.firstEmitted = false then
            let rid ← fetchItem
            setScanner fun c => { c with firstEmitted := true }
            pure rid
          else
            setScanner fun c => { c with iterIndex := c.iterIndex + 1 }
            let (_,next,items) ← onTree (LeafIndexNodeHandler.view page)
            if c.iterIndex + 1 < items.length then
              if ← touchEnd ops then exit (.rc .recordEof) else fetchItem
            else if next = bpInvalidPageNum then exit (.rc .recordEof)
            else
              let point ← onTree memoPoint
              onTree (getPage next)
              setScanner fun c => { c with currentFrame := some next }
              if ← onTree (trySlatch next) then
                onTree (releaseTo point)
                setScanner fun c => { c with iterIndex := -1 }
                nextEntryFrom ops fuel
              else exit (.rc .lockedNeedWait)

def nextEntry (ops : KeyOps K) : ScanM K RID := do
  let fuel ← read fun s => s.handler.disk.file.pageCount
  nextEntryFrom ops (fuel + 1)

def collect (ops : KeyOps K) : Nat → ScanM K (List RID)
  | 0 => exit .abort
  | fuel+1 => fun s => match nextEntry ops s with
    | (.ok rid,t) => (do
        let rest ← collect ops fuel
        pure (rid :: rest) : ScanM K (List RID)) t
    | (.error (.rc .recordEof),t) => (.ok [],t)
    | (.error e,t) => (.error e,t)

end

/-! ### Descent in a tree read off its pages -/

section
variable {K : Type} [LinearOrder K] {ops : KeyOps K} {S : Store K} {x : Bound K} {stored : K → Prop}
  {getter : List (K × PageNum) → TreeM K PageNum}

def PicksChild (S : Store K) (stored : K → Prop) (x : Bound K) (getter : List (K × PageNum) → TreeM K PageNum) : Prop :=
  ∀ {child : PageNum → Bound K → Bound K → Prop} {lo hi : Bound K} {items : List (K × PageNum)},
    Children child lo items hi → lo ≤ x → x < hi → (∀ item ∈ items.tail, stored item.1) →
    ∃ before k c after low high, items = before ++ (k,c) :: after ∧ child c low high ∧ low ≤ x ∧ x < high ∧
      (before = [] ∨ Children child lo before low) ∧ (after = [] ∨ Children child high after hi) ∧
      Takes Sees (getter items) S (.ok c) S

theorem picksChildLookup {key} (ordered : ops.OrderedAt key stored) :
    PicksChild S stored (Bound.key key) fun items =>
      valueAt items (lookup ops key items).1 := by
  intro child lo hi items children starts ends all
  obtain ⟨before,k,c,after,low,high,rfl,here,startsC,endsC,front,back⟩ := childrenFind children starts ends
  refine ⟨before,k,c,after,low,high,rfl,here,startsC,endsC,front.imp And.left And.right,
    back.imp id fun ⟨_,_,_,_,tail⟩ => tail,takesValueAt (k := k) ?_⟩
  rw [(internalLookup ordered _ _ all ?_ ?_ ?_).1]
  · simp
  · intro item inside
    rcases front with ⟨rfl,-⟩ | ⟨-,front⟩
    · cases inside
    · exact keyLt.mp ((childrenTail front item inside).2.trans_le startsC)
  · intro some
    rcases front with ⟨none,-⟩ | ⟨atKey,-⟩
    · exact absurd none some
    · exact keyLe.mp (atKey ▸ startsC)
  · intro item inside
    rcases back with rfl | ⟨next,rest,rfl,atKey,tail⟩
    · cases inside
    · rcases mem_cons.mp inside with rfl | later
      · exact keyLt.mp (atKey ▸ endsC)
      · exact keyLt.mp (endsC.trans (childrenTail tail item later).1)

theorem picksChildFirst : PicksChild S stored ⊥ fun items => valueAt items 0 := by
  intro child lo hi items children starts ends all
  obtain ⟨before,k,c,after,low,high,rfl,here,startsC,endsC,front,back⟩ := childrenFind children starts ends
  have first : before = [] := by
    rcases front with ⟨rfl,-⟩ | ⟨atKey,-⟩
    · rfl
    · exact absurd (atKey ▸ startsC) (not_le.mpr (botLtKey k))
  subst first
  have run : Takes Sees (valueAt ((k,c) :: after) 0) S (.ok c) S := takesValueAt rfl
  exact ⟨[],k,c,after,low,high,rfl,here,startsC,endsC,.inl rfl,back.imp id fun ⟨_,_,_,_,tail⟩ => tail,run⟩

theorem takesDescendSubtree (op : OperationType) (picks : PicksChild S stored x getter) :
    ∀ {level fuel : Nat} {parent p : PageNum} {lo hi : Bound K}, Subtree S.node level parent p lo hi → lo ≤ x → x < hi →
    level < fuel → (∀ k ∈ keysBelow S.node fuel p, stored k) →
    ∃ before c after, leaves S.node fuel p = before ++ c :: after ∧
      (∀ item ∈ entries S.node before, key item.1 < x) ∧ (∀ item ∈ entries S.node after, x < key item.1) ∧
      Takes Sees (descend op getter fuel p) S (.ok c) S := by
  intro level
  induction level with
  | zero =>
    intro fuel parent p lo hi sub starts ends enough all
    obtain ⟨fuel,rfl⟩ : ∃ f, fuel = f + 1 := ⟨fuel - 1,by omega⟩
    obtain ⟨next,items,node,-⟩ := sub
    refine ⟨[],p,[],by simp [leaves,node],by simp [entries],by simp [entries],takesBind (takesGetNode p) ?_⟩
    rw [node]
    exact takesPure
  | succ level ih =>
    intro fuel parent p lo hi sub starts ends enough all
    obtain ⟨fuel,rfl⟩ : ∃ f, fuel = f + 1 := ⟨fuel - 1,by omega⟩
    obtain ⟨items,node,children⟩ := sub
    simp only [keysBelow,node,mem_append,mem_flatMap] at all
    obtain ⟨before,k,c,after,low,high,rfl,here,startsC,endsC,front,back,choice⟩ := picks children starts ends
      fun item inside => all item.1 (.inl (by
        rw [← map_tail]
        exact mem_map_of_mem inside))
    obtain ⟨before',leaf,after',split,below,above,run⟩ := ih here startsC endsC (by omega)
      fun k' inside => all k' (.inr ⟨(k,c),by simp,inside⟩)
    have filled : ∀ {low high : Bound K} {list : List (K × PageNum)}, Children (Subtree S.node level p) low list high →
        Filled S.node (list.flatMap fun item => leaves S.node fuel item.2) low high := fun h =>
      (childrenFilled (fun c low high sub => sub.filled (by omega)) h).1
    refine ⟨(before.flatMap fun item => leaves S.node fuel item.2) ++ before',leaf,
      after' ++ after.flatMap fun item => leaves S.node fuel item.2,?_,?_,?_,takesBind (takesGetNode p) ?_⟩
    · simp only [leaves,node,flatMap_append,flatMap_cons,split,append_assoc,cons_append]
    · intro item inside
      rw [entries,flatMap_append] at inside
      rcases mem_append.mp inside with h | h
      · rcases front with rfl | front
        · cases h
        · exact ((filled front).within item h).2.trans_le startsC
      · exact below item h
    · intro item inside
      rw [entries,flatMap_append] at inside
      rcases mem_append.mp inside with h | h
      · exact above item h
      · rcases back with rfl | back
        · cases h
        · exact endsC.trans_le ((filled back).within item h).1
    · rw [node]
      exact takesBind choice (takesBind takesFetchPage run)

/-- A search that goes to some child of each node ends at some leaf. -/
theorem takesDescendAny (getter : List (K × PageNum) → TreeM K PageNum) (op : OperationType)
    (picks : ∀ items, items ≠ [] → ∃ item ∈ items, Takes Sees (getter items) S (.ok item.2) S) :
    ∀ {level fuel : Nat} {parent p : PageNum} {lo hi : Bound K}, Subtree S.node level parent p lo hi → level < fuel →
    ∃ c ∈ leaves S.node fuel p, Takes Sees (descend op getter fuel p) S (.ok c) S := by
  intro level
  induction level with
  | zero =>
    intro fuel parent p lo hi sub enough
    obtain ⟨fuel,rfl⟩ : ∃ f, fuel = f + 1 := ⟨fuel - 1,by omega⟩
    obtain ⟨next,items,node,-⟩ := sub
    refine ⟨p,by simp [leaves,node],takesBind (takesGetNode p) ?_⟩
    rw [node]
    exact takesPure
  | succ level ih =>
    intro fuel parent p lo hi sub enough
    obtain ⟨fuel,rfl⟩ : ∃ f, fuel = f + 1 := ⟨fuel - 1,by omega⟩
    obtain ⟨items,node,children⟩ := sub
    obtain ⟨some,every⟩ := childrenEach children
    obtain ⟨item,inside,choice⟩ := picks items some
    obtain ⟨low,high,here⟩ := every item inside
    obtain ⟨leaf,listed,run⟩ := ih here (by omega : level < fuel)
    refine ⟨leaf,?_,takesBind (takesGetNode p) ?_⟩
    · simp only [leaves,node,mem_flatMap]
      exact ⟨item,inside,listed⟩
    · rw [node]
      exact takesBind choice (takesBind takesFetchPage run)

structure Rooted (S : Store K) (stored : K → Prop) (pages : List PageNum) : Prop where
  root : S.header.rootPage ≠ bpInvalidPageNum
  subtree : ∃ level < S.file.pageCount, Subtree S.node level bpInvalidPageNum S.header.rootPage ⊥ ⊤
  row : leaves S.node S.file.pageCount S.header.rootPage = pages
  chain : LeafChain bpInvalidPageNum S.node pages
  valid : bpInvalidPageNum ∉ pages
  all : ∀ k ∈ keysBelow S.node S.file.pageCount S.header.rootPage, stored k

variable {pages : List PageNum}

theorem Rooted.filled (rooted : Rooted S stored pages) : Filled S.node pages ⊥ ⊤ := by
  obtain ⟨level,low,sub⟩ := rooted.subtree
  exact rooted.row ▸ (sub.filled low).1

omit [LinearOrder K] in
theorem takesFindInternal (op : OperationType) {c} (root : S.header.rootPage ≠ bpInvalidPageNum)
    (run : Takes Sees (descend op getter S.file.pageCount S.header.rootPage) S (.ok c) S) :
    Takes Sees (findLeafInternal op getter) S (.ok c) S := by
  refine takesBind takesLatch (takesBind takesIsEmpty ?_)
  rw [if_neg (by simpa using root)]
  exact takesBind takesGetHeader (takesBind takesFetchPage (takesBind takesPageCount run))

theorem takesFindRooted (op : OperationType) (picks : PicksChild S stored x getter) (below : x < ⊤)
    (rooted : Rooted S stored pages) :
    ∃ before c after, pages = before ++ c :: after ∧ (∀ item ∈ entries S.node before, key item.1 < x) ∧
      (∀ item ∈ entries S.node after, x < key item.1) ∧ Takes Sees (findLeafInternal op getter) S (.ok c) S := by
  obtain ⟨level,low,sub⟩ := rooted.subtree
  obtain ⟨before,c,after,split,left,right,run⟩ := takesDescendSubtree op picks sub bot_le below low rooted.all
  exact ⟨before,c,after,rooted.row ▸ split,left,right,takesFindInternal op rooted.root run⟩

omit [LinearOrder K] in
theorem lookupLt (ops : KeyOps K) (key : K) {items} (some : items ≠ []) : (lookup ops key items).1 < items.length := by
  have most := LowerBound.lowerBoundLe (fun item : K × PageNum => ops.compare item.1 key) items.tail
  have positive := length_pos_iff.mpr some
  rw [length_tail] at most
  unfold InternalIndexNodeHandler.lookup
  simp only [if_neg positive.ne']
  split
  · dsimp only
    omega
  · rename_i found
    obtain ⟨within,-⟩ := List.getElem?_eq_some_iff.mp found
    split <;> dsimp only <;> omega

theorem takesFindAny (ops : KeyOps K) (key : K) (rooted : Rooted S stored pages) :
    ∃ before c after, pages = before ++ c :: after ∧ Takes Sees (findLeaf ops .read key) S (.ok c) S := by
  obtain ⟨level,low,sub⟩ := rooted.subtree
  obtain ⟨c,inside,run⟩ := takesDescendAny (fun items => valueAt items (lookup ops key items).1) .read
    (fun items some => ⟨_,getElem_mem (lookupLt ops key some),takesValueAt (List.getElem?_eq_getElem _)⟩) sub low
  rw [rooted.row] at inside
  obtain ⟨before,after,split⟩ := append_of_mem inside
  exact ⟨before,c,after,split,takesFindInternal .read rooted.root run⟩

end

/-! ### The entries of a row of leaves -/

section
variable {α : Type} (past : α → Bool)

/-- Where the next leaf is entered: at its first entry, or where the position of the last leaf
points to, and one further. -/
def entered (size position : Nat) : List Bool → List Bool × Nat
  | [] => ([],0)
  | true :: later => (later,0)
  | false :: later => (later,max position size + 1)

def retried : List Bool → Nat → List (List α) → List α
  | _,_,[] => []
  | attempts,position,leaf :: rest =>
      if (leaf.drop position).any past then (leaf.drop position).takeWhile (!past ·)
      else leaf.drop position ++
        retried (entered leaf.length position attempts).1 (entered leaf.length position attempts).2 rest

/-- The first attempt that fails is made at a leaf that has an entry of the range. -/
def Misses : List Bool → List (List α) → Prop
  | false :: _,leaf :: _ => ∃ first ∈ leaf.head?, past first = false
  | true :: later,_ :: rest => Misses later rest
  | _,_ => False

section
variable {past} {list : List α}

theorem takeWhileAll (none : list.any past = false) (more : List α) :
    (list ++ more).takeWhile (!past ·) = list ++ more.takeWhile (!past ·) := by
  refine takeWhile_append_of_pos fun a inside => ?_
  have := any_eq_false.mp none a inside
  simpa using this

theorem takeWhileSome (some : list.any past = true) (more : List α) :
    (list ++ more).takeWhile (!past ·) = list.takeWhile (!past ·) := by
  obtain ⟨a,inside,yes⟩ := any_eq_true.mp some
  induction list with
  | nil => cases inside
  | cons b list ih =>
    by_cases here : past b = true
    · rw [cons_append,takeWhile_cons_of_neg (by simp [here]),takeWhile_cons_of_neg (by simp [here])]
    · rw [cons_append,takeWhile_cons_of_pos (by simp [here]),takeWhile_cons_of_pos (by simp [here])]
      have later : list.any past = true := by simpa [here] using some
      rcases mem_cons.mp inside with rfl | tail
      · exact absurd yes here
      · rw [ih later tail]

end

theorem retriedSublist (attempts : List Bool) (position : Nat) (leaf : List α) (rest : List (List α)) :
    (retried past attempts position (leaf :: rest)).Sublist (leaf.drop position ++ rest.flatten) := by
  induction rest generalizing attempts position leaf with
  | nil =>
    simp only [retried,flatten_nil,append_nil]
    split
    · exact takeWhile_sublist _
    · exact List.Sublist.refl _
  | cons next rest ih =>
    rw [retried]
    split
    · exact (takeWhile_sublist _).trans (sublist_append_left _ _)
    · exact List.Sublist.append_left ((ih _ _ next).trans (List.Sublist.append_right (drop_sublist _ _) _)) _

variable {past}

theorem retriedInRange (attempts : List Bool) (position : Nat) (leaves : List (List α)) :
    ∀ a ∈ retried past attempts position leaves, past a = false := by
  induction leaves generalizing attempts position with
  | nil => simp [retried]
  | cons leaf rest ih =>
    intro a inside
    rw [retried] at inside
    split at inside
    · simpa using mem_takeWhile_imp inside
    · rename_i none
      rcases mem_append.mp inside with here | later
      · exact Bool.eq_false_iff.mpr fun yes => none (any_eq_true.mpr ⟨a,here,yes⟩)
      · exact ih _ _ a later

def Closed (past : α → Bool) (list : List α) : Prop := list.Pairwise fun a b => past a = true → past b = true

theorem Closed.takeWhile {list} (closed : Closed past list) : list.takeWhile (!past ·) = list.filter (!past ·) := by
  induction list with
  | nil => rfl
  | cons a rest ih =>
    obtain ⟨first,tail⟩ := pairwise_cons.mp closed
    by_cases out : past a = true
    · rw [takeWhile_cons_of_neg (by simp [out]),filter_cons_of_neg (by simp [out])]
      exact (filter_eq_nil_iff.mpr fun b inside => by simp [first b inside out]).symm
    · rw [takeWhile_cons_of_pos (by simp [out]),filter_cons_of_pos (by simp [out]),ih tail]

variable {attempts : List Bool} {position : Nat} {leaf : List α} {rest : List (List α)}

theorem retriedNone
    (all : ∀ a ∈ leaf ++ rest.flatten, past a = true) : retried past attempts position (leaf :: rest) = [] := by
  refine eq_nil_iff_forall_not_mem.mpr fun a inside => ?_
  have whole := (retriedSublist past attempts position leaf rest).trans (List.Sublist.append_right (drop_sublist _ _) _)
  have out := all a (whole.subset inside)
  rw [retriedInRange attempts position _ a inside] at out
  cases out

theorem retriedShort {first more}
    (closed : Closed past ((first :: more) ++ rest.flatten)) (behind : 0 < position) (inRange : past first = false) :
    (retried past attempts position ((first :: more) :: rest)).length <
      (((first :: more) ++ rest.flatten).takeWhile (!past ·)).length := by
  obtain ⟨position,rfl⟩ : ∃ n, position = n + 1 := ⟨position - 1,by omega⟩
  have fewer := (retriedSublist past attempts (position + 1) (first :: more) rest).filter (!past ·)
  have same : (retried past attempts (position + 1) ((first :: more) :: rest)).filter (!past ·) = retried past attempts
      (position + 1) ((first :: more) :: rest) := filter_eq_self.mpr fun a inside => by
    simp [retriedInRange attempts (position + 1) _ a inside]
  rw [same,drop_succ_cons] at fewer
  have most := fewer.trans ((List.Sublist.append_right (drop_sublist position more) rest.flatten).filter (!past ·))
  rw [closed.takeWhile,cons_append,filter_cons_of_pos (by simp [inRange]),length_cons]
  exact Nat.lt_succ_of_le most.length_le

theorem notMisses (all : ∀ a ∈ rest.flatten, past a = true) : ¬ Misses past attempts rest := by
  induction attempts generalizing rest with
  | nil => simp [Misses]
  | cons free later ih =>
    cases rest with
    | nil => simp [Misses]
    | cons leaf rest =>
      cases free with
      | true => exact ih fun a inside => all a (by simp only [flatten_cons]; exact mem_append_right _ inside)
      | false =>
        rintro ⟨first,head,inRange⟩
        rw [all first (by simp only [flatten_cons]; exact mem_append_left _ (mem_of_mem_head? head))] at inRange
        cases inRange

theorem retriedLast (attempts : List Bool) (position : Nat) (leaf : List α) :
    retried past attempts position [leaf] = (leaf.drop position).takeWhile (!past ·) := by
  simp only [retried,append_nil]
  split
  · rfl
  · rename_i none
    have all := takeWhileAll (Bool.eq_false_iff.mpr none) []
    rw [append_nil,takeWhile_nil,append_nil] at all
    exact all.symm

/-- The induction is over the leaves. A leaf in which the range ends is left by no attempt. -/
theorem retriedIff (attempts : List Bool) (position : Nat)
    (closed : Closed past (leaf.drop position ++ rest.flatten)) (filled : ∀ next ∈ rest, next ≠ []) :
    (Misses past attempts rest → (retried past attempts position (leaf :: rest)).length <
      ((leaf.drop position ++ rest.flatten).takeWhile (!past ·)).length) ∧
    (¬ Misses past attempts rest → retried past attempts position (leaf :: rest) =
      (leaf.drop position ++ rest.flatten).takeWhile (!past ·)) := by
  induction rest generalizing attempts position leaf with
  | nil =>
    have no : ¬ Misses past attempts ([] : List (List α)) := notMisses (by simp)
    refine ⟨fun yes => absurd yes no,fun _ => ?_⟩
    rw [flatten_nil,append_nil,retriedLast]
  | cons next rest ih =>
    by_cases ends : (leaf.drop position).any past = true
    · obtain ⟨a,inside,yes⟩ := any_eq_true.mp ends
      have no : ¬ Misses past attempts (next :: rest) :=
        notMisses fun b later => (pairwise_append.mp closed).2.2 a inside b later yes
      refine ⟨fun yes => absurd yes no,fun _ => ?_⟩
      rw [retried,if_pos ends,takeWhileSome ends]
    · have none := Bool.eq_false_iff.mpr ends
      have tail : Closed past (next ++ rest.flatten) := (pairwise_append.mp closed).2.1
      have filled' : ∀ l ∈ rest, l ≠ [] := fun l inside => filled l (mem_cons_of_mem _ inside)
      rw [retried,if_neg ends,takeWhileAll none,flatten_cons]
      simp only [length_append,Nat.add_lt_add_iff_left,append_cancel_left_eq]
      cases attempts with
      | nil => exact ih [] 0 tail filled'
      | cons free later =>
        cases free with
        | true => exact ih later 0 tail filled'
        | false =>
          obtain ⟨first,more,rfl⟩ := exists_cons_of_ne_nil (filled next mem_cons_self)
          refine ⟨fun ⟨_,head,inRange⟩ => ?_,fun missed => ?_⟩
          · cases head
            exact retriedShort tail (Nat.succ_pos _) inRange
          · have out : past first = true := by
              by_contra inRange
              exact missed ⟨first,rfl,Bool.eq_false_iff.mpr inRange⟩
            have all : ∀ a ∈ (first :: more) ++ rest.flatten, past a = true := by
              intro a inside
              rcases mem_cons.mp inside with rfl | after
              · exact out
              · exact (pairwise_cons.mp tail).1 a after out
            rw [cons_append,takeWhile_cons_of_neg (by simp [out])]
            exact retriedNone all

theorem retriedFree (position : Nat) (leaf : List α) (rest : List (List α)) :
    retried past [] position (leaf :: rest) = (leaf.drop position ++ rest.flatten).takeWhile (!past ·) := by
  induction rest generalizing position leaf with
  | nil => rw [flatten_nil,append_nil,retriedLast]
  | cons next rest ih =>
    rw [retried,flatten_cons]
    split
    · rename_i some
      rw [takeWhileSome some]
    · rename_i none
      rw [takeWhileAll (Bool.eq_false_iff.mpr none)]
      exact congrArg _ (ih 0 next)

theorem retriedHere {item} (found : leaf[position]? = some item) : retried past attempts position (leaf :: rest) =
      if past item then [] else item :: retried past attempts (position + 1) (leaf :: rest) := by
  obtain ⟨inside,rfl⟩ := List.getElem?_eq_some_iff.mp found
  have same : entered leaf.length position attempts = entered leaf.length (position + 1) attempts := by
    cases attempts with
    | nil => rfl
    | cons free later =>
      cases free with
      | true => rfl
      | false =>
        have : max position leaf.length = max (position + 1) leaf.length := by omega
        rw [entered,entered,this]
  rw [retried,retried,← same,drop_eq_getElem_cons inside,any_cons]
  by_cases out : past leaf[position] = true
  · rw [if_pos out,out,Bool.true_or,if_pos rfl,takeWhile_cons_of_neg (by simp [out])]
  · rw [if_neg out,Bool.eq_false_iff.mpr out,Bool.false_or,takeWhile_cons_of_pos (by simp [out])]
    split <;> rfl

theorem retriedLeaves (atEnd : leaf.length ≤ position) : retried past attempts position (leaf :: rest) =
      retried past (entered leaf.length position attempts).1 (entered leaf.length position attempts).2 rest := by
  rw [retried,drop_eq_nil_of_le atEnd]
  rfl

end

/-! ### The cursor while latches are held by others -/

section
variable {K : Type} {S : Store K} {f : List (Option RC)} {c : Scanner K}

structure SeesBusy (s : Handler K) (V : Store K × List (Option RC)) : Prop where
  faults : s.mtr.faults = V.2
  header : s.disk.header = V.1.header
  node : s.disk.node = V.1.node
  file : s.disk.file = V.1.file
  disposed : s.mtr.disposed = V.1.disposed

def SeesCursor (s : Scan K) (V : (Store K × List (Option RC)) × Scanner K) : Prop := SeesBusy s.handler V.1 ∧ s.scanner = V.2

variable {A : Store K × List (Option RC)} {page parent : PageNum} {index fuel : Nat} {item : K × RID} {right : Option K}
  {node : PageNum → IndexNode K} {list : List (K × RID)}

theorem busyOnTree {α : Type} {m : TreeM K α} {r} (run : Takes SeesBusy m A r B) :
    Takes SeesCursor (onTree m) (A,c) r (B,c) :=
  fun s h => ⟨(run s.handler h.1).1,(run s.handler h.1).2,h.2⟩

theorem busyGetScanner : Takes SeesCursor getScanner (A,c) (.ok c) (A,c) :=
  takesRead fun _ h => h.2

theorem busySetScanner (g : Scanner K → Scanner K) : Takes SeesCursor (setScanner g) (A,c) (.ok ()) (A,g c) :=
  takesUpdate fun _ h => ⟨h.1,congrArg g h.2⟩

theorem busyPageCount : Takes SeesCursor (read fun s : Scan K => s.handler.disk.file.pageCount : ScanM K Nat) (A,c)
    (.ok A.1.file.pageCount) (A,c) := takesRead fun _ h => by rw [h.1.file]

theorem busyLatch (item : MemoItem) : Takes SeesBusy (latch item : TreeM K Unit) (S,f) (.ok ()) (S,f) :=
  takesBind (takesUpdate fun _ h => ⟨h.faults,h.header,h.node,h.file,h.disposed⟩)
    (takesUpdate fun _ h => ⟨h.faults,h.header,h.node,h.file,h.disposed⟩)

theorem busyReleaseTo (point : Nat) : Takes SeesBusy (releaseTo point : TreeM K Unit) (S,f) (.ok ()) (S,f) :=
  takesUpdate fun _ h => ⟨h.faults,h.header,h.node,h.file,h.disposed⟩

theorem busyLeafView {next items} (leaf : S.node page = .leaf parent next items) :
    Takes SeesBusy (LeafIndexNodeHandler.view page : TreeM K _) (S,f) (.ok (parent,next,items)) (S,f) := by
  refine takesBind (takesRead (a := S.node page) fun _ h => by rw [h.node]) ?_
  rw [leaf]
  exact takesPure

theorem busyFault (attempts : List Bool) :
    Takes SeesBusy (fault : TreeM K Unit) (S,latchFaults attempts) (.ok ()) (S,(latchFaults attempts).tail) := by
  intro s h
  cases attempts with
  | nil =>
    simp only [fault,show s.mtr.faults = [] from h.faults]
    exact ⟨trivial,h⟩
  | cons free later =>
    simp only [fault,show s.mtr.faults = none :: _ from h.faults]
    exact ⟨trivial,rfl,h.header,h.node,h.file,h.disposed⟩

theorem busyTrySlatch (page : PageNum) (attempts : List Bool) : Takes SeesBusy (trySlatch page : TreeM K Bool)
    (S,(latchFaults attempts).tail) (.ok (attempts.headD true)) (S,latchFaults attempts.tail) := by
  have latched : ∀ {f : List (Option RC)}, Takes SeesBusy (do latch (.shared page); pure true : TreeM K Bool) (S,f) (.ok true) (S,f) :=
    takesBind (busyLatch _) takesPure
  intro s h
  cases attempts with
  | nil =>
    simp only [trySlatch,show s.mtr.faults = [] from h.faults]
    exact latched s h
  | cons free later =>
    cases free with
    | true =>
      simp only [trySlatch,show s.mtr.faults = none :: latchFaults later from h.faults]
      exact latched _ ⟨rfl,h.header,h.node,h.file,h.disposed⟩
    | false =>
      simp only [trySlatch,show s.mtr.faults = some .lockedNeedWait :: latchFaults later from h.faults]
      exact ⟨rfl,rfl,h.header,h.node,h.file,h.disposed⟩

structure Cursor (S : Store K) (c : Scanner K) (position : Nat) (leaf : List (K × RID)) (rest : List PageNum) : Prop where
  emitted : c.firstEmitted = true
  index : c.iterIndex + 1 = position
  page : ∃ page parent, c.currentFrame = some page ∧ S.node page = .leaf parent (rest.headD bpInvalidPageNum) leaf
  chain : LeafChain bpInvalidPageNum S.node rest
  filled : ∀ p ∈ rest, p ≠ bpInvalidPageNum ∧ ∃ parent next items, S.node p = .leaf parent next items ∧ items ≠ []

variable {position : Nat} {leaf : List (K × RID)} {rest : List PageNum} {q : PageNum}

theorem Cursor.next (cursor : Cursor S c position leaf (q :: rest)) : q ≠ bpInvalidPageNum ∧
    ∃ parent first more, S.node q = .leaf parent (rest.headD bpInvalidPageNum) (first :: more) := by
  obtain ⟨valid,parent,next,items,node,some⟩ := cursor.filled q mem_cons_self
  obtain ⟨first,more,rfl⟩ := exists_cons_of_ne_nil some
  have linked := cursor.chain.1
  rw [node] at linked
  cases linked
  exact ⟨valid,parent,first,more,node⟩

theorem Cursor.enter (cursor : Cursor S c position leaf (q :: rest)) {index : Int} {position' : Nat} (at' : index + 1 = position') :
    Cursor S { c with currentFrame := some q, iterIndex := index } position' (S.node q).leafItems rest := by
  obtain ⟨-,parent,first,more,node⟩ := cursor.next
  exact ⟨cursor.emitted,at',⟨q,parent,rfl,by rw [node]; rfl⟩,cursor.chain.2,
    fun p inside => cursor.filled p (mem_cons_of_mem _ inside)⟩

theorem busyCurrentItem {next : PageNum} (frame : c.currentFrame = some page)
    (at' : c.iterIndex = index) (node : S.node page = .leaf parent next leaf) (found : leaf[index]? = some item) :
    Takes SeesCursor currentItem ((S,f),c) (.ok item) ((S,f),c) := by
  refine takesBind busyGetScanner ?_
  rw [frame]
  refine takesBind (busyOnTree (busyLeafView node)) ?_
  dsimp only
  rw [if_neg (by omega),at',Int.toNat_natCast,found]
  exact takesPure

/-- The scanner stands on the first of the given entries; the other ones follow it on its page
and in the leaves after it. -/
def Standing (S : Store K) (c : Scanner K) (list : List (K × RID)) : Prop :=
  ∃ page index rest parent items, c.currentFrame = some page ∧ c.iterIndex = (index : Nat) ∧ index < items.length ∧
    S.node page = .leaf parent (rest.headD bpInvalidPageNum) items ∧ LeafChain bpInvalidPageNum S.node rest ∧
    (∀ p ∈ rest, p ≠ bpInvalidPageNum ∧ ∃ parent next items, S.node p = .leaf parent next items ∧ items ≠ []) ∧
    list = items.drop index ++ entries S.node rest

variable {ops : KeyOps K} {stored : K → Prop} {past : K → Bool}

def passed (ops : KeyOps K) (right : Option K) (k : K) : Bool := match right with
  | none => false
  | some r => 0 < ops.compare k r

variable (ops) in
theorem busyTouchEnd {next} (frame : c.currentFrame = some page)
    (at' : c.iterIndex = index) (node : S.node page = .leaf parent next leaf) (found : leaf[index]? = some item) :
    Takes SeesCursor (touchEnd ops) ((S,f),c) (.ok (passed ops c.rightKey item.1)) ((S,f),c) := by
  refine takesBind busyGetScanner ?_
  cases right : c.rightKey with
  | none => exact takesPure
  | some key => exact takesBind (busyCurrentItem frame at' node found) takesPure

theorem Cursor.advance (cursor : Cursor S c position leaf rest) (found : leaf[position]? = some item)
    (here : passed ops c.rightKey item.1 = past item.1) (fuel : Nat) :
    Takes SeesCursor (nextEntryFrom ops (fuel + 1)) ((S,f),c) (if past item.1 then .error (.rc .recordEof) else .ok item.2)
      ((S,f),{ c with iterIndex := position }) ∧ Cursor S { c with iterIndex := position } (position + 1) leaf rest := by
  obtain ⟨inited,firstEmitted,currentFrame,iterIndex,rightKey⟩ := c
  obtain ⟨emitted,index,⟨page,parent,frame,node⟩,chain,filled⟩ := cursor
  subst emitted frame
  refine ⟨?_,rfl,by simp,⟨page,parent,rfl,node⟩,chain,filled⟩
  refine takesBind busyGetScanner (takesBind (busySetScanner _) (takesBind (busyOnTree (busyLeafView node)) ?_))
  dsimp only
  obtain ⟨inside,-⟩ := List.getElem?_eq_some_iff.mp found
  rw [index,if_pos (by omega)]
  refine takesBind (busyTouchEnd ops (c := ⟨inited,true,some page,position,rightKey⟩) rfl rfl node found) ?_
  rw [show passed ops rightKey item.1 = past item.1 from here]
  by_cases out : past item.1 = true
  · rw [if_pos out,if_pos out]
    exact takesExit
  · rw [if_neg out,if_neg out]
    exact takesBind (busyCurrentItem (c := ⟨inited,true,some page,position,rightKey⟩) rfl rfl node found) takesPure

variable (ops) in
theorem Cursor.leave (cursor : Cursor S c position leaf rest) (atEnd : leaf.length ≤ position) {r : Except Exit RID}
    {V : (Store K × List (Option RC)) × Scanner K} (run : Takes SeesCursor
      (if rest.headD bpInvalidPageNum = bpInvalidPageNum then exit (.rc .recordEof) else do
        let point ← onTree memoPoint
        onTree (getPage (rest.headD bpInvalidPageNum))
        setScanner fun c => { c with currentFrame := some (rest.headD bpInvalidPageNum) }
        if ← onTree (trySlatch (rest.headD bpInvalidPageNum)) then
          onTree (releaseTo point)
          setScanner fun c => { c with iterIndex := -1 }
          nextEntryFrom ops fuel
        else exit (.rc .lockedNeedWait)) ((S,f),{ c with iterIndex := position }) r V) :
    Takes SeesCursor (nextEntryFrom ops (fuel + 1)) ((S,f),c) r V := by
  obtain ⟨emitted,index,⟨page,parent,frame,node⟩,chain,filled⟩ := cursor
  refine takesBind busyGetScanner ?_
  simp only [frame,emitted]
  refine takesBind (busySetScanner _) (takesBind (busyOnTree (busyLeafView node)) ?_)
  dsimp only
  rw [index,if_neg (by omega)]
  exact run

inductive Turn (ops : KeyOps K) (past : K → Bool) (S : Store K) (attempts : List Bool) (c : Scanner K) (position : Nat)
    (leaf : List (K × RID)) : List PageNum → Prop
  | here {rest : List PageNum} {item : K × RID} {c' : Scanner K} (found : leaf[position]? = some item)
      (cursor : Cursor S c' (position + 1) leaf rest) (right : c'.rightKey = c.rightKey)
      (run : Takes SeesCursor (nextEntry ops) ((S,latchFaults attempts),c)
        (if past item.1 then .error (.rc .recordEof) else .ok item.2) ((S,latchFaults attempts),c'))
      : Turn ops past S attempts c position leaf rest
  | last {c' : Scanner K} (atEnd : leaf.length ≤ position)
      (run : Takes SeesCursor (nextEntry ops) ((S,latchFaults attempts),c) (.error (.rc .recordEof)) ((S,latchFaults attempts),c'))
      : Turn ops past S attempts c position leaf []
  | locked {q : PageNum} {rest : List PageNum} {c' : Scanner K} (atEnd : leaf.length ≤ position) (busy : attempts.headD true = false)
      (cursor : Cursor S c' (position + 1) (S.node q).leafItems rest) (right : c'.rightKey = c.rightKey)
      (run : Takes SeesCursor (nextEntry ops) ((S,latchFaults attempts),c) (.error (.rc .lockedNeedWait))
        ((S,latchFaults attempts.tail),c')) : Turn ops past S attempts c position leaf (q :: rest)
  | entered {q : PageNum} {rest : List PageNum} {item : K × RID} {c' : Scanner K} (atEnd : leaf.length ≤ position)
      (free : attempts.headD true = true) (found : (S.node q).leafItems[0]? = some item)
      (cursor : Cursor S c' 1 (S.node q).leafItems rest) (right : c'.rightKey = c.rightKey)
      (run : Takes SeesCursor (nextEntry ops) ((S,latchFaults attempts),c)
        (if past item.1 then .error (.rc .recordEof) else .ok item.2) ((S,latchFaults attempts.tail),c'))
      : Turn ops past S attempts c position leaf (q :: rest)

theorem Cursor.turn (cursor : Cursor S c position leaf rest) (attempts : List Bool)
    (all : ∀ item ∈ leaf.drop position ++ entries S.node rest, passed ops c.rightKey item.1 = past item.1)
    (counted : 0 < S.file.pageCount) : Turn ops past S attempts c position leaf rest := by
  obtain ⟨fuel,pages⟩ : ∃ fuel, S.file.pageCount = fuel + 1 := ⟨S.file.pageCount - 1,by omega⟩
  have count : Takes SeesCursor (read fun s : Scan K => s.handler.disk.file.pageCount : ScanM K Nat) ((S,latchFaults attempts),c)
      (.ok (fuel + 1)) ((S,latchFaults attempts),c) := pages ▸ busyPageCount
  rcases Nat.lt_or_ge position leaf.length with inside | atEnd
  · have found : leaf[position]? = some leaf[position] := List.getElem?_eq_getElem inside
    have here := all leaf[position] (mem_append_left _ (by
      rw [drop_eq_getElem_cons inside]
      exact mem_cons_self))
    obtain ⟨run,cursor'⟩ := cursor.advance (f := latchFaults attempts) found here (fuel + 1)
    exact .here found cursor' rfl (takesBind count run)
  · cases rest with
    | nil =>
      have run : Takes SeesCursor (nextEntry ops) ((S,latchFaults attempts),c) (.error (.rc .recordEof))
          ((S,latchFaults attempts),{ c with iterIndex := position }) := by
        refine takesBind count (cursor.leave ops atEnd ?_)
        rw [headD_nil,if_pos rfl]
        exact takesExit
      exact .last atEnd run
    | cons q rest =>
      obtain ⟨valid,parent,first,more,node⟩ := cursor.next
      -- the page is fetched and becomes the current one before its latch is tried
      have tried : ∀ {r : Except Exit RID} {V : (Store K × List (Option RC)) × Scanner K}, (∀ point : Nat, Takes SeesCursor
          (if attempts.headD true then do
            onTree (releaseTo point)
            setScanner fun c => { c with iterIndex := -1 }
            nextEntryFrom ops (fuel + 1)
          else exit (.rc .lockedNeedWait)) ((S,latchFaults attempts.tail),{ c with currentFrame := some q, iterIndex := position }) r V) →
          Takes SeesCursor (nextEntry ops) ((S,latchFaults attempts),c) r V := by
        intro r V run
        refine takesBind count (cursor.leave ops atEnd ?_)
        rw [headD_cons,if_neg valid]
        exact takesBindAny (fun s h => ⟨_,rfl,h⟩) fun point => takesBind (busyOnTree (takesBind (busyFault attempts) (busyLatch _)))
          (takesBind (busySetScanner _) (takesBind (busyOnTree (busyTrySlatch q attempts)) (run point)))
      cases free : attempts.headD true with
      | false =>
        have behind : Cursor S { c with currentFrame := some q, iterIndex := (position : Int) } (position + 1) (S.node q).leafItems rest :=
          cursor.enter (by simp)
        refine .locked atEnd free behind rfl (tried fun point => ?_)
        rw [free]
        exact takesExit
      | true =>
        have items : (S.node q).leafItems = first :: more := by rw [node]; rfl
        have found : (S.node q).leafItems[0]? = some first := by rw [items]; rfl
        have start : Cursor S { c with currentFrame := some q, iterIndex := -1 } 0 (S.node q).leafItems rest := cursor.enter (by simp)
        have here := all first (by simp [entries,items])
        obtain ⟨run,cursor'⟩ := start.advance (f := latchFaults attempts.tail) found here fuel
        refine .entered atEnd free found cursor' rfl (tried fun point => ?_)
        rw [free]
        exact takesBind (busyOnTree (busyReleaseTo _)) (takesBind (busySetScanner _) run)

/-! ### Scans -/

structure Collecting (ops : KeyOps K) (scan : Nat → ScanM K (List RID)) : Prop where
  ended {s t : Scan K} (fuel : Nat) (eof : nextEntry ops s = (.error (.rc .recordEof),t)) : scan (fuel + 1) s = (.ok [],t)
  more {s t : Scan K} {rid : RID} (fuel : Nat) (found : nextEntry ops s = (.ok rid,t)) : scan (fuel + 1) s = (do
    let rest ← scan fuel
    pure (rid :: rest) : ScanM K (List RID)) t

def Retries (ops : KeyOps K) (scan : Nat → ScanM K (List RID)) : Prop :=
  ∀ (s t : Scan K) (fuel : Nat), nextEntry ops s = (.error (.rc .lockedNeedWait),t) → scan (fuel + 1) s = scan fuel t

theorem collectCollecting : Collecting ops (collect ops) where
  ended fuel eof := by
    simp only [BplusTree.collect]
    rw [eof]
  more fuel found := by
    simp only [BplusTree.collect]
    rw [found]

variable {scan : Nat → ScanM K (List RID)}

section
variable {V W : (Store K × List (Option RC)) × Scanner K} {rids : List RID} (collecting : Collecting ops scan)
include collecting

theorem Collecting.stop (run : Takes SeesCursor (nextEntry ops) V (.error (.rc .recordEof)) W) :
    ∀ s, SeesCursor s V → (scan (fuel + 1) s).1 = .ok [] := by
  intro s seen
  rw [collecting.ended fuel (Prod.ext (run s seen).1 rfl)]

theorem Collecting.go {rid} (run : Takes SeesCursor (nextEntry ops) V (.ok rid) W)
    (rest : ∀ s, SeesCursor s W → (scan fuel s).1 = .ok rids) : ∀ s, SeesCursor s V → (scan (fuel + 1) s).1 = .ok (rid :: rids) := by
  intro s seen
  have more : scan fuel (nextEntry ops s).2 = (.ok rids,(scan fuel (nextEntry ops s).2).2) := Prod.ext (rest _ (run s seen).2) rfl
  rw [collecting.more fuel (Prod.ext (run s seen).1 rfl),bindOk more]
  rfl

end

theorem Collecting.step (collecting : Collecting ops scan) {V W row row'}
    (run : Takes SeesCursor (nextEntry ops) V (if past item.1 then .error (.rc .recordEof) else .ok item.2) W)
    (here : row = if past item.1 then [] else item :: row')
    (later : ∀ s, SeesCursor s W → (scan fuel s).1 = .ok (row'.map Prod.snd)) :
    ∀ s, SeesCursor s V → (scan (fuel + 1) s).1 = .ok (row.map Prod.snd) := by
  by_cases out : past item.1 = true
  · rw [if_pos out] at run here
    rw [here]
    exact collecting.stop run
  · rw [if_neg out] at run here
    rw [here]
    exact collecting.go run later

theorem Cursor.collect (collecting : Collecting ops scan) (ends : ∀ k, stored k → passed ops right k = past k)
    (counted : 0 < S.file.pageCount) : ∀ {attempts : List Bool} {c : Scanner K} {position : Nat} {leaf : List (K × RID)}
    {rest : List PageNum}, attempts = [] ∨ Retries ops scan → Cursor S c position leaf rest → c.rightKey = right →
    (∀ item ∈ leaf.drop position ++ entries S.node rest, stored item.1) →
    (leaf.drop position ++ entries S.node rest).length + min attempts.length rest.length < fuel →
    ∀ s, SeesCursor s ((S,latchFaults attempts),c) → (scan fuel s).1 =
      .ok ((retried (fun item => past item.1) attempts position
        (leaf :: rest.map fun q => (S.node q).leafItems)).map Prod.snd) := by
  induction fuel with
  | zero =>
    intro _ _ _ _ _ _ _ _ _ enough
    omega
  | succ fuel ih =>
    intro attempts c position leaf rest again cursor bound all enough
    have again' : attempts.tail = [] ∨ Retries ops scan := again.imp (fun none => by rw [none]; rfl) id
    subst bound
    cases cursor.turn attempts (fun item inside => ends item.1 (all item inside)) counted with
    | @here _ item c' found cursor' same run =>
      obtain ⟨inside,value⟩ := List.getElem?_eq_some_iff.mp found
      rw [drop_eq_getElem_cons inside,cons_append] at all enough
      refine collecting.step run (retriedHere found) (ih again cursor' same (fun item later => all item (mem_cons_of_mem _ later)) ?_)
      simp only [length_cons] at enough
      omega
    | last atEnd run =>
      rw [retriedLeaves atEnd]
      exact collecting.stop run
    | @locked q rest c' atEnd busy cursor' same run =>
      have failed : entered leaf.length position attempts = (attempts.tail,position + 1) := by
        cases attempts with
        | nil => cases busy
        | cons free later =>
          subst busy
          rw [entered,max_eq_left atEnd]
          rfl
      have retries := again.resolve_left fun none => by
        rw [none] at busy
        cases busy
      have tried : 0 < attempts.length := length_pos_iff.mpr fun none => by
        rw [none] at busy
        cases busy
      rw [retriedLeaves atEnd,failed]
      intro s seen
      rw [retries s _ fuel (Prod.ext (run s seen).1 rfl)]
      refine ih again' cursor' same (fun item later => all item (mem_append_right _ ?_)) ?_ _ (run s seen).2
      · rw [entries,flatMap_cons]
        exact (List.Sublist.append_right (drop_sublist _ _) _).subset later
      · simp only [entries,flatMap_cons,length_append,length_cons,length_drop,length_tail] at enough ⊢
        omega
    | @entered q rest item c' atEnd free found cursor' same run =>
      have passed : BplusTree.entered leaf.length position attempts = (attempts.tail,0) := by
        cases attempts with
        | nil => rfl
        | cons first later =>
          subst free
          rfl
      rw [retriedLeaves atEnd,passed,map_cons]
      obtain ⟨inside,value⟩ := List.getElem?_eq_some_iff.mp found
      refine collecting.step run (retriedHere found) (ih again' cursor' same (fun item later => all item (mem_append_right _ ?_)) ?_)
      · rw [entries,flatMap_cons]
        exact (List.Sublist.append_right (drop_sublist _ _) _).subset later
      · simp only [entries,flatMap_cons,length_append,length_cons,length_drop,length_tail] at enough ⊢
        omega

def Follow (node : PageNum → IndexNode K) (page : PageNum) (rest : List PageNum) : Prop :=
  LeafChain bpInvalidPageNum node rest ∧ bpInvalidPageNum ∉ rest ∧
    ∃ parent items, node page = .leaf parent (rest.headD bpInvalidPageNum) items

theorem chainUnique {rest'} (chain : LeafChain bpInvalidPageNum node rest)
    (chain' : LeafChain bpInvalidPageNum node rest') (valid : bpInvalidPageNum ∉ rest) (valid' : bpInvalidPageNum ∉ rest')
    (same : rest.headD bpInvalidPageNum = rest'.headD bpInvalidPageNum) : rest = rest' := by
  induction rest generalizing rest' with
  | nil =>
    cases rest' with
    | nil => rfl
    | cons q rest' =>
      have invalid : q = bpInvalidPageNum := same.symm
      exact absurd (invalid ▸ mem_cons_self) valid'
  | cons p rest ih =>
    cases rest' with
    | nil =>
      have invalid : p = bpInvalidPageNum := same
      exact absurd (invalid ▸ mem_cons_self) valid
    | cons q rest' =>
      have first : p = q := same
      subst first
      have next := chain.1.symm.trans chain'.1
      rw [ih chain.2 chain'.2 (fun h => valid (mem_cons_of_mem _ h)) (fun h => valid' (mem_cons_of_mem _ h))
        (Option.some.inj next)]

theorem Follow.unique {rest'} (one : Follow node page rest)
    (two : Follow node page rest') : rest = rest' := by
  obtain ⟨chain,valid,parent,items,leaf⟩ := one
  obtain ⟨chain',valid',parent',items',leaf'⟩ := two
  rw [leaf,Node.leaf.injEq] at leaf'
  exact chainUnique chain chain' valid valid' leaf'.2.1

variable (ops) in
theorem busyFirstEntry {x} (standing : Standing S c (x :: list)) (fresh : c.firstEmitted = false) :
    ∃ page index items rest, c.currentFrame = some page ∧ Follow S.node page rest ∧ list = items.drop (index + 1) ++ entries S.node rest ∧
      Cursor S { c with firstEmitted := true } (index + 1) items rest ∧
      Takes SeesCursor (nextEntry ops) ((S,f),c) (.ok x.2) ((S,f),{ c with firstEmitted := true }) := by
  obtain ⟨page,index,rest,parent,items,frame,position,inside,leaf,chain,filled,same⟩ := standing
  rw [drop_eq_getElem_cons inside,cons_append,List.cons.injEq] at same
  have found : items[index]? = some x := by rw [List.getElem?_eq_getElem inside,same.1]
  refine ⟨page,index,items,rest,frame,⟨chain,fun invalid => (filled _ invalid).1 rfl,parent,items,leaf⟩,same.2,
    ⟨rfl,by simp [position],⟨page,parent,frame,leaf⟩,chain,filled⟩,takesBind busyPageCount (takesBind busyGetScanner ?_)⟩
  simp only [frame,fresh]
  refine takesBind (takesBind (busyCurrentItem frame position leaf found) takesPure) ?_
  rw [← frame]
  exact takesBind (busySetScanner _) takesPure

/-! ### Opening -/

def SeesScan (s : Scan K) (V : Store K × Scanner K) : Prop := Sees s.handler V.1 ∧ s.scanner = V.2

section
variable {α : Type} {T : Store K} {before pages : List PageNum} {items : List (K × RID)} {attempts : List Bool} {x : K × RID}

theorem takesOnTree {m : TreeM K α} {r : Except Exit α} (run : Takes Sees m S r T) :
    Takes SeesScan (onTree m) (S,c) r (T,c) :=
  fun s h => ⟨(run s.handler h.1).1,(run s.handler h.1).2,h.2⟩

theorem takesGetScanner : Takes SeesScan getScanner (S,c) (.ok c) (S,c) :=
  takesRead fun _ h => h.2

theorem takesSetScanner {f : Scanner K → Scanner K} : Takes SeesScan (setScanner f) (S,c) (.ok ()) (S,f c) :=
  takesUpdate fun _ h => ⟨h.1,congrArg f h.2⟩

theorem takesFree {α : Type} {m : ScanM K α} {r}
    (run : Takes SeesCursor m ((S,[]),c) r ((T,[]),d)) : Takes SeesScan m (S,c) r (T,d) := by
  intro s seen
  obtain ⟨value,busy,same⟩ := run s ⟨⟨seen.1.faults,seen.1.header,seen.1.node,seen.1.file,seen.1.disposed⟩,seen.2⟩
  exact ⟨value,⟨busy.faults,busy.header,busy.node,busy.file,busy.disposed⟩,same⟩

theorem leafChainSuffix {nil : PageNum} {heap : PageNum → IndexNode K}
    (chain : LeafChain nil heap (before ++ rest)) : LeafChain nil heap rest := by
  induction before with
  | nil => exact chain
  | cons p before ih => exact ih chain.2

theorem takesOrEmpty {m : TreeM K α} {a : α} (run : Takes Sees m S (.ok a) T) :
    Takes Sees (orEmpty m) S (.ok (some a)) T := by
  intro s h
  obtain ⟨value,seen⟩ := run s h
  have same : m s = (.ok a,(m s).2) := Prod.ext value rfl
  simp only [orEmpty]
  rw [same]
  exact ⟨rfl,seen⟩

theorem takesOrEmptyNone {m : TreeM K α} (run : Takes Sees m S (.error (.rc .empty)) T) :
    Takes Sees (orEmpty m) S (.ok none) T := by
  intro s h
  obtain ⟨value,seen⟩ := run s h
  have same : m s = (.error (.rc .empty),(m s).2) := Prod.ext value rfl
  simp only [orEmpty]
  rw [same]
  exact ⟨rfl,seen⟩

/-- Where the search for the left key leaves the scanner: on the first of the entries, or nowhere as
there is none. -/
def Sought (S : Store K) (c : Scanner K) (found : Bool) (list : List (K × RID)) : Prop :=
  list = [] ∧ found = false ∧ c.currentFrame = none ∨ found = true ∧ Standing S c list

/-- Where `open` leaves the scanner when `list` are the entries from the first one that is sought on: closed, as
none of them is in the range, or on the first one. -/
inductive Opened (S : Store K) (past : K → Bool) (right : Option K) (c : Scanner K) (list : List (K × RID)) : Prop
  | closed (frame : c.currentFrame = none) (none : (list.takeWhile fun item => !past item.1) = [])
  | standing {x : K × RID} {more : List (K × RID)} (same : list = x :: more) (counted : 0 < S.file.pageCount)
      (fresh : c.firstEmitted = false) (bound : c.rightKey = right) (stands : Standing S c (x :: more))
      (inRange : past x.1 = false)

theorem takesOpenFrom {start right found c₁} (counted : 0 < S.file.pageCount)
    (run : Takes SeesScan (seek ops start) (S,c) (.ok found) (S,c₁)) (fresh : c₁.firstEmitted = false) (sought : Sought S c₁ found list)
    (ends : ∀ item ∈ list, passed ops right item.1 = past item.1) :
    ∃ c', Takes SeesScan (openKeys ops start right) (S,c) (.ok ()) (S,c') ∧ Opened S past right c' list := by
  rcases sought with ⟨rfl,rfl,closed⟩ | ⟨rfl,standing⟩
  · exact ⟨c₁,takesBind run takesPure,.closed closed rfl⟩
  · cases list with
    | nil =>
      obtain ⟨_,index,_,_,items,-,-,inside,-,-,-,same⟩ := standing
      rw [drop_eq_getElem_cons inside] at same
      cases same
    | cons x more =>
      have opened : Takes SeesScan (touchEnd ops) (S,{ c₁ with rightKey := right }) (.ok (past x.1))
          (S,{ c₁ with rightKey := right }) := by
        obtain ⟨page,index,rest,parent,items,frame,position,inside,leaf,-,-,same⟩ := standing
        rw [drop_eq_getElem_cons inside,cons_append,List.cons.injEq] at same
        have atIndex : items[index]? = some x := by rw [List.getElem?_eq_getElem inside,same.1]
        rw [← ends x mem_cons_self]
        exact takesFree (busyTouchEnd _ (c := { c₁ with rightKey := right }) frame position leaf atIndex)
      by_cases out : past x.1 = true
      · rw [out] at opened
        have closes : Takes SeesScan (setScanner fun c : Scanner K => { c with currentFrame := none })
            (S,{ c₁ with rightKey := right }) (.ok ()) (S,{ c₁ with rightKey := right, currentFrame := none }) :=
          takesSetScanner
        exact ⟨{ c₁ with rightKey := right, currentFrame := none },takesBind run (takesBind takesSetScanner
          (takesBind opened closes)),.closed rfl (takeWhile_cons_of_neg (by simp [out]))⟩
      · rw [Bool.not_eq_true] at out
        rw [out] at opened
        exact ⟨{ c₁ with rightKey := right },takesBind run (takesBind takesSetScanner
          (takesBind opened takesPure)),.standing rfl counted fresh rfl standing out⟩

theorem Opened.collected {right} (opened : Opened S past right c list) (collecting : Collecting ops scan)
    (again : attempts = [] ∨ Retries ops scan) (ends : ∀ k, stored k → passed ops right k = past k)
    (all : ∀ item ∈ list, stored item.1) (enough : list.length + min attempts.length list.length < fuel) {s}
    (seen : SeesCursor s ((S,latchFaults attempts),c)) :
    (c.currentFrame = none ∧ (list.takeWhile fun item => !past item.1) = [] ∧ (scan fuel s).1 = .ok []) ∨
    ∃ page x leaf position rest, c.currentFrame = some page ∧ Follow S.node page rest ∧
      (∀ items ∈ rest.map fun q => (S.node q).leafItems, items ≠ []) ∧
      list = x :: (leaf.drop position ++ (rest.map fun q => (S.node q).leafItems).flatten) ∧ past x.1 = false ∧
      (scan fuel s).1 = .ok ((x :: retried (fun item => past item.1) attempts position
        (leaf :: rest.map fun q => (S.node q).leafItems)).map Prod.snd) := by
  obtain ⟨fuel,rfl⟩ : ∃ n, fuel = n + 1 := ⟨fuel - 1,by omega⟩
  cases opened with
  | closed frame none =>
    have run : Takes SeesCursor (nextEntry ops) ((S,latchFaults attempts),c) (.error (.rc .recordEof)) ((S,latchFaults attempts),c) := by
      refine takesBind busyPageCount (takesBind busyGetScanner ?_)
      simp only [frame]
      exact takesExit
    exact .inl ⟨frame,none,collecting.stop run s seen⟩
  | @standing x more same counted fresh bound stands inRange =>
    subst same
    obtain ⟨page,index,items,rest,frame,follow,after,cursor,first⟩ := busyFirstEntry ops (f := latchFaults attempts) stands fresh
    have flat : (rest.map fun q => (S.node q).leafItems).flatten = entries S.node rest := by rw [entries,flatMap_def]
    have filled : ∀ items ∈ rest.map fun q => (S.node q).leafItems, items ≠ [] := by
      intro items inside
      obtain ⟨q,listed,rfl⟩ := mem_map.mp inside
      obtain ⟨-,parent,after,items,node,some⟩ := cursor.filled q listed
      rw [node]
      exact some
    have pages : rest.length ≤ (entries S.node rest).length := by
      have := length_le_sum_of_one_le (rest.map fun q => (S.node q).leafItems.length) fun n inside => by
        obtain ⟨q,listed,rfl⟩ := mem_map.mp inside
        exact length_pos_iff.mpr (filled _ (mem_map_of_mem listed))
      simpa [entries,length_flatMap] using this
    have calls : (items.drop (index + 1) ++ entries S.node rest).length + min attempts.length rest.length < fuel := by
      have total := congrArg List.length after
      simp only [length_append,length_cons] at total enough ⊢
      omega
    have ran := collecting.go first (cursor.collect collecting ends counted again bound
      (after ▸ fun item inside => all item (mem_cons_of_mem _ inside)) calls) s seen
    exact .inr ⟨page,x,items,index + 1,rest,frame,follow,filled,by rw [after,flat],inRange,ran⟩

theorem Opened.collect {right} (opened : Opened S past right c list) (ends : ∀ k, stored k → passed ops right k = past k)
    (all : ∀ item ∈ list, stored item.1) (enough : list.length < fuel) {s} (seen : SeesScan s (S,c)) :
    (BplusTree.collect ops fuel s).1 = .ok ((list.takeWhile fun item => !past item.1).map Prod.snd) := by
  have busy : SeesCursor s ((S,latchFaults []),c) :=
    ⟨⟨seen.1.faults,seen.1.header,seen.1.node,seen.1.file,seen.1.disposed⟩,seen.2⟩
  rcases opened.collected collectCollecting (.inl rfl) ends all (by simpa using enough) busy with
    ⟨-,none,ran⟩ | ⟨page,x,leaf,position,rest,-,-,-,rfl,inRange,ran⟩
  · rw [none,ran]
    rfl
  · rw [ran,takeWhile_cons_of_pos (by simp [inRange]),retriedFree]

variable (ops) in
theorem takesOpenEmpty (start right : Option K) (empty : S.header.rootPage = bpInvalidPageNum) :
    Takes SeesScan (openKeys ops start right) (S,c) (.ok ()) (S,{ c with currentFrame := none }) := by
  have run : ∀ getter : List (K × PageNum) → TreeM K PageNum,
      Takes Sees (findLeafInternal .read getter) S (.error (.rc .empty)) S := by
    intro getter
    refine takesBind takesLatch (takesBind takesIsEmpty ?_)
    rw [if_pos (by simpa using empty)]
    exact takesExit
  refine takesBind (a := false) ?_ takesPure
  cases start with
  | none => exact takesBind (takesOnTree (takesOrEmptyNone (run _))) (takesBind takesSetScanner takesPure)
  | some key => exact takesBind (takesOnTree (takesOrEmptyNone (run _))) (takesBind takesSetScanner takesPure)

/-! ### Searches in a tree whose keys are in order -/

variable [LinearOrder K]

def pastEnd (right : Option K) (k : K) : Bool := match right with
  | none => false
  | some r => r < k

theorem passedOrdered {right} (ordered : ∀ key, right = some key → ops.OrderedAt key stored) :
    ∀ k, stored k → passed ops right k = pastEnd right k := by
  intro k here
  cases right with
  | none => rfl
  | some key => simpa only [passed,pastEnd,decide_eq_decide] using (ordered key rfl).greater k here

theorem sortedClosed (right : Option K) (sorted : Sorted list) : Closed (fun item => pastEnd right item.1) list := by
  refine List.Pairwise.imp (S := fun a b => pastEnd right a.1 = true → pastEnd right b.1 = true) (fun {a b} less past => ?_) sorted
  cases right with
  | none => cases past
  | some key =>
    simp only [pastEnd,decide_eq_true_eq] at past ⊢
    exact past.trans less

theorem takeWhileInRange (sorted : Sorted list) (right : Option K) :
    (list.takeWhile fun item => !pastEnd right item.1) = list.filter fun item => !pastEnd right item.1 :=
  (sortedClosed right sorted).takeWhile

def fromStart (start : Option K) (k : K) : Bool := match start with
  | none => true
  | some key => key ≤ k

theorem Rooted.counted (rooted : Rooted S stored pages) : 0 < S.file.pageCount := by
  obtain ⟨level,low,-⟩ := rooted.subtree
  omega

theorem Rooted.leafAt (rooted : Rooted S stored pages)
    (split : pages = before ++ page :: rest) : ∃ parent items, S.node page = .leaf parent (rest.headD bpInvalidPageNum) items ∧
      items ≠ [] ∧ entries S.node pages = entries S.node before ++ (items ++ entries S.node rest) := by
  obtain ⟨parent,next,items,leaf,some⟩ := rooted.filled.leaf page (by rw [split]; simp)
  have chain : LeafChain bpInvalidPageNum S.node (page :: rest) := leafChainSuffix (split ▸ rooted.chain)
  have named : next = rest.headD bpInvalidPageNum := by
    have := chain.1
    rw [leaf] at this
    exact Option.some.inj this
  subst named
  refine ⟨parent,items,leaf,some,?_⟩
  rw [split,entries,flatMap_append,flatMap_cons,leaf]
  rfl

variable (index) in
theorem Rooted.standing (rooted : Rooted S stored pages)
    (split : pages = before ++ page :: rest) (leaf : S.node page = .leaf parent (rest.headD bpInvalidPageNum) items)
    (frame : c.currentFrame = some page) (position : c.iterIndex = index) (inside : index < items.length) :
    Standing S c (items.drop index ++ entries S.node rest) := by
  have chain : LeafChain bpInvalidPageNum S.node (page :: rest) := leafChainSuffix (split ▸ rooted.chain)
  refine ⟨page,index,rest,parent,items,frame,position,inside,leaf,chain.2,fun p listed => ?_,rfl⟩
  have here : p ∈ pages := by rw [split]; simp [listed]
  exact ⟨fun same => rooted.valid (same ▸ here),rooted.filled.leaf p here⟩

variable (ops) in
theorem takesSeekFirst (rooted : Rooted S stored pages) :
    ∃ c', Takes SeesScan (seek ops none) (S,c) (.ok true) (S,c') ∧ c'.firstEmitted = c.firstEmitted ∧
      Standing S c' (entries S.node pages) := by
  obtain ⟨before,leaf,after,split,below,-,run⟩ := takesFindRooted .read picksChildFirst bot_lt_top rooted
  obtain ⟨parent,items,node,some',all⟩ := rooted.leafAt split
  have first : entries S.node before = [] := eq_nil_iff_forall_not_mem.mpr fun item inside =>
    not_lt_bot (below item inside)
  rw [first,nil_append] at all
  refine ⟨{ c with currentFrame := some leaf, iterIndex := 0 },takesBind (takesOnTree (takesOrEmpty run))
    (takesBind takesSetScanner takesPure),rfl,?_⟩
  rw [all]
  exact rooted.standing 0 split node rfl rfl (length_pos_iff.mpr some')

/-- The leaf that the search ends at, and the position in it. From the end of the leaf the scanner goes on to the next one. -/
theorem takesSeekAt {key : K} {leaf after parent index}
    (rooted : Rooted S stored pages) (clean : S.disposed = []) (split : pages = before ++ leaf :: after)
    (run : Takes Sees (findLeaf ops .read key) S (.ok leaf) S)
    (node : S.node leaf = .leaf parent (after.headD bpInvalidPageNum) items)
    (looked : (LeafIndexNodeHandler.lookup ops key items).1 = index) (inside : index ≤ items.length) :
    ∃ found c', Takes SeesScan (seek ops (some key)) (S,c) (.ok found) (S,c') ∧ c'.firstEmitted = c.firstEmitted ∧
      Sought S c' found (items.drop index ++ entries S.node after) := by
  have opens : ∀ {found : Bool} {T : Store K × Scanner K}, Takes SeesScan (if items.length ≤ index then
      if after.headD bpInvalidPageNum = bpInvalidPageNum then do
        onTree release
        setScanner fun c => { c with currentFrame := none }
        pure false
      else do
        onTree (getPage (after.headD bpInvalidPageNum))
        onTree (latch (.shared (after.headD bpInvalidPageNum)))
        setScanner fun c => { c with currentFrame := some (after.headD bpInvalidPageNum), iterIndex := 0 }
        pure true
    else do
      setScanner fun c => { c with currentFrame := some leaf, iterIndex := index }
      pure true) (S,c) (.ok found) T → Takes SeesScan (seek ops (some key)) (S,c) (.ok found) T := by
    intro found T rest
    refine takesBind (takesOnTree (takesOrEmpty run)) (takesBind (takesOnTree (takesLeafView node)) ?_)
    dsimp only
    rw [looked]
    exact rest
  rcases inside.lt_or_eq with within | atEnd
  · refine ⟨true,{ c with currentFrame := some leaf, iterIndex := index },opens ?_,rfl,.inr ⟨rfl,?_⟩⟩
    · rw [if_neg (by omega)]
      exact takesBind takesSetScanner takesPure
    · exact rooted.standing index split node rfl rfl within
  · rw [drop_eq_nil_of_le atEnd.ge,nil_append]
    cases after with
    | nil =>
      refine ⟨false,{ c with currentFrame := none },opens ?_,rfl,.inl ⟨rfl,rfl,rfl⟩⟩
      rw [if_pos atEnd.ge,headD_nil,if_pos rfl]
      have released := takesRelease (S := S) (by simp [clean])
      rw [Store.release,clean,foldl_nil,← clean] at released
      exact takesBind (takesOnTree released) (takesBind takesSetScanner takesPure)
    | cons q after =>
      have split' : pages = (before ++ [leaf]) ++ q :: after := by rw [split]; simp
      obtain ⟨parent',items',node',someItems,-⟩ := rooted.leafAt split'
      have valid : q ≠ bpInvalidPageNum := fun same => rooted.valid (same ▸ (by rw [split]; simp))
      refine ⟨true,{ c with currentFrame := some q, iterIndex := 0 },opens ?_,rfl,.inr ⟨rfl,?_⟩⟩
      · rw [if_pos atEnd.ge,headD_cons,if_neg valid]
        exact takesBind (takesOnTree (takesGetPage q)) (takesBind (takesOnTree takesLatch)
          (takesBind takesSetScanner takesPure))
      · have := rooted.standing 0 (c := { c with currentFrame := some q, iterIndex := 0 }) split' node' rfl rfl
          (length_pos_iff.mpr someItems)
        rw [entries,flatMap_cons,node']
        exact this

theorem takesSeekKey {key : K} (ordered : ops.OrderedAt key stored)
    (rooted : Rooted S stored pages) (all : ∀ item ∈ entries S.node pages, stored item.1) (clean : S.disposed = []) :
    ∃ found c', Takes SeesScan (seek ops (some key)) (S,c) (.ok found) (S,c') ∧ c'.firstEmitted = c.firstEmitted ∧
      Sought S c' found ((entries S.node pages).filter fun item => key ≤ item.1) := by
  obtain ⟨before,leaf,after,split,below,above,run⟩ :=
    takesFindRooted .read (picksChildLookup ordered) (keyLtTop key) rooted
  obtain ⟨parent,items,node,some',parts⟩ := rooted.leafAt split
  have sorted : Sorted items := by
    have := rooted.filled.sorted
    rw [parts] at this
    exact (pairwise_append.mp (pairwise_append.mp this).2.1).1
  have storedItems : ∀ item ∈ items, stored item.1 := fun item inside => all item (by rw [parts]; simp [inside])
  -- the entries from the key on are those of the leaf from its position on, and all later ones
  obtain ⟨low,high,rfl,left,right,looked⟩ : ∃ low high, items = low ++ high ∧ (∀ item ∈ low, item.1 < key) ∧
      (∀ item ∈ high, key ≤ item.1) ∧ (LeafIndexNodeHandler.lookup ops key items).1 = low.length := by
    rcases leafLookup ordered storedItems sorted with ⟨low,high,rfl,left,right,looked⟩ | ⟨low,rid,high,rfl,looked⟩
    · exact ⟨low,high,rfl,left,fun item inside => (right item inside).le,by rw [looked]⟩
    · obtain ⟨-,sortedHigh,across⟩ := pairwise_append.mp sorted
      refine ⟨low,(key,rid) :: high,rfl,fun item inside => across item inside (key,rid) (by simp),?_,by rw [looked]⟩
      intro item inside
      rcases mem_cons.mp inside with rfl | later
      · exact le_refl _
      · exact ((pairwise_cons.mp sortedHigh).1 item later).le
  have wanted : ((entries S.node pages).filter fun item => key ≤ item.1) = high ++ entries S.node after := by
    have none : ∀ {list : List (K × RID)}, (∀ item ∈ list, item.1 < key) → (list.filter fun item => key ≤ item.1) = [] :=
      fun small => filter_eq_nil_iff.mpr fun item inside => by simpa using small item inside
    have every : ∀ {list : List (K × RID)}, (∀ item ∈ list, key ≤ item.1) → (list.filter fun item => key ≤ item.1) = list :=
      fun large => filter_eq_self.mpr fun item inside => by simpa using large item inside
    rw [parts,filter_append,filter_append,filter_append,
      none fun item inside => keyLt.mp (below item inside),none left,every right,
      every fun item inside => (keyLt.mp (above item inside)).le]
    rfl
  rw [wanted]
  have sought := takesSeekAt (c := c) rooted clean split run node looked (by simp)
  rwa [drop_left] at sought

theorem takesOpenKeys {start right} (rooted : Rooted S stored pages)
    (orderedLeft : ∀ key, start = some key → ops.OrderedAt key stored)
    (orderedRight : ∀ key, right = some key → ops.OrderedAt key stored)
    (all : ∀ item ∈ entries S.node pages, stored item.1) (clean : S.disposed = []) (fresh : c.firstEmitted = false) :
    ∃ c', Takes SeesScan (openKeys ops start right) (S,c) (.ok ()) (S,c') ∧
      Opened S (pastEnd right) right c' ((entries S.node pages).filter fun item => fromStart start item.1) := by
  have ends : ∀ item ∈ (entries S.node pages).filter fun item => fromStart start item.1,
      passed ops right item.1 = pastEnd right item.1 :=
    fun item inside => passedOrdered orderedRight item.1 (all item (filter_sublist.subset inside))
  cases start with
  | none =>
    obtain ⟨c₁,run,emitted,standing⟩ := takesSeekFirst ops (c := c) rooted
    have every : ((entries S.node pages).filter fun item => fromStart none item.1) = entries S.node pages := by simp [fromStart]
    rw [every] at ends ⊢
    exact takesOpenFrom rooted.counted run (emitted.trans fresh) (.inr ⟨rfl,standing⟩) ends
  | some key =>
    obtain ⟨found,c₁,run,emitted,sought⟩ := takesSeekKey (c := c) (orderedLeft key rfl) rooted all clean
    exact takesOpenFrom rooted.counted run (emitted.trans fresh) sought ends

theorem takesOpenAny (ops : KeyOps K) (key right : K) (rooted : Rooted S stored pages) (clean : S.disposed = [])
    (fresh : c.firstEmitted = false) :
    ∃ c' front list, Takes SeesScan (openKeys ops (some key) (some right)) (S,c) (.ok ()) (S,c') ∧
      entries S.node pages = front ++ list ∧ Opened S (passed ops (some right)) (some right) c' list := by
  obtain ⟨before,leaf,after,split,found⟩ := takesFindAny ops key rooted
  obtain ⟨parent,items,node,-,parts⟩ := rooted.leafAt split
  obtain ⟨_,c₁,run,emitted,sought⟩ := takesSeekAt (c := c) rooted clean split found node rfl (LowerBound.lowerBoundLe _ items)
  obtain ⟨c',opens,opened⟩ := takesOpenFrom rooted.counted run (emitted.trans fresh) sought fun _ _ => rfl
  refine ⟨c',entries S.node before ++ items.take (LeafIndexNodeHandler.lookup ops key items).1,_,opens,?_,opened⟩
  rw [parts,append_assoc,← append_assoc (take _ _),take_append_drop]

end
end

/-! ### Whole scans -/

def IndexFile.searchKeys {K : Type} (disk : IndexFile K) : List K :=
  if disk.header.rootPage = bpInvalidPageNum then []
  else keysBelow disk.node disk.file.pageCount disk.header.rootPage

section
variable {K : Type} {ops : KeyOps K} {s : Handler K} {left right : Option K} {stored : K → Prop} {past : K → Bool}

def scanStore (s : Handler K) : Store K := ⟨s.disk.header,s.disk.node,s.disk.file,[]⟩

theorem takesOpenRange {V} (run : Takes SeesScan (openKeys ops left right) (scanStore s,⟨true,false,none,-1,none⟩) (.ok ()) V) :
    Takes SeesScan (openRange ops false left right) (scanStore s,⟨false,false,none,-1,none⟩) (.ok ()) V := by
  refine takesBind takesGetScanner ?_
  rw [if_neg Bool.false_ne_true]
  refine takesBind takesSetScanner ?_
  rw [if_neg Bool.false_ne_true]
  exact run

theorem entriesStored (all : ∀ k ∈ s.disk.searchKeys, stored k) : ∀ item ∈ s.disk.entries, stored item.1 := by
  intro item inside
  simp only [IndexFile.entries,IndexFile.leafPages,IndexFile.searchKeys] at inside all
  split at inside
  · cases inside
  · rename_i tree
    rw [if_neg tree] at all
    exact all _ (entriesKeys inside)

variable [LinearOrder K]

theorem entriesSorted (valid : s.disk.Valid) : Sorted s.disk.entries := by
  by_cases empty : s.disk.header.rootPage = bpInvalidPageNum
  · simp [IndexFile.entries,IndexFile.leafPages,empty,PagedTree.entries,Sorted]
  · obtain ⟨level,low,sub,-,-⟩ := valid.resolve_left empty
    rw [IndexFile.entries,IndexFile.leafPages,if_neg empty]
    exact (sub.filled low).1.sorted

theorem opensRange (ops : KeyOps K) (left : Option K) (wanted : List (K × RID) → Prop) (valid : s.disk.Valid)
    (faults : s.mtr.faults = []) (all : ∀ k ∈ s.disk.searchKeys, stored k) (vacant : s.disk.entries = [] → wanted [])
    (tree : Rooted (scanStore s) stored s.disk.leafPages → ∃ c list,
      Takes SeesScan (openKeys ops left right) (scanStore s,⟨true,false,none,-1,none⟩) (.ok ()) (scanStore s,c) ∧
        wanted list ∧ Opened (scanStore s) past right c list) :
    ∃ scan c list, openRange ops false left right (newScanner s) = (.ok (),scan) ∧ SeesScan scan (scanStore s,c) ∧
      wanted list ∧ Opened (scanStore s) past right c list := by
  have seen : SeesScan (newScanner s) (scanStore s,⟨false,false,none,-1,none⟩) := ⟨⟨faults,rfl,rfl,rfl,rfl⟩,rfl⟩
  by_cases empty : s.disk.header.rootPage = bpInvalidPageNum
  · obtain ⟨value,after⟩ := takesOpenRange (takesOpenEmpty ops left right (S := scanStore s) empty) _ seen
    have nothing : s.disk.entries = [] := by simp [IndexFile.entries,IndexFile.leafPages,empty,PagedTree.entries]
    exact ⟨_,_,[],Prod.ext value rfl,after,vacant nothing,.closed rfl rfl⟩
  · obtain ⟨level,low,sub,chain,named⟩ := valid.resolve_left empty
    have pages : s.disk.leafPages = leaves s.disk.node s.disk.file.pageCount s.disk.header.rootPage := by
      rw [IndexFile.leafPages,if_neg empty]
    rw [IndexFile.searchKeys,if_neg empty] at all
    obtain ⟨c,list,run,isWanted,opened⟩ := tree ⟨empty,⟨level,low,sub⟩,pages.symm,chain,named,all⟩
    obtain ⟨value,after⟩ := takesOpenRange run _ seen
    exact ⟨_,c,list,Prod.ext value rfl,after,isWanted,opened⟩

theorem opensOrdered (valid : s.disk.Valid) (faults : s.mtr.faults = []) (all : ∀ k ∈ s.disk.searchKeys, stored k)
    (orderedLeft : ∀ key, left = some key → ops.OrderedAt key stored)
    (orderedRight : ∀ key, right = some key → ops.OrderedAt key stored) :
    ∃ scan c, openRange ops false left right (newScanner s) = (.ok (),scan) ∧ SeesScan scan (scanStore s,c) ∧
      Opened (scanStore s) (pastEnd right) right c (s.disk.entries.filter fun item => fromStart left item.1) := by
  obtain ⟨scan,c,list,run,seen,rfl,opened⟩ := opensRange ops left
    (fun list => list = s.disk.entries.filter fun item => fromStart left item.1) valid faults all
    (fun none => by rw [none]; rfl) fun rooted => by
      obtain ⟨c,run,opened⟩ := takesOpenKeys (c := ⟨true,false,none,-1,none⟩) rooted orderedLeft orderedRight
        (entriesStored all) rfl rfl
      exact ⟨c,_,run,rfl,opened⟩
  exact ⟨scan,c,run,seen,opened⟩

theorem betweenKeys (valid : s.disk.Valid) (left right : Option K) :
    ((s.disk.entries.filter fun item => fromStart left item.1).takeWhile fun item => !pastEnd right item.1) =
      s.disk.entries.filter fun item => fromStart left item.1 && !pastEnd right item.1 := by
  rw [takeWhileInRange ((entriesSorted valid).sublist filter_sublist),filter_filter]
  exact filter_congr fun item _ => Bool.and_comm ..

theorem scanOrdered (valid : s.disk.Valid) (faults : s.mtr.faults = []) (all : ∀ k ∈ s.disk.searchKeys, stored k)
    (orderedLeft : ∀ key, left = some key → ops.OrderedAt key stored)
    (orderedRight : ∀ key, right = some key → ops.OrderedAt key stored) :
    ∃ scan, openRange ops false left right (newScanner s) = (.ok (),scan) ∧
      ∀ fuel, s.disk.entries.length < fuel → (collect ops fuel scan).1 =
        .ok ((s.disk.entries.filter fun item => fromStart left item.1 && !pastEnd right item.1).map Prod.snd) := by
  obtain ⟨scan,c,run,seen,opened⟩ := opensOrdered valid faults all orderedLeft orderedRight
  refine ⟨scan,run,fun fuel enough => ?_⟩
  rw [← betweenKeys valid]
  exact opened.collect (passedOrdered orderedRight) (fun item inside => entriesStored all item (filter_sublist.subset inside))
    (lt_of_le_of_lt filter_sublist.length_le enough) seen

/-- Whatever the comparisons say, a scan returns entries that follow one another in the leaves. -/
theorem scanAny (ops : KeyOps K) (key right : K) (valid : s.disk.Valid) (faults : s.mtr.faults = []) :
    ∃ scan front list, openRange ops false (some key) (some right) (newScanner s) = (.ok (),scan) ∧
      s.disk.entries = front ++ list ∧ ∀ fuel, s.disk.entries.length < fuel →
        (collect ops fuel scan).1 = .ok ((list.takeWhile fun item => !passed ops (some right) item.1).map Prod.snd) := by
  obtain ⟨scan,c,list,run,seen,⟨front,parts⟩,opened⟩ := opensRange ops (some key)
    (fun list => ∃ front, s.disk.entries = front ++ list) valid faults (fun _ _ => trivial : ∀ k ∈ s.disk.searchKeys, True)
    (fun none => ⟨[],none⟩) fun rooted => by
      obtain ⟨c,front,list,run,parts,opened⟩ := takesOpenAny ops key right (c := ⟨true,false,none,-1,none⟩) rooted rfl rfl
      exact ⟨c,list,run,⟨front,parts⟩,opened⟩
  refine ⟨scan,front,list,run,parts,fun fuel enough => ?_⟩
  have fewer := congrArg List.length parts
  rw [length_append] at fewer
  exact opened.collect (fun _ (_ : True) => rfl) (fun _ _ => trivial) (by omega) seen

end
end MiniOb.BplusTree
