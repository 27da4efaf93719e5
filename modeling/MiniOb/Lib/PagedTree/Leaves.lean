import Mathlib.Data.Finset.Card
import MiniOb.Lib.PagedTree.Basic

/-! What the labels of a paged tree say about it as a whole: subtrees between separators, the
row of leaves, their chain and the entries in them. -/
namespace MiniOb.PagedTree
open MiniOb.PagedTree.Bound List

variable {P K V : Type}

def Node.next? : Node P K V → Option P
  | .leaf _ next _ => some next
  | .internal _ _ => none

def leaves (heap : P → Node P K V) : Nat → P → List P
  | 0,_ => []
  | fuel+1,p => match heap p with
    | .leaf _ _ _ => [p]
    | .internal _ items => items.flatMap fun item => leaves heap fuel item.2

def entries (heap : P → Node P K V) (pages : List P) : List (K × V) :=
  pages.flatMap fun p => (heap p).leafItems

/-- The keys of a subtree that searches look at: those of the leaves, and of internal nodes all
but the first. -/
def keysBelow (heap : P → Node P K V) : Nat → P → List K
  | 0,_ => []
  | fuel+1,p => match heap p with
    | .leaf _ _ items => items.map Prod.fst
    | .internal _ items => (items.map Prod.fst).tail ++ items.flatMap fun item => keysBelow heap fuel item.2

theorem entriesKeys {heap} : ∀ {fuel : Nat} {p : P} {item : K × V},
    item ∈ entries heap (leaves heap fuel p) → item.1 ∈ keysBelow heap fuel p := by
  intro fuel
  induction fuel with
  | zero =>
    intro p item inside
    cases inside
  | succ fuel ih =>
    intro p item inside
    cases node : heap p with
    | leaf parent next items =>
      simp only [leaves,node,entries,flatMap_cons,flatMap_nil,append_nil] at inside
      simp only [keysBelow,node]
      exact mem_map_of_mem inside
    | internal parent items =>
      simp only [leaves,node,entries,mem_flatMap] at inside
      obtain ⟨leaf,⟨child,listed,below⟩,here⟩ := inside
      simp only [keysBelow,node,mem_append,mem_flatMap]
      exact .inr ⟨child,listed,ih (mem_flatMap.mpr ⟨leaf,below,here⟩)⟩

def LeafChain (nil : P) (heap : P → Node P K V) : List P → Prop
  | [] => True
  | p :: rest => (heap p).next? = some (rest.headD nil) ∧ LeafChain nil heap rest

variable [LinearOrder K]

def Children (child : P → Bound K → Bound K → Prop) : Bound K → List (K × P) → Bound K → Prop
  | _,[],_ => False
  | lo,[item],hi => child item.2 lo hi
  | lo,item :: next :: rest,hi => lo < key next.1 ∧ key next.1 < hi ∧ child item.2 lo (key next.1) ∧
      Children child (key next.1) (next :: rest) hi

/-- The subtree of a page: every leaf at level 0, every key between the separators around it,
every child naming its parent. -/
def Subtree (heap : P → Node P K V) : Nat → P → P → Bound K → Bound K → Prop
  | 0,parent,p,lo,hi => ∃ next items, heap p = .leaf parent next items ∧ items ≠ [] ∧ Sorted items ∧
      Within lo hi items
  | level+1,parent,p,lo,hi => ∃ items, heap p = .internal parent items ∧
      Children (Subtree heap level p) lo items hi

/-! ### Subtrees -/

section
variable {heap : P → Node P K V} {child : P → Bound K → Bound K → Prop} {items : List (K × P)} {lo mid hi x : Bound K}

theorem childrenTail (children : Children child lo items hi) : ∀ item ∈ items.tail, lo < key item.1 ∧ key item.1 < hi := by
  induction items generalizing lo with
  | nil => exact absurd children id
  | cons first rest ih =>
    cases rest with
    | nil => simp
    | cons next more =>
      obtain ⟨above,below,-,tail⟩ := children
      intro item inside
      rcases mem_cons.mp inside with rfl | later
      · exact ⟨above,below⟩
      · have := ih tail item later
        exact ⟨above.trans this.1,this.2⟩

theorem childrenEach (children : Children child lo items hi) : items ≠ [] ∧ ∀ item ∈ items, ∃ low high, child item.2 low high := by
  induction items generalizing lo with
  | nil => exact absurd children id
  | cons first rest ih =>
    refine ⟨cons_ne_nil _ _,?_⟩
    cases rest with
    | nil => simpa using ⟨lo,hi,children⟩
    | cons next more =>
      obtain ⟨-,-,here,tail⟩ := children
      exact forall_mem_cons.mpr ⟨⟨lo,_,here⟩,(ih tail).2⟩

theorem childrenFind (children : Children child lo items hi) (left : lo ≤ x) (right : x < hi) :
    ∃ before k c after low high, items = before ++ (k,c) :: after ∧ child c low high ∧ low ≤ x ∧ x < high ∧
      (before = [] ∧ low = lo ∨ low = key k ∧ Children child lo before low) ∧
      (after = [] ∨ ∃ next rest, after = next :: rest ∧ high = key next.1 ∧ Children child high after hi) := by
  induction items generalizing lo with
  | nil => exact absurd children id
  | cons first rest ih =>
    cases rest with
    | nil => exact ⟨[],first.1,first.2,[],lo,hi,rfl,children,left,right,.inl ⟨rfl,rfl⟩,.inl rfl⟩
    | cons next more =>
      obtain ⟨above,below,here,tail⟩ := children
      rcases lt_or_ge x (key next.1) with less | notLess
      · exact ⟨[],first.1,first.2,next :: more,lo,key next.1,rfl,here,left,less,.inl ⟨rfl,rfl⟩,
          .inr ⟨next,more,rfl,rfl,tail⟩⟩
      · obtain ⟨before,k,c,after,low,high,same,found,starts,ends,front,back⟩ := ih tail notLess
        refine ⟨first :: before,k,c,after,low,high,by rw [same]; rfl,found,starts,ends,.inr ?_,back⟩
        rcases front with ⟨rfl,rfl⟩ | ⟨atKey,front⟩
        · obtain ⟨rfl,rfl⟩ : next = (k,c) ∧ more = after := by simpa using same
          exact ⟨rfl,here⟩
        · cases before with
          | nil => exact absurd front id
          | cons next' before =>
            obtain ⟨rfl,same⟩ : next = next' ∧ more = before ++ (k,c) :: after := by simpa using same
            have later := childrenTail tail (k,c) (by simp [same])
            exact ⟨atKey,above,atKey ▸ later.1,here,front⟩

structure Filled (heap : P → Node P K V) (ps : List P) (lo hi : Bound K) : Prop where
  sorted : Sorted (entries heap ps)
  within : Within lo hi (entries heap ps)
  leaf : ∀ p ∈ ps, ∃ parent next items, heap p = .leaf parent next items ∧ items ≠ []

theorem Filled.append {ps qs} (left : Filled heap ps lo mid) (right : Filled heap qs mid hi)
    (lower : lo ≤ mid) (upper : mid ≤ hi) : Filled heap (ps ++ qs) lo hi := by
  refine ⟨?_,?_,?_⟩
  · rw [entries,flatMap_append]
    refine pairwise_append.mpr ⟨left.sorted,right.sorted,fun a inA b inB => ?_⟩
    exact keyLt.mp ((left.within a inA).2.trans_le (right.within b inB).1)
  · intro item inside
    rw [entries,flatMap_append] at inside
    rcases mem_append.mp inside with h | h
    · exact ⟨(left.within item h).1,(left.within item h).2.trans_le upper⟩
    · exact ⟨lower.trans (right.within item h).1,(right.within item h).2⟩
  · intro p inside
    rcases mem_append.mp inside with h | h
    · exact left.leaf p h
    · exact right.leaf p h

theorem childrenFilled {below : P → List P}
    (ok : ∀ c low high, child c low high → Filled heap (below c) low high ∧ low ≤ high)
    (children : Children child lo items hi) : Filled heap (items.flatMap fun item => below item.2) lo hi ∧ lo ≤ hi := by
  induction items generalizing lo with
  | nil => exact absurd children id
  | cons first rest ih =>
    cases rest with
    | nil => simpa using ok _ _ _ children
    | cons next more =>
      obtain ⟨above,below',here,tail⟩ := children
      rw [flatMap_cons]
      obtain ⟨filled,-⟩ := ih tail
      exact ⟨(ok _ _ _ here).1.append filled above.le below'.le,above.le.trans below'.le⟩

theorem Subtree.filled : ∀ {level fuel : Nat} {parent p : P} {lo hi : Bound K}, Subtree heap level parent p lo hi →
    level < fuel → Filled heap (leaves heap fuel p) lo hi ∧ lo ≤ hi := by
  intro level
  induction level with
  | zero =>
    intro fuel parent p lo hi sub enough
    obtain ⟨fuel,rfl⟩ : ∃ f, fuel = f + 1 := ⟨fuel - 1,by omega⟩
    obtain ⟨next,items,node,some,sorted,within⟩ := sub
    obtain ⟨item,rest,rfl⟩ := exists_cons_of_ne_nil some
    have first := within item (by simp)
    refine ⟨⟨?_,?_,?_⟩,first.1.trans first.2.le⟩
    · simpa [leaves,node,entries,Node.leafItems] using sorted
    · simpa [leaves,node,entries,Node.leafItems] using within
    · intro q inside
      obtain rfl : q = p := by simpa [leaves,node] using inside
      exact ⟨parent,next,item :: rest,node,some⟩
  | succ level ih =>
    intro fuel parent p lo hi sub enough
    obtain ⟨fuel,rfl⟩ : ∃ f, fuel = f + 1 := ⟨fuel - 1,by omega⟩
    obtain ⟨items,node,children⟩ := sub
    simp only [leaves,node]
    exact childrenFilled (fun c low high sub => ih sub (by omega)) children

end

section
variable {nil : P} {heap : P → Node P K V} {lab : P → Option (Label K)} {root : P} {height level : Nat}
  {lo mid hi x : Bound K}

variable {items : List (K × P)} {ps : List P} {count : Nat}

theorem childrenOfSeg {child}
    (ok : ∀ c low high, c ∈ items.map Prod.snd → lab c = some ⟨level,low,high⟩ → child c low high)
    (seg : Seg lab level lo items hi) (some : items ≠ []) : Children child lo items hi := by
  induction items generalizing lo with
  | nil => exact absurd rfl some
  | cons item rest ih =>
    obtain ⟨mid,order,label,-,tail⟩ := seg
    have first := ok item.2 lo mid (by simp) label
    cases rest with
    | nil => rwa [← (show mid = hi from tail)]
    | cons next more =>
      obtain ⟨-,-,-,atKey,-⟩ := segCons.mp tail
      have same : mid = key next.1 := atKey.resolve_left fun bottom => by
        rw [bottom] at order
        exact absurd order not_lt_bot
      have after := ih (fun c low high inside => ok c low high (mem_cons_of_mem _ inside)) tail (by simp)
      subst same
      exact ⟨order,segLt tail (by simp),first,after⟩

theorem Tree.subtree (tree : Tree nil heap lab root height)
    (filled : ∀ p label, lab p = some label → (heap p).size ≠ 0) :
    ∀ {level : Nat} {p : P} {lo hi : Bound K}, lab p = some ⟨level,lo,hi⟩ →
      Subtree heap level (heap p).parent p lo hi := by
  intro level
  induction level with
  | zero =>
    intro p lo hi found
    have notEmpty := filled p _ found
    obtain ⟨parent,next,items,node,sorted,within,-⟩ := tree.leafNode found
    rw [node] at notEmpty ⊢
    exact ⟨next,items,node,fun empty => notEmpty (by simp [Node.size,empty]),sorted,within⟩
  | succ level ih =>
    intro p lo hi found
    obtain ⟨parent,items,node,some,seg⟩ := tree.internalNode found
    rw [node]
    refine ⟨items,node,childrenOfSeg ?_ seg some⟩
    intro c low high inside label
    have parentC := tree.down p _ c found (by rw [node]; exact inside)
    rw [← parentC]
    exact ih label

def Row (lab : P → Option (Label K)) : Bound K → List P → Bound K → Prop
  | lo,[],hi => lo = hi
  | lo,p :: rest,hi => ∃ mid, lo < mid ∧ lab p = some ⟨0,lo,mid⟩ ∧ Row lab mid rest hi

theorem rowAppend {qs} (left : Row lab lo ps mid) (right : Row lab mid qs hi) :
    Row lab lo (ps ++ qs) hi := by
  induction ps generalizing lo with
  | nil => exact (show lo = mid from left) ▸ right
  | cons p rest ih =>
    obtain ⟨next,order,label,tail⟩ := left
    exact ⟨next,order,label,ih tail⟩

theorem rowOfSeg {below : P → List P} (ok : ∀ c low high, lab c = some ⟨level,low,high⟩ → Row lab low (below c) high)
    (seg : Seg lab level lo items hi) : Row lab lo (items.flatMap fun item => below item.2) hi := by
  induction items generalizing lo with
  | nil => exact seg
  | cons item rest ih =>
    obtain ⟨mid,-,label,-,tail⟩ := seg
    rw [flatMap_cons]
    exact rowAppend (ok _ _ _ label) (ih tail)

theorem Tree.leavesRow (tree : Tree nil heap lab root height) : ∀ {level fuel : Nat} {p : P} {lo hi : Bound K},
    lab p = some ⟨level,lo,hi⟩ → level < fuel → Row lab lo (leaves heap fuel p) hi := by
  intro level
  induction level with
  | zero =>
    intro fuel p lo hi found enough
    obtain ⟨fuel,rfl⟩ : ∃ f, fuel = f + 1 := ⟨fuel - 1,by omega⟩
    obtain ⟨parent,next,items,node,-⟩ := tree.leafNode found
    simp only [leaves,node]
    exact ⟨hi,nodeOkLt (tree.nodes p _ found),found,rfl⟩
  | succ level ih =>
    intro fuel p lo hi found enough
    obtain ⟨fuel,rfl⟩ : ∃ f, fuel = f + 1 := ⟨fuel - 1,by omega⟩
    obtain ⟨parent,items,node,-,seg⟩ := tree.internalNode found
    simp only [leaves,node]
    exact rowOfSeg (fun c low high label => ih label (by omega)) seg

theorem rowLabel (row : Row lab lo ps hi) {p} (inside : p ∈ ps) : ∃ low high, lab p = some ⟨0,low,high⟩ := by
  induction ps generalizing lo with
  | nil => cases inside
  | cons q rest ih =>
    obtain ⟨mid,-,label,tail⟩ := row
    rcases mem_cons.mp inside with rfl | later
    · exact ⟨lo,mid,label⟩
    · exact ih tail later

theorem rowFind (row : Row lab lo ps hi) (left : lo ≤ x) (right : x < hi) :
    ∃ p ∈ ps, ∃ low high, lab p = some ⟨0,low,high⟩ ∧ low ≤ x ∧ x < high := by
  induction ps generalizing lo with
  | nil => exact absurd ((show lo = hi from row) ▸ left) (not_le.mpr right)
  | cons q rest ih =>
    obtain ⟨mid,-,label,tail⟩ := row
    rcases lt_or_ge x mid with below | later
    · exact ⟨q,mem_cons_self,lo,mid,label,left,below⟩
    · obtain ⟨p,inside,found⟩ := ih tail later
      exact ⟨p,mem_cons_of_mem _ inside,found⟩

theorem rowLow (row : Row lab lo ps hi) {p} (inside : p ∈ ps) :
    ∃ low high, lab p = some ⟨0,low,high⟩ ∧ lo ≤ low := by
  induction ps generalizing lo with
  | nil => cases inside
  | cons q rest ih =>
    obtain ⟨mid,order,label,tail⟩ := row
    rcases mem_cons.mp inside with rfl | later
    · exact ⟨lo,mid,label,le_refl _⟩
    · obtain ⟨low,high,found,above⟩ := ih tail later
      exact ⟨low,high,found,order.le.trans above⟩

theorem rowNodup (row : Row lab lo ps hi) : ps.Nodup := by
  induction ps generalizing lo with
  | nil => exact nodup_nil
  | cons p rest ih =>
    obtain ⟨mid,order,label,tail⟩ := row
    refine nodup_cons.mpr ⟨fun again => ?_,ih tail⟩
    obtain ⟨low,high,found,above⟩ := rowLow tail again
    cases Option.some.inj (found.symm.trans label)
    exact absurd above (not_le.mpr order)

theorem rowLength (row : Row lab lo ps hi) (code : P → Nat) (small : ∀ p label, lab p = some label → code p < count)
    (injective : ∀ p q a b, lab p = some a → lab q = some b → code p = code q → p = q) : ps.length ≤ count := by
  have distinct : (ps.map code).Nodup := by
    refine List.Nodup.map_on (fun p inP q inQ same => ?_) (rowNodup row)
    obtain ⟨_,_,atP⟩ := rowLabel row inP
    obtain ⟨_,_,atQ⟩ := rowLabel row inQ
    exact injective p q _ _ atP atQ same
  have inside : ps.map code ⊆ range count := by
    intro n listed
    obtain ⟨p,inP,rfl⟩ := mem_map.mp listed
    obtain ⟨_,_,atP⟩ := rowLabel row inP
    exact mem_range.mpr (small p _ atP)
  simpa using (distinct.subperm inside).length_le

theorem Tree.rowChain (tree : Tree nil heap lab root height) (row : Row lab lo ps ⊤) : LeafChain nil heap ps := by
  induction ps generalizing lo with
  | nil => trivial
  | cons p rest ih =>
    obtain ⟨mid,-,label,tail⟩ := row
    refine ⟨?_,ih tail⟩
    obtain ⟨parent,next,items,node,-,-,link⟩ := tree.leafNode label
    rw [node]
    cases rest with
    | nil =>
      obtain rfl : mid = ⊤ := tail
      rcases link with ⟨rfl,-⟩ | ⟨after,found⟩
      · rfl
      · exact absurd (nodeOkLt (tree.nodes next _ found)) (not_lt.mpr le_top)
    | cons c more =>
      obtain ⟨after,order,labelC,-⟩ := tail
      rcases link with ⟨-,rfl⟩ | ⟨after',found⟩
      · exact absurd order (not_lt.mpr le_top)
      · have order' : mid < after' := nodeOkLt (tree.nodes next _ found)
        have same : next = c := tree.unique found labelC rfl ⟨le_refl mid,order'⟩ ⟨le_refl mid,order⟩
        rw [same]; rfl

theorem Tree.memEntries (tree : Tree nil heap lab root height) (row : Row lab ⊥ ps ⊤)
    {item} : item ∈ entries heap ps ↔ Holds heap lab item := by
  constructor
  · intro inside
    obtain ⟨p,listed,here⟩ := mem_flatMap.mp inside
    obtain ⟨low,high,label⟩ := rowLabel row listed
    exact ⟨p,_,label,here⟩
  · rintro ⟨p,⟨level,low,high⟩,label,here⟩
    have ok := tree.nodes p _ label
    have order := nodeOkLt ok
    cases node : heap p with
    | internal parent items => simp [node,Node.leafItems] at here
    | leaf parent next items =>
      rw [node] at ok
      obtain rfl : level = 0 := ok.1
      obtain ⟨q,listed,low',high',label',starts,ends⟩ :=
        rowFind row (bot_le (a := low)) (order.trans_le le_top)
      have same := tree.unique label label' rfl ⟨le_refl low,order⟩ ⟨starts,ends⟩
      exact mem_flatMap.mpr ⟨p,same ▸ listed,here⟩

/-! ### Height -/

theorem Tree.someAt (tree : Tree nil heap lab root height) (low : level ≤ height) :
    ∃ p label, lab p = some label ∧ label.level = level := by
  obtain ⟨d,distance⟩ : ∃ d, level + d = height := ⟨height - level,by omega⟩
  induction d generalizing level with
  | zero => exact ⟨root,_,tree.rootLabel,by simp only; omega⟩
  | succ d ih =>
    obtain ⟨p,⟨_,lo,hi⟩,found,rfl⟩ := ih (by omega : level + 1 ≤ height) (by omega)
    obtain ⟨parent,items,node,some,-⟩ := tree.internalNode found
    obtain ⟨item,inside⟩ := exists_mem_of_ne_nil _ some
    obtain ⟨lower,low',high',atC,levelC,-⟩ := tree.childLabel (c := item.2) found
      (by rw [node]; exact mem_map_of_mem inside)
    exact ⟨item.2,_,atC,(Nat.succ.inj levelC).symm⟩

theorem Tree.heightLt (tree : Tree nil heap lab root height) (code : P → Nat)
    (small : ∀ p label, lab p = some label → code p < count)
    (injective : ∀ p q a b, lab p = some a → lab q = some b → code p = code q → p = q) : height < count := by
  classical
  have : Nonempty P := ⟨root⟩
  choose! page label found same using fun level (low : level ≤ height) => tree.someAt low
  have inside : ∀ level ∈ Finset.range (height + 1), code (page level) ∈ Finset.range count := by
    intro level low
    exact Finset.mem_range.mpr (small _ _ (found level (by simpa [Nat.lt_succ_iff] using low)))
  have card := Finset.card_le_card_of_injOn (fun level => code (page level)) inside ?_
  · simpa [Nat.succ_le_iff] using card
  · intro i low j low' equal
    simp only [Finset.coe_range,Set.mem_Iio,Nat.lt_succ_iff] at low low'
    have pages := injective _ _ _ _ (found i low) (found j low') equal
    have labels := (found i low).symm.trans (pages ▸ found j low')
    rw [← same i low,← same j low',Option.some.inj labels]

end
end MiniOb.PagedTree
