import Mathlib.Logic.Function.Basic
import Mathlib.Order.WithBot

/-! Search trees whose nodes lie on pages and know their parent. The shape is stated
locally: a labelling gives each page of the tree its level and its key range, and each page
is checked against the labels of the pages it names. -/
namespace MiniOb.PagedTree
open Prod (snd)
open Option List

inductive Node (P K V : Type) where
  | leaf (parent next : P) (items : List (K × V))
  | internal (parent : P) (items : List (K × P))
  deriving DecidableEq, Repr

namespace Node
variable {P K V : Type}

def isLeaf : Node P K V → Bool
  | leaf _ _ _ => true
  | internal _ _ => false

def parent : Node P K V → P
  | leaf parent _ _ => parent
  | internal parent _ => parent

def setParent (parent : P) : Node P K V → Node P K V
  | leaf _ next items => leaf parent next items
  | internal _ items => internal parent items

def size : Node P K V → Nat
  | leaf _ _ items => items.length
  | internal _ items => items.length

def leafItems : Node P K V → List (K × V)
  | leaf _ _ items => items
  | internal _ _ => []

def children : Node P K V → List P
  | leaf _ _ _ => []
  | internal _ items => items.map snd

@[simp] theorem parentSetParent (q : P) (x : Node P K V) : (x.setParent q).parent = q := by
  cases x <;> rfl

@[simp] theorem childrenSetParent (q : P) (x : Node P K V) : (x.setParent q).children = x.children := by
  cases x <;> rfl

@[simp] theorem leafItemsSetParent (q : P) (x : Node P K V) : (x.setParent q).leafItems = x.leafItems := by
  cases x <;> rfl

@[simp] theorem sizeSetParent (q : P) (x : Node P K V) : (x.setParent q).size = x.size := by
  cases x <;> rfl

@[simp] theorem isLeafSetParent (q : P) (x : Node P K V) : (x.setParent q).isLeaf = x.isLeaf := by
  cases x <;> rfl

@[simp] theorem setParentTwice (q r : P) (x : Node P K V) : (x.setParent q).setParent r = x.setParent r := by
  cases x <;> rfl

theorem setParentSelf {x : Node P K V} (same : x.parent = q) : x.setParent q = x := by
  cases x <;> subst same <;> rfl

end Node

/-! ### Ranges -/

abbrev Bound (K : Type) := WithBot (WithTop K)

namespace Bound
variable {K : Type}

def key (k : K) : Bound K := ((k : WithTop K) : WithBot (WithTop K))

variable {a b : K}

@[simp] theorem keyInj : key a = key b ↔ a = b := by simp [key]

variable [LinearOrder K]

@[simp] theorem keyLt : key a < key b ↔ a < b := by simp [key]

@[simp] theorem keyLe : key a ≤ key b ↔ a ≤ b := by simp [key]

@[simp] theorem botLtKey (k : K) : ⊥ < key k := WithBot.bot_lt_coe _

@[simp] theorem keyLtTop (k : K) : key k < ⊤ := WithBot.coe_lt_coe.mpr (WithTop.coe_lt_top k)

@[simp] theorem keyNeBot (k : K) : key k ≠ ⊥ := (botLtKey k).ne'

end Bound

open MiniOb.PagedTree.Bound

structure Label (K : Type) where
  level : Nat
  lo : Bound K
  hi : Bound K

def Label.Has {K : Type} [LinearOrder K] (label : Label K) (x : Bound K) : Prop :=
  label.lo ≤ x ∧ x < label.hi

section
variable {P K V : Type} [LinearOrder K] {lab lab' : P → Option (Label K)} {level : Nat}
  {lo mid hi x : Bound K} {xs ys : List (K × P)} {c : P} {k : K}

/-- The children of an internal node cover its range one after the other. A child's key is
its lower end; only at the left edge of the tree is the key free. -/
def Seg (lab : P → Option (Label K)) (level : Nat) : Bound K → List (K × P) → Bound K → Prop
  | lo,[],hi => lo = hi
  | lo,(k,c) :: rest,hi => ∃ mid, lo < mid ∧ lab c = some ⟨level,lo,mid⟩ ∧ (lo = ⊥ ∨ lo = key k) ∧
      Seg lab level mid rest hi

theorem segAppend : Seg lab level lo (xs ++ ys) hi ↔ ∃ mid, Seg lab level lo xs mid ∧ Seg lab level mid ys hi := by
  induction xs generalizing lo with
  | nil => simp [Seg]
  | cons item rest ih =>
    simp only [cons_append,Seg,ih]
    constructor
    · rintro ⟨next,above,label,first,mid,left,right⟩
      exact ⟨mid,⟨next,above,label,first,left⟩,right⟩
    · rintro ⟨mid,⟨next,above,label,first,left⟩,right⟩
      exact ⟨next,above,label,first,mid,left,right⟩

theorem segCons : Seg lab level lo ((k,c) :: xs) hi ↔
    ∃ mid, lo < mid ∧ lab c = some ⟨level,lo,mid⟩ ∧ (lo = ⊥ ∨ lo = key k) ∧ Seg lab level mid xs hi :=
  Iff.rfl

theorem segLe (seg : Seg lab level lo xs hi) : lo ≤ hi := by
  induction xs generalizing lo with
  | nil => exact le_of_eq seg
  | cons item rest ih =>
    obtain ⟨mid,above,-,-,tail⟩ := seg
    exact above.le.trans (ih tail)

theorem segLt (seg : Seg lab level lo xs hi) (some : xs ≠ []) : lo < hi := by
  cases xs with
  | nil => exact absurd rfl some
  | cons item rest =>
    obtain ⟨mid,above,-,-,tail⟩ := seg
    exact above.trans_le (segLe tail)

theorem segCongr (same : ∀ c ∈ xs.map snd, lab' c = lab c) (seg : Seg lab level lo xs hi) :
    Seg lab' level lo xs hi := by
  induction xs generalizing lo with
  | nil => exact seg
  | cons item rest ih =>
    obtain ⟨mid,above,label,first,tail⟩ := seg
    refine ⟨mid,above,?_,first,ih (fun c inside => same c (by simp [inside])) tail⟩
    rw [same _ (by simp),label]

theorem segMember (seg : Seg lab level lo xs hi) (inside : (k,c) ∈ xs) : ∃ low high,
    lab c = some ⟨level,low,high⟩ ∧ lo ≤ low ∧ low < high ∧ high ≤ hi ∧ (low = ⊥ ∨ low = key k) := by
  obtain ⟨before,after,rfl⟩ := append_of_mem inside
  obtain ⟨low,left,high,above,label,first,right⟩ := segAppend.mp seg
  exact ⟨low,high,label,segLe left,above,segLe right,first⟩

theorem segChild (seg : Seg lab level lo xs hi) (inside : c ∈ xs.map snd) : ∃ low high,
    lab c = some ⟨level,low,high⟩ ∧ lo ≤ low ∧ low < high ∧ high ≤ hi := by
  obtain ⟨⟨k,c⟩,item,rfl⟩ := mem_map.mp inside
  obtain ⟨low,high,label,left,above,right,-⟩ := segMember seg item
  exact ⟨low,high,label,left,above,right⟩

theorem segFind (seg : Seg lab level lo xs hi) (left : lo ≤ x) (right : x < hi) :
    ∃ before k c after low high, xs = before ++ (k,c) :: after ∧ Seg lab level lo before low ∧
      lab c = some ⟨level,low,high⟩ ∧ low ≤ x ∧ x < high ∧ (low = ⊥ ∨ low = key k) ∧
      Seg lab level high after hi := by
  induction xs generalizing lo with
  | nil => exact absurd (seg ▸ left) (not_le.mpr right)
  | cons item rest ih =>
    obtain ⟨mid,above,label,first,tail⟩ := seg
    rcases lt_or_ge x mid with below | later
    · exact ⟨[],item.1,item.2,rest,lo,mid,rfl,rfl,label,left,below,first,tail⟩
    · obtain ⟨before,k,c,after,low,high,same,seg,found⟩ := ih tail later
      exact ⟨item :: before,k,c,after,low,high,by rw [same,cons_append],
        ⟨mid,above,label,first,seg⟩,found⟩

theorem segUnique (seg : Seg lab level lo xs hi)
    (first : c ∈ xs.map snd) (second : d ∈ xs.map snd)
    (atC : lab c = some a) (atD : lab d = some b) (inC : a.Has x) (inD : b.Has x) : c = d := by
  induction xs generalizing lo with
  | nil => simp at first
  | cons item rest ih =>
    obtain ⟨mid,above,label,-,tail⟩ := seg
    -- a later child starts where the first one ends
    have later : ∀ {e : P} {l : Label K}, e ∈ rest.map snd → lab e = some l → mid ≤ l.lo := by
      intro e l inside atE
      obtain ⟨low,high,found,left,-⟩ := segChild tail inside
      cases some.inj (found.symm.trans atE)
      exact left
    simp only [map_cons,mem_cons] at first second
    rcases first with rfl | first <;> rcases second with rfl | second
    · rfl
    · cases some.inj (label.symm.trans atC)
      exact absurd (inC.2.trans_le (later second atD)) (not_lt.mpr inD.1)
    · cases some.inj (label.symm.trans atD)
      exact absurd (inD.2.trans_le (later first atC)) (not_lt.mpr inC.1)
    · exact ih tail first second

theorem segNotAgain (seg : Seg lab level lo (xs ++ (k,c) :: ys) hi) : c ∉ xs.map snd ∧ c ∉ ys.map snd := by
  obtain ⟨low,left,high,above,label,-,right⟩ := segAppend.mp seg
  constructor <;> intro inside
  · obtain ⟨l,h,found,-,order,ends⟩ := segChild left inside
    cases some.inj (found.symm.trans label)
    exact absurd ends (not_le.mpr order)
  · obtain ⟨l,h,found,starts,order,-⟩ := segChild right inside
    cases some.inj (found.symm.trans label)
    exact absurd starts (not_le.mpr order)

theorem segKeys (seg : Seg lab level lo xs hi) (notBottom : lo ≠ ⊥) :
    ∀ item ∈ xs, lo ≤ key item.1 ∧ key item.1 < hi := by
  intro item inside
  obtain ⟨low,high,-,starts,order,ends,bottom | same⟩ := segMember seg (k := item.1) (c := item.2) inside
  · exact absurd (le_bot_iff.mp (bottom ▸ starts)) notBottom
  · exact ⟨same ▸ starts,same ▸ order.trans_le ends⟩

theorem segTail (seg : Seg lab level lo xs hi) : ∀ item ∈ xs.tail, lo < key item.1 ∧ key item.1 < hi := by
  cases xs with
  | nil => intro item inside; cases inside
  | cons first rest =>
    obtain ⟨mid,above,-,-,tail⟩ := seg
    intro item inside
    have := segKeys tail (bot_lt_iff_ne_bot.mp (bot_le.trans_lt above)) item inside
    exact ⟨above.trans_le this.1,this.2⟩

theorem segSorted (seg : Seg lab level lo xs hi) : (xs.map Prod.fst).tail.Pairwise (· < ·) := by
  induction xs generalizing lo with
  | nil => exact List.Pairwise.nil
  | cons item rest ih =>
    obtain ⟨mid,above,-,-,tail⟩ := seg
    cases rest with
    | nil => exact List.Pairwise.nil
    | cons next more =>
      obtain ⟨top,-,-,atKey,later⟩ := segCons.mp tail
      have notBottom : mid ≠ ⊥ := bot_lt_iff_ne_bot.mp (bot_le.trans_lt above)
      obtain rfl := atKey.resolve_left notBottom
      refine pairwise_cons.mpr ⟨fun k inside => ?_,ih tail⟩
      obtain ⟨item',listed,rfl⟩ := mem_map.mp inside
      exact keyLt.mp ((segTail tail item' listed).1)

/-! ### Nodes against their labels -/

def Sorted (items : List (K × V)) : Prop := items.Pairwise fun a b => a.1 < b.1

def Within (lo hi : Bound K) (items : List (K × V)) : Prop :=
  ∀ item ∈ items, lo ≤ key item.1 ∧ key item.1 < hi

def NextOk (nil : P) (lab : P → Option (Label K)) (next : P) (hi : Bound K) : Prop :=
  (next = nil ∧ hi = ⊤) ∨ ∃ after, lab next = some ⟨0,hi,after⟩

def NodeOk (nil : P) (lab : P → Option (Label K)) (label : Label K) : Node P K V → Prop
  | .leaf _ next items => label.level = 0 ∧ label.lo < label.hi ∧ Sorted items ∧
      Within label.lo label.hi items ∧ NextOk nil lab next label.hi
  | .internal _ items => items ≠ [] ∧ ∃ level, label.level = level + 1 ∧
      Seg lab level label.lo items label.hi

variable {nil : P} {label : Label K} {node : Node P K V}

theorem nodeOkSetParent : NodeOk nil lab label (node.setParent q) ↔ NodeOk nil lab label node := by
  cases node <;> rfl

theorem nodeOkLt (ok : NodeOk nil lab label node) : label.lo < label.hi := by
  cases node with
  | leaf parent next items => exact ok.2.1
  | internal parent items =>
    obtain ⟨some,level,-,seg⟩ := ok
    exact segLt seg some

theorem nodeOkChild (ok : NodeOk nil lab label node) (inside : c ∈ node.children) : ∃ level low high,
    lab c = some ⟨level,low,high⟩ ∧ label.level = level + 1 ∧ label.lo ≤ low ∧ low < high ∧
    high ≤ label.hi := by
  cases node with
  | leaf parent next items => simp [Node.children] at inside
  | internal parent items =>
    obtain ⟨-,level,same,seg⟩ := ok
    obtain ⟨low,high,found,rest⟩ := segChild seg inside
    exact ⟨level,low,high,found,same,rest⟩

theorem nodeOkFrame (ok : NodeOk nil lab label node) (same : ∀ c ∈ node.children, lab' c = lab c)
    (next : label.level = 0 → ∀ c high, lab c = some ⟨0,label.hi,high⟩ → ∃ after, lab' c = some ⟨0,label.hi,after⟩) :
    NodeOk nil lab' label node := by
  cases node with
  | leaf parent after items =>
    obtain ⟨zero,lt,sorted,within,link⟩ := ok
    refine ⟨zero,lt,sorted,within,?_⟩
    rcases link with last | ⟨high,found⟩
    · exact .inl last
    · exact .inr (next zero _ _ found)
  | internal parent items =>
    obtain ⟨some,level,eq,seg⟩ := ok
    exact ⟨some,level,eq,segCongr same seg⟩

end

/-! ### Trees -/

structure Tree {P K V : Type} [LinearOrder K] (nil : P) (heap : P → Node P K V)
    (lab : P → Option (Label K)) (root : P) (height : Nat) : Prop where
  rootLabel : lab root = some ⟨height,⊥,⊤⟩
  rootParent : (heap root).parent = nil
  nilLabel : lab nil = none
  nodes : ∀ p label, lab p = some label → NodeOk nil lab label (heap p)
  down : ∀ p label c, lab p = some label → c ∈ (heap p).children → (heap c).parent = p
  up : ∀ p label, lab p = some label → p ≠ root → ∃ above, lab (heap p).parent = some above ∧
    above.level = label.level + 1 ∧ p ∈ (heap (heap p).parent).children
  bounded : ∀ p label, lab p = some label → label.level ≤ height

theorem labelNe {lab : P → Option α} (found : lab p = some a) (none : lab q = none) : p ≠ q := by
  rintro rfl
  rw [none] at found
  cases found

theorem levelNe {lab : P → Option (Label K)} (atP : lab p = some a) (atQ : lab q = some b)
    (different : a.level ≠ b.level) : p ≠ q := by
  rintro rfl
  exact different (congrArg Label.level (Option.some.inj (atP.symm.trans atQ)))

def Holds {P K V : Type} (heap : P → Node P K V) (lab : P → Option (Label K)) (item : K × V) : Prop :=
  ∃ p label, lab p = some label ∧ item ∈ (heap p).leafItems

namespace Tree
variable {P K V : Type} [LinearOrder K] {nil : P} {heap : P → Node P K V}
  {lab : P → Option (Label K)} {root : P} {height : Nat}

variable {p c q : P} {label a b : Label K} {other : P → Node P K V}

section
variable (tree : Tree nil heap lab root height)
include tree

theorem topIsRoot (found : lab p = some label) (top : label.level = height) : p = root := by
  by_contra other
  obtain ⟨above,found',level,-⟩ := tree.up p label found other
  have := tree.bounded _ _ found'
  omega

theorem rootOfNil (found : lab p = some label) (noParent : (heap p).parent = nil) : p = root := by
  by_contra other
  obtain ⟨above,found',-⟩ := tree.up p label found other
  rw [noParent,tree.nilLabel] at found'
  cases found'

theorem childLabel (found : lab p = some label) (child : c ∈ (heap p).children) : ∃ level low high,
    lab c = some ⟨level,low,high⟩ ∧ label.level = level + 1 ∧ label.lo ≤ low ∧ low < high ∧
    high ≤ label.hi :=
  nodeOkChild (tree.nodes p label found) child

theorem leafNode (atP : lab p = some ⟨0,lo,hi⟩) : ∃ parent next items, heap p = .leaf parent next items ∧
    Sorted items ∧ Within lo hi items ∧ NextOk nil lab next hi := by
  have ok := tree.nodes p _ atP
  cases node : heap p with
  | leaf parent next items =>
    rw [node] at ok
    exact ⟨parent,next,items,rfl,ok.2.2⟩
  | internal parent items =>
    rw [node] at ok
    obtain ⟨-,_,wrong,-⟩ := ok
    cases wrong

theorem internalNode (atP : lab p = some ⟨level + 1,lo,hi⟩) : ∃ parent items, heap p = .internal parent items ∧
    items ≠ [] ∧ Seg lab level lo items hi := by
  have ok := tree.nodes p _ atP
  cases node : heap p with
  | leaf parent next items =>
    rw [node] at ok
    cases ok.1
  | internal parent items =>
    rw [node] at ok
    obtain ⟨some,level',same,seg⟩ := ok
    obtain rfl : level = level' := Nat.succ.inj same
    exact ⟨parent,items,rfl,some,seg⟩

theorem segAt (atP : lab p = some ⟨level + 1,lo,hi⟩) (node : heap p = .internal parent items) :
    Seg lab level lo items hi := by
  obtain ⟨_,_,same,-,seg⟩ := tree.internalNode atP
  cases node.symm.trans same
  exact seg

theorem childNotRoot (found : lab p = some label) (child : c ∈ (heap p).children) : c ≠ root := by
  rintro rfl
  have parent := tree.down p label c found child
  rw [tree.rootParent] at parent
  exact labelNe found tree.nilLabel parent.symm

theorem childUnique (atP : lab p = some a) (atQ : lab q = some b)
    (first : c ∈ (heap p).children) (second : c ∈ (heap q).children) : p = q :=
  (tree.down p a c atP first).symm.trans (tree.down q b c atQ second)

/- Going up from the two pages, ranges only grow, so the ancestors share the key as well; the
induction is on the distance to the root, where there is only one page. -/
theorem unique (atP : lab p = some a) (atQ : lab q = some b) (sameLevel : a.level = b.level)
    (inP : a.Has x) (inQ : b.Has x) : p = q := by
  obtain ⟨d,distance⟩ : ∃ d, a.level + d = height :=
    ⟨height - a.level,by have := tree.bounded p a atP; omega⟩
  induction d generalizing p q a b with
  | zero => rw [tree.topIsRoot atP (by omega),tree.topIsRoot atQ (by omega)]
  | succ d ih =>
    have low : ∀ {e : P} {l : Label K}, lab e = some l → l.level = a.level → e ≠ root := by
      rintro e l found eq rfl
      cases some.inj (found.symm.trans tree.rootLabel)
      simp only at eq
      omega
    obtain ⟨above,foundA,levelA,childA⟩ := tree.up p a atP (low atP rfl)
    obtain ⟨above',foundB,levelB,childB⟩ := tree.up q b atQ (low atQ sameLevel.symm)
    obtain ⟨l,s,e,labelA,-,leftA,-,rightA⟩ := tree.childLabel foundA childA
    obtain ⟨l',s',e',labelB,-,leftB,-,rightB⟩ := tree.childLabel foundB childB
    cases some.inj (atP.symm.trans labelA)
    cases some.inj (atQ.symm.trans labelB)
    have same := ih foundA foundB (by omega) ⟨leftA.trans inP.1,inP.2.trans_le rightA⟩
      ⟨leftB.trans inQ.1,inQ.2.trans_le rightB⟩ (by simp only at *; omega)
    rw [← same] at childB
    have ok := tree.nodes _ _ foundA
    cases node : heap (heap p).parent with
    | leaf parent next items => simp [node,Node.children] at childA
    | internal parent items =>
      rw [node] at ok childA childB
      obtain ⟨-,level,-,seg⟩ := ok
      exact segUnique seg childA childB atP atQ inP inQ

theorem congr (same : ∀ p label, lab p = some label → other p = heap p) : Tree nil other lab root height := by
  have child : ∀ {p c : P} {label : Label K}, lab p = some label → c ∈ (heap p).children → other c = heap c := by
    intro p c label found inside
    obtain ⟨_,_,_,atC,-⟩ := tree.childLabel found inside
    exact same c _ atC
  refine ⟨tree.rootLabel,?_,tree.nilLabel,?_,?_,?_,tree.bounded⟩
  · rw [same root _ tree.rootLabel,tree.rootParent]
  · intro p label found
    rw [same p label found]
    exact tree.nodes p label found
  · intro p label c found inside
    rw [same p label found] at inside
    rw [child found inside]
    exact tree.down p label c found inside
  · intro p label found notRoot
    obtain ⟨above,atAbove,level,inside⟩ := tree.up p label found notRoot
    rw [same p label found,same _ _ atAbove]
    exact ⟨above,atAbove,level,inside⟩

end

omit [LinearOrder K] in
theorem holdsCongr (same : ∀ p label, lab p = some label → other p = heap p)
    (item : K × V) : Holds other lab item ↔ Holds heap lab item := by
  constructor <;> rintro ⟨p,label,found,inside⟩
  · exact ⟨p,label,found,same p label found ▸ inside⟩
  · exact ⟨p,label,found,(same p label found).symm ▸ inside⟩

theorem holdsAt (tree : Tree nil heap lab root height)
    (atP : lab p = some label) (zero : label.level = 0) (inside : label.Has (key k))
    (holds : Holds heap lab (k,v)) : (k,v) ∈ (heap p).leafItems := by
  obtain ⟨q,label',atQ,item⟩ := holds
  have ok := tree.nodes q _ atQ
  cases node : heap q with
  | internal parent items => simp [node,Node.leafItems] at item
  | leaf parent next items =>
    rw [node] at ok item
    have same : p = q := tree.unique atP atQ (zero.trans ok.1.symm) inside (ok.2.2.2.1 _ item)
    rw [same,node]
    exact item

end Tree
end MiniOb.PagedTree
