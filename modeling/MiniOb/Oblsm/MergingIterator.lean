import Mathlib.Data.List.Perm.Basic
import Mathlib.Order.Lattice

/-! `ObLsmIterator` and `ObMergingIterator` (`oblsm/include/ob_lsm_iterator.h`, `oblsm/table/ob_merger.cpp`).
An iterator is a state with the interface's calls; a call on a position that is not valid dereferences
nothing and answers `none`. -/
namespace MiniOb.Oblsm
open Prod (fst snd)
open List Option

structure ObLsmIterator (σ K V : Type) where
  valid : σ → Bool
  seekToFirst : σ → σ
  next : σ → Option σ
  key : σ → Option K
  value : σ → Option V

def Yields {σ K V : Type} (it : ObLsmIterator σ K V) : List (K × V) → σ → Prop
  | [],s => it.valid s = false
  | (k,v) :: rest,s => it.valid s = true ∧ it.key s = some k ∧ it.value s = some v ∧
      ∃ t,it.next s = some t ∧ Yields it rest t

structure MergingIterator (σ : Type) where
  children : List σ
  current : Option Nat := none

namespace MergingIterator
variable {σ K V : Type} (child : ObLsmIterator σ K V) (compare : K → K → Int)

def before (a b : σ) : Bool := match child.key a,child.key b with
  | some x,some y => compare x y < 0
  | _,_ => false

def smallestFrom : Nat → Option (Nat × σ) → List σ → Option (Nat × σ)
  | _,smallest,[] => smallest
  | i,smallest,c :: rest =>
    if child.valid c then match smallest with
      | none => smallestFrom (i + 1) (some (i,c)) rest
      | some (j,best) => smallestFrom (i + 1) (if before child compare c best then some (i,c) else some (j,best)) rest
    else smallestFrom (i + 1) smallest rest

def findSmallest (children : List σ) : MergingIterator σ :=
  ⟨children,(smallestFrom child compare 0 none children).map fst⟩

def currentChild (s : MergingIterator σ) : Option σ := s.current.bind fun i => s.children[i]?

def mergingIterator : ObLsmIterator (MergingIterator σ) K V where
  valid s := s.current.isSome
  seekToFirst s := findSmallest child compare (s.children.map child.seekToFirst)
  next s := do
    let i ← s.current
    let c ← s.children[i]?
    let moved ← child.next c
    some (findSmallest child compare (s.children.set i moved))
  key s := (currentChild s).bind child.key
  value s := (currentChild s).bind child.value

end MergingIterator

structure ListIterator (K V : Type) where
  entries : List (K × V)
  rest : List (K × V) := []

def listIterator (K V : Type) : ObLsmIterator (ListIterator K V) K V where
  valid s := !s.rest.isEmpty
  seekToFirst s := {s with rest := s.entries}
  next s := match s.rest with
    | [] => none
    | _ :: rest => some {s with rest}
  key s := s.rest.head?.map fst
  value s := s.rest.head?.map snd

theorem listYields {K V : Type} (s : ListIterator K V) : Yields (listIterator K V) s.rest s := by
  obtain ⟨entries,rest⟩ := s
  induction rest with
  | nil => rfl
  | cons entry rest ih => exact ⟨rfl,rfl,rfl,⟨entries,rest⟩,rfl,ih⟩

namespace MergingIterator
variable {σ K V : Type} {child : ObLsmIterator σ K V} {compare : K → K → Int}

section Smallest
variable [LinearOrder K]

def Chosen (child : ObLsmIterator σ K V) (seen : List σ) : Option (Nat × σ) → Prop
  | none => ∀ c ∈ seen,child.valid c = false
  | some (j,best) => seen[j]? = some best ∧ child.valid best = true ∧ ∃ k,child.key best = some k ∧
      ∀ c ∈ seen,child.valid c = true → ∀ x,child.key c = some x → k ≤ x

variable {seen : List σ} {smallest : Option (Nat × σ)} {c : σ}

theorem chosenKept (chosen : Chosen child seen smallest)
    (other : child.valid c = true → ∃ j best k x,smallest = some (j,best) ∧ child.key best = some k ∧ child.key c = some x ∧ k ≤ x) :
    Chosen child (seen ++ [c]) smallest := by
  cases smallest with
  | none =>
    intro d member
    rcases mem_append.mp member with old | new
    · exact chosen d old
    · cases mem_singleton.mp new
      cases valid : child.valid c with
      | false => rfl
      | true =>
        obtain ⟨j,best,k,x,none,_⟩ := other valid
        cases none
  | some pair =>
    obtain ⟨j,best⟩ := pair
    obtain ⟨found,valid,k,key,least⟩ := chosen
    have inside : j < seen.length := (List.getElem?_eq_some_iff.mp found).1
    refine ⟨by rw [List.getElem?_append_left inside,found],valid,k,key,fun d member there x keyed => ?_⟩
    rcases mem_append.mp member with old | new
    · exact least d old there x keyed
    · cases mem_singleton.mp new
      obtain ⟨_,_,k',x',same,key',keyed',le⟩ := other there
      cases some.inj same
      cases some.inj (key.symm.trans key')
      cases some.inj (keyed.symm.trans keyed')
      exact le

theorem chosenNew {k} (chosen : Chosen child seen smallest)
    (valid : child.valid c = true) (key : child.key c = some k)
    (less : ∀ j best x,smallest = some (j,best) → child.key best = some x → k ≤ x) :
    Chosen child (seen ++ [c]) (some (seen.length,c)) := by
  refine ⟨by simp,valid,k,key,fun d member there x keyed => ?_⟩
  rcases mem_append.mp member with old | new
  · cases smallest with
    | none => simp [chosen d old] at there
    | some pair =>
      obtain ⟨j,best⟩ := pair
      obtain ⟨_,_,y,keyBest,least⟩ := chosen
      exact le_trans (less j best y rfl keyBest) (least d old there x keyed)
  · cases mem_singleton.mp new
    cases some.inj (key.symm.trans keyed)
    exact le_refl _

theorem chosenRun (signs : ∀ x y,compare x y < 0 ↔ x < y) {rest}
    (keyed : ∀ c ∈ rest,child.valid c = true → ∃ k,child.key c = some k)
    (chosen : Chosen child seen smallest) :
    Chosen child (seen ++ rest) (smallestFrom child compare seen.length smallest rest) := by
  induction rest generalizing seen smallest with
  | nil => simpa [smallestFrom] using chosen
  | cons c rest ih =>
    have later : ∀ d ∈ rest,child.valid d = true → ∃ k,child.key d = some k :=
      fun d member => keyed d (mem_cons_of_mem _ member)
    have go : ∀ next,Chosen child (seen ++ [c]) next →
        Chosen child (seen ++ c :: rest) (smallestFrom child compare (seen.length + 1) next rest) := by
      intro next here
      have result := ih later here
      rwa [length_append,append_assoc] at result
    simp only [smallestFrom]
    split
    · rename_i valid
      obtain ⟨k,key⟩ := keyed c mem_cons_self valid
      cases smallest with
      | none => exact go _ (chosenNew chosen valid key fun _ _ _ none => by cases none)
      | some pair =>
        obtain ⟨j,best⟩ := pair
        have held := chosen
        obtain ⟨_,_,x,keyBest,_⟩ := held
        have order : before child compare c best = decide (k < x) := by
          simp only [before,key,keyBest,signs]
        apply go
        rw [order]
        by_cases less : k < x
        · simp only [less,decide_true,if_true]
          refine chosenNew chosen valid key fun _ _ y same keyed => ?_
          cases some.inj same
          cases some.inj (keyBest.symm.trans keyed)
          exact le_of_lt less
        · simp only [less,decide_false,Bool.false_eq_true,if_false]
          exact chosenKept chosen fun _ => ⟨j,best,x,k,rfl,keyBest,key,not_lt.mp less⟩
    · rename_i invalid
      exact go _ (chosenKept chosen fun valid => absurd valid invalid)

theorem chosenAll (signs : ∀ x y,compare x y < 0 ↔ x < y) {children}
    (keyed : ∀ c ∈ children,child.valid c = true → ∃ k,child.key c = some k) :
    Chosen child children (smallestFrom child compare 0 none children) := by
  have start : Chosen child [] none := fun c member => by cases member
  exact chosenRun signs keyed start

end Smallest

theorem flattenSet {lists : List (List (K × V))}
    (here : lists[j]? = some (e :: rest)) : lists.flatten.Perm (e :: (lists.set j rest).flatten) := by
  induction lists generalizing j with
  | nil => simp at here
  | cons l lists ih =>
    cases j with
    | zero =>
      simp only [List.getElem?_cons_zero,some.injEq] at here
      subst here
      exact List.Perm.refl _
    | succ j =>
      simp only [set_cons_succ,flatten_cons]
      exact ((ih here).append_left l).trans perm_middle

section Merge
variable [LinearOrder K]

structure Sources (child : ObLsmIterator σ K V) (sources : List (List (K × V) × σ)) : Prop where
  yields : ∀ source ∈ sources,Yields child source.1 source.2
  sorted : ∀ source ∈ sources,source.1.Pairwise fun a b => a.1 < b.1

variable {sources : List (List (K × V) × σ)} {e : K × V} {merged : List (K × V)}

theorem Sources.keyed (children : Sources child sources) :
    ∀ c ∈ sources.map snd,child.valid c = true → ∃ k,child.key c = some k := by
  intro c member valid
  obtain ⟨⟨entries,d⟩,source,rfl⟩ := mem_map.mp member
  have yields := children.yields _ source
  cases entries with
  | nil => simp [Yields,valid] at yields
  | cons e rest => exact ⟨e.1,yields.2.1⟩

theorem Sources.moved (children : Sources child sources) {j rest c t} (here : sources[j]? = some (e :: rest,c))
    (yields : Yields child rest t) :
    Sources child (sources.set j (rest,t)) := by
  constructor
  · intro source member
    rcases mem_or_eq_of_mem_set member with old | rfl
    · exact children.yields source old
    · exact yields
  · intro source member
    rcases mem_or_eq_of_mem_set member with old | rfl
    · exact children.sorted source old
    · exact (pairwise_cons.mp (children.sorted _ (mem_of_getElem? here))).2

theorem Sources.head (children : Sources child sources) {entries d}
    (source : (entries,d) ∈ sources) (member : e ∈ entries) :
    child.valid d = true ∧ ∃ x,child.key d = some x ∧ x ≤ e.1 := by
  have yields := children.yields _ source
  have order := children.sorted _ source
  cases entries with
  | nil => cases member
  | cons f rest =>
    refine ⟨yields.1,f.1,yields.2.1,?_⟩
    rcases mem_cons.mp member with same | later
    · exact le_of_eq (congrArg fst same.symm)
    · exact le_of_lt ((pairwise_cons.mp order).1 e later)

theorem chosenLeast (signs : ∀ x y,compare x y < 0 ↔ x < y) (children : Sources child sources)
    (sorted : (e :: merged).Pairwise fun a b => a.1 < b.1)
    (perm : (e :: merged).Perm (sources.map fst).flatten) :
    ∃ j rest c,smallestFrom child compare 0 none (sources.map snd) = some (j,c) ∧ sources[j]? = some (e :: rest,c) := by
  have chosen := chosenAll signs children.keyed
  obtain ⟨entries,listed,member⟩ := mem_flatten.mp (perm.subset mem_cons_self)
  obtain ⟨⟨entries,d⟩,source,rfl⟩ := mem_map.mp listed
  obtain ⟨valid,x,key,le⟩ := children.head source member
  have inside : d ∈ sources.map snd := mem_map.mpr ⟨_,source,rfl⟩
  generalize smallestFrom child compare 0 none (sources.map snd) = smallest at chosen
  cases smallest with
  | none => simp [chosen d inside] at valid
  | some pair =>
    obtain ⟨j,c⟩ := pair
    obtain ⟨found,validC,k,keyC,least⟩ := chosen
    obtain ⟨⟨entries',c'⟩,place,rfl⟩ := map_eq_some_iff.mp (List.getElem?_map ▸ found)
    have yields := children.yields _ (mem_of_getElem? place)
    cases entries' with
    | nil => simp [Yields,validC] at yields
    | cons f rest =>
      cases some.inj (keyC.symm.trans yields.2.1)
      have held : f ∈ (sources.map fst).flatten :=
        mem_flatten.mpr ⟨_,mem_map.mpr ⟨_,mem_of_getElem? place,rfl⟩,mem_cons_self⟩
      rcases mem_cons.mp (perm.symm.subset held) with same | later
      · subst same
        exact ⟨j,rest,_,rfl,place⟩
      · have above := (pairwise_cons.mp sorted).1 f later
        exact absurd (lt_of_lt_of_le above ((least d inside valid x key).trans le)) (lt_irrefl _)

theorem mergingYields (signs : ∀ x y,compare x y < 0 ↔ x < y)
    (children : Sources child sources) (sorted : merged.Pairwise fun a b => a.1 < b.1)
    (perm : merged.Perm (sources.map fst).flatten) :
    Yields (mergingIterator child compare) merged (findSmallest child compare (sources.map snd)) := by
  induction merged generalizing sources with
  | nil =>
    have chosen := chosenAll signs children.keyed
    have empty : ∀ source ∈ sources,source.1 = [] := by
      intro source member
      exact flatten_eq_nil_iff.mp perm.nil_eq.symm _ (mem_map.mpr ⟨source,member,rfl⟩)
    simp only [Yields,mergingIterator,findSmallest]
    generalize smallestFrom child compare 0 none (sources.map snd) = smallest at chosen
    cases smallest with
    | none => rfl
    | some pair =>
      obtain ⟨found,valid,_⟩ := chosen
      obtain ⟨⟨entries,c'⟩,place,rfl⟩ := map_eq_some_iff.mp (List.getElem?_map ▸ found)
      have member := mem_of_getElem? place
      have yields := children.yields _ member
      cases empty _ member
      simp [Yields,valid] at yields
  | cons e merged ih =>
    obtain ⟨j,rest,c,smallest,place⟩ := chosenLeast signs children sorted perm
    obtain ⟨valid,key,value,t,moved,yields⟩ := children.yields _ (mem_of_getElem? place)
    have lists : (sources.map fst)[j]? = some (e :: rest) := by simp [place]
    have left : merged.Perm ((sources.set j (rest,t)).map fst).flatten := by
      rw [map_set]
      exact (perm.trans (flattenSet lists)).cons_inv
    have later := ih (children.moved place yields) (pairwise_cons.mp sorted).2 left
    rw [map_set] at later
    refine ⟨?_,?_,?_,findSmallest child compare ((sources.map snd).set j t),?_,later⟩
    · simp [mergingIterator,findSmallest,smallest]
    · simp [mergingIterator,findSmallest,smallest,currentChild,place,key]
    · simp [mergingIterator,findSmallest,smallest,currentChild,place,value]
    · simp [mergingIterator,findSmallest,smallest,place,moved]

end Merge
end MergingIterator
end MiniOb.Oblsm
