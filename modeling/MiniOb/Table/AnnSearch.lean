import MiniOb.Lib.Sorting
import MiniOb.Table.IvfflatIndex
import MiniOb.Table.VectorDistance

/-! `ann_search` of an IVF-Flat index, the training of its centroids, and deletions after insertions. -/
namespace MiniOb.IvfflatIndex
open Prod (fst snd)
open Sorting List

variable {dim : Nat} {F : Type} {ops : Arithmetic F}

def metricOf (ops : Arithmetic F) : Metric (Fin dim → F) where
  near method vec centroid := ops.less (computeDistance ops method vec centroid) (ops.ofRat floatMax)
  closer method vec centroid other := ops.less (computeDistance ops method vec centroid) (computeDistance ops method vec other)

/-! ### Deleting what was inserted -/

section
variable {V : Type} {metric : Metric V}

theorem nearestNone {method vec best i centroids} : nearestFrom metric method vec best i centroids = none ↔
    best = none ∧ ∀ centroid ∈ centroids, metric.near method vec centroid = false := by
  induction centroids generalizing best i with
  | nil => simp [nearestFrom]
  | cons centroid rest ih =>
    simp only [nearestFrom,ih]
    cases best with
    | none => cases near : metric.near method vec centroid <;> simp [near]
    | some other =>
      dsimp only
      split <;> simp

theorem nearestBelow {method vec best i centroids found} (start : ∀ j c, best = some (j,c) → j < i)
    (here : nearestFrom metric method vec best i centroids = some found) : found < i + centroids.length := by
  induction centroids generalizing best i with
  | nil =>
    obtain ⟨⟨j,c⟩,same,rfl⟩ := Option.map_eq_some_iff.mp here
    exact start j c same
  | cons centroid rest ih =>
    have step : ∀ better j c, (if better = true then some (i,centroid) else best) = some (j,c) → j < i + 1 := by
      intro better j c same
      split at same
      · cases same
        exact Nat.lt_succ_self i
      · exact (start j c same).trans (Nat.lt_succ_self i)
    have next := ih (step _) here
    rw [length_cons]
    omega

theorem noCentroidIff {index : IvfflatIndex V} : index.findNearestCentroid metric vec = none ↔
    ∀ centroid ∈ index.centroids, metric.near index.distanceMethod vec centroid = false := by
  have some : index.centroids ≠ [] := fun none => by
    have positive := index.positive
    rw [← index.trained,none] at positive
    cases positive
  rw [findNearestCentroid,if_neg some]
  cases found : nearestFrom metric index.distanceMethod vec none 0 index.centroids with
  | none => exact ⟨fun _ => (nearestNone.mp found).2,fun _ => rfl⟩
  | some i =>
    have inside := nearestBelow (fun _ _ same => by cases same) found
    rw [index.trained,← index.listed,Nat.zero_add] at inside
    refine ⟨fun gone => ?_,fun far => ?_⟩
    · simp only [Option.filter_some,decide_eq_true inside] at gone
      cases gone
    · rw [nearestNone.mpr ⟨rfl,far⟩] at found
      cases found

theorem eraseAppended {lists : List (List (V × RID))} (absent : ∀ item ∈ lists.flatten, item.2 ≠ rid) :
    (lists.modify i fun list => list ++ [(vec,rid)]).modify i (fun list => list.eraseP fun item => item.2 = rid) = lists := by
  refine ext_getElem? fun j => ?_
  rw [modify_modify_eq,getElem?_modify]
  split
  · rename_i same
    subst same
    cases here : lists[i]? with
    | none => rfl
    | some list =>
      have absent' : ∀ item ∈ list, ¬decide (item.2 = rid) = true := fun item inside => by
        simpa using absent item (mem_flatten_of_mem (mem_of_getElem? here) inside)
      simp [eraseP_append_right _ absent']
  · exact Option.map_id'

def Undone (metric : Metric V) (index : IvfflatIndex V) (vec : V) (rid : RID) : Prop :=
  ∃ between after, insertEntry metric vec rid index = (.ok (),between) ∧ deleteEntry metric vec rid between = (.ok (),after) ∧
    after.entries.Perm index.entries

theorem undoneIff {index : IvfflatIndex V} (absent : ∀ item ∈ index.entries, item.2 ≠ rid) :
    Undone metric index vec rid ↔ index.findNearestCentroid metric vec ≠ none := by
  obtain ⟨between,inserted⟩ : ∃ between, (insertEntry metric vec rid index).2 = between := ⟨_,rfl⟩
  have run : insertEntry metric vec rid index = (.ok (),between) := inserted ▸ rfl
  have again : between.findNearestCentroid metric vec = index.findNearestCentroid metric vec := by
    simp [← inserted,insertEntry,findNearestCentroid]
  constructor
  · rintro ⟨between',after,run',deleted,-⟩ none
    cases run.symm.trans run'
    rw [deleteEntry,again,none] at deleted
    cases deleted
  · intro found
    obtain ⟨i,nearest⟩ := Option.ne_none_iff_exists'.mp found
    have lists : between.invertedLists = index.invertedLists.modify i fun list => list ++ [(vec,rid)] := by
      rw [← inserted]
      show index.invertedLists.modify ((index.findNearestCentroid metric vec).getD 0) _ = _
      rw [nearest,Option.getD_some]
    have inside := index.nearestInside metric vec
    rw [nearest,Option.getD_some] at inside
    have there : ((between.invertedLists[i]?.getD []).any fun item => item.2 = rid) = true := by
      simp [lists,inside]
    refine ⟨between,_,run,by rw [deleteEntry,again,nearest]; dsimp only; rw [if_pos there],?_⟩
    simp only [entries,lists,eraseAppended absent]
    exact .refl _

end

/-! ### Creation and search -/

/- `draw` gives the vectors that `train_kmeans` picks at random, one after another. -/
structure Training (V : Type) where
  centroids : List V
  assignments : List (Option Nat)
  drawn : Nat

variable (ops) in
def mean (vectors : List (Fin dim → F)) : Fin dim → F := fun j =>
  ops.div (vectors.foldl (fun sum vec => ops.add sum (vec j)) (ops.ofRat 0)) (ops.ofRat vectors.length)

namespace Training
variable (ops) (draw : Nat → Fin dim → F)

def update (vectors : List (Fin dim → F)) (assignments : List (Option Nat)) (t : Training (Fin dim → F)) (c : Nat) :
    Training (Fin dim → F) :=
  match (vectors.zip assignments).filter fun pair => pair.2 = some c with
  | [] => { t with centroids := t.centroids.set c (draw t.drawn), drawn := t.drawn + 1 }
  | members => { t with centroids := t.centroids.set c (mean ops (members.map fst)) }

def iterate (method : String) (vectors : List (Fin dim → F)) : Nat → Training (Fin dim → F) → Training (Fin dim → F)
  | 0,t => t
  | n + 1,t =>
    let assignments := vectors.map fun vec => nearestFrom (metricOf ops) method vec none 0 t.centroids
    if assignments = t.assignments then t
    else iterate method vectors n
      ((range t.centroids.length).foldl (update ops draw vectors assignments) { t with assignments := assignments })

end Training

section
variable (ops) (draw : Nat → Fin dim → F)

def trainKmeans (method : String) (vectors : List (Fin dim → F)) (lists : Nat) : List (Fin dim → F) :=
  (Training.iterate ops draw method vectors 20 ⟨(range lists).map draw,vectors.map fun _ => some 0,lists⟩).centroids

def insertRecords (metric : Metric V) (records : List (V × RID)) (index : IvfflatIndex V) : IvfflatIndex V :=
  records.foldl (fun index record => (insertEntry metric record.1 record.2 index).2) index

/- On an empty table the centroids are zero. -/
def createOn (method : String) (lists probes : Int32) (records : List ((Fin dim → F) × RID)) : Except RC (IvfflatIndex (Fin dim → F)) :=
  let trained := trainKmeans ops draw (if method = "" then "euclidean" else method) (records.map fst)
    (natOf (listCount lists records.length))
  match create method lists probes records.length fun i =>
      if records.isEmpty then fun _ => ops.ofRat 0 else trained.getD i fun _ => ops.ofRat 0 with
  | .error code => .error code
  | .ok index => .ok (insertRecords (metricOf ops) records index)

/-- An index made of `records`: what was put into it so far, and the RIDs of the deletions that succeeded. -/
inductive Reached (method : String) (lists probes : Int32) (records : List ((Fin dim → F) × RID)) :
    List ((Fin dim → F) × RID) → List RID → IvfflatIndex (Fin dim → F) → Prop
  | created {index} (ok : createOn ops draw method lists probes records = .ok index) : Reached method lists probes records records [] index
  | inserted {added gone index} (vec : Fin dim → F) (rid : RID) (before : Reached method lists probes records added gone index) :
      Reached method lists probes records (added ++ [(vec,rid)]) gone (insertEntry (metricOf ops) vec rid index).2
  | deleted {added gone index next vec rid} (before : Reached method lists probes records added gone index)
      (ok : deleteEntry (metricOf ops) vec rid index = (.ok (),next)) : Reached method lists probes records added (gone ++ [rid]) next

end

section
variable (ops) (sort : SortFunction) (index : IvfflatIndex (Fin dim → F)) (query : Fin dim → F)

def distance (vec : Fin dim → F) : F := computeDistance ops index.distanceMethod query vec

def findNearestCentroids (probes : Int32) : List Nat :=
  let distances := index.centroids.zipIdx.map fun pair => (index.distance ops query pair.1,pair.2)
  ((sort (F × Nat) (fun a b => ops.less a.1 b.1) distances).take (min (natOf probes) distances.length)).map snd

def candidate (item : (Fin dim → F) × RID) : RID × F := (item.2,index.distance ops query item.1)

def annSearch (limit : Nat) : List RID :=
  if index.centroids.isEmpty then []
  else
    let candidates := (index.findNearestCentroids ops sort query index.probes).flatMap fun cluster =>
      (index.invertedLists[cluster]?.getD []).map (index.candidate ops query)
    ((sort (RID × F) (fun a b => ops.less a.2 b.2) candidates).take limit).map fst

end

/-- No entry left out is nearer, and distances do not decrease; what is not a number is no distance. -/
def Nearest (ops : Arithmetic F) (distance : V → F) (entries : List (V × RID)) (limit : Nat) (answer : List RID) : Prop :=
  ∃ chosen rest : List (V × RID), (chosen ++ rest).Perm entries ∧ chosen.length = min limit entries.length ∧ answer = chosen.map snd ∧
    chosen.Pairwise (fun a b => ops.atMost (distance a.1) (distance b.1) = true) ∧
    ∀ a ∈ chosen, ∀ b ∈ rest, ops.atMost (distance a.1) (distance b.1) = true

section
variable {sort : SortFunction} {index : IvfflatIndex (Fin dim → F)} {query : Fin dim → F}

theorem centroidKeys : (index.centroids.zipIdx.map fun pair => (index.distance ops query pair.1,pair.2)).map fst =
    index.centroids.map (index.distance ops query) := by
  conv_rhs => rw [← zipIdx_map_fst 0 index.centroids]
  rw [map_map,map_map]
  rfl

theorem probesAll (sorts : Sorts sort) (enough : natOf index.lists ≤ natOf index.probes)
    (weak : StrictWeakOn (index.centroids.map (index.distance ops query)) ops.less) :
    (index.findNearestCentroids ops sort query index.probes).Perm (range index.invertedLists.length) := by
  unfold findNearestCentroids
  dsimp only
  generalize listed : index.centroids.zipIdx.map (fun pair => (index.distance ops query pair.1,pair.2)) = distances
  have keys : distances.map fst = index.centroids.map (index.distance ops query) := by
    rw [← listed,centroidKeys]
  have numbers : distances.map snd = range index.invertedLists.length := by
    rw [← listed,map_map]
    show index.centroids.zipIdx.map snd = _
    rw [zipIdx_map_snd,index.trained,index.listed,range_eq_range']
  have perm := (sorts _ _ _ (strictWeakKey.mp (keys ▸ weak))).1
  have count : distances.length = natOf index.lists := by
    rw [← length_map,numbers,length_range,index.listed]
  rw [take_of_length_le,← numbers]
  · exact perm.map snd
  · rw [perm.length_eq,count]
    exact le_min enough le_rfl

theorem listsInTurn {α β : Type} (lists : List (List α)) (f : α → β) :
    ((range lists.length).flatMap fun c => (lists[c]?.getD []).map f) = lists.flatten.map f := by
  have each : (range lists.length).map (fun c => lists[c]?.getD []) = lists := by
    refine ext_getElem (by simp) fun i inside inside' => ?_
    simp [getElem?_eq_getElem inside']
  conv_rhs => rw [← each,map_flatten,map_map,← flatMap_def]
  rfl

variable (ops) in
theorem lessSelf (x : F) : ops.less x x = false := by
  cases number : ops.isNan x with
  | true => exact ops.lessNan x x (.inl number)
  | false => exact (ops.ordered [x] (by simpa using number)).irrefl x (by simp)

theorem lessWeak {list : List F} (numbers : list.length ≤ 1 ∨ ∀ x ∈ list, ops.isNan x = false) : StrictWeakOn list ops.less := by
  rcases numbers with few | numbers
  · match list,few with
    | [],_ => exact ops.ordered [] (by simp)
    | [x],_ => constructor <;> simp [lessSelf ops x]
  · exact ops.ordered list numbers

theorem hasCentroids (index : IvfflatIndex (Fin dim → F)) : ¬index.centroids.isEmpty = true := by
  rw [List.isEmpty_iff,← length_eq_zero_iff,index.trained]
  exact index.positive.ne'

theorem searchNearest (sorts : Sorts sort) (enough : natOf index.lists ≤ natOf index.probes)
    (weak : StrictWeakOn (index.centroids.map (index.distance ops query)) ops.less)
    (numbers : index.entries.length ≤ 1 ∨ ∀ item ∈ index.entries, ops.isNan (index.distance ops query item.1) = false) (limit : Nat) :
    Nearest ops (index.distance ops query) index.entries limit (index.annSearch ops sort query limit) := by
  rw [annSearch,if_neg index.hasCentroids]
  dsimp only
  generalize found : (index.findNearestCentroids ops sort query index.probes).flatMap (fun cluster =>
    (index.invertedLists[cluster]?.getD []).map (index.candidate ops query)) = candidates
  have all : candidates.Perm (index.entries.map (index.candidate ops query)) := by
    rw [← found,entries,← listsInTurn]
    exact (probesAll sorts enough weak).flatMap_right _
  have comparable : StrictWeakOn (candidates.map snd) ops.less := by
    refine lessWeak (numbers.imp (fun few => ?_) fun numbers x inside => ?_)
    · rwa [length_map,all.length_eq,length_map]
    · obtain ⟨item,inside',rfl⟩ := mem_map.mp ((all.map snd).mem_iff.mp inside)
      obtain ⟨entry,inside'',rfl⟩ := mem_map.mp inside'
      exact numbers entry inside''
  obtain ⟨perm,ordered⟩ := sorts _ _ _ (strictWeakKey.mp comparable)
  -- the sorted candidates are those of the entries in some order
  obtain ⟨inOrder,same,perm'⟩ : Relation.Comp (· = map (index.candidate ops query) ·) (· ~ ·)
      (sort _ (fun a b => ops.less a.2 b.2) candidates) index.entries := by
    rw [eq_map_comp_perm]
    exact perm.trans all
  rw [same,pairwise_map] at ordered
  rw [same]
  have nearer : inOrder.Pairwise fun a b => ops.atMost (index.distance ops query a.1) (index.distance ops query b.1) = true := by
    rcases numbers with few | numbers
    · rw [← perm'.length_eq] at few
      obtain _ | ⟨x,_ | ⟨y,rest⟩⟩ := inOrder
      · exact .nil
      · exact pairwise_singleton _ _
      · simp at few
    · refine ordered.imp_of_mem fun {a b} inA inB notLess => ?_
      have numberA := numbers a (perm'.mem_iff.mp inA)
      have numberB := numbers b (perm'.mem_iff.mp inB)
      change ops.less (index.distance ops query b.1) (index.distance ops query a.1) = false at notLess
      simp [Arithmetic.atMost,numberA,numberB,notLess]
  refine ⟨inOrder.take limit,inOrder.drop limit,by rwa [take_append_drop],by rw [length_take,perm'.length_eq],?_,
    nearer.sublist (take_sublist _ _),?_⟩
  · rw [← map_take,map_map]
    rfl
  · rw [← take_append_drop limit inOrder] at nearer
    exact fun a inA b inB => (pairwise_append.mp nearer).2.2 a inA b inB

theorem atMostNumbers (less : ops.atMost a b = true) : ops.isNan a = false ∧ ops.isNan b = false := by
  simp only [Arithmetic.atMost,Bool.and_eq_true,Bool.not_eq_eq_eq_not,Bool.not_true] at less
  exact less.1

theorem nearestNumbers {distance : V → F} {entries answer} (nearest : Nearest ops distance entries limit answer) (some : 0 < limit)
    (several : 1 < entries.length) : ∀ item ∈ entries, ops.isNan (distance item.1) = false := by
  obtain ⟨chosen,rest,perm,count,-,ordered,nearer⟩ := nearest
  have total := perm.length_eq
  rw [length_append] at total
  intro item inside
  rcases mem_append.mp (perm.mem_iff.mpr inside) with chose | left
  · obtain ⟨before,after,rfl⟩ := append_of_mem chose
    rw [length_append,length_cons] at total count
    -- another entry stands before the item, after it or is left out
    rcases before with _ | ⟨first,before⟩
    · rcases after with _ | ⟨next,after⟩
      · obtain ⟨other,more⟩ := exists_mem_of_length_pos (l := rest) (by simp at total; omega)
        exact (atMostNumbers (nearer _ chose _ more)).1
      · exact (atMostNumbers ((pairwise_cons.mp ordered).1 next mem_cons_self)).1
    · exact (atMostNumbers ((pairwise_cons.mp ordered).1 item (mem_append_right _ mem_cons_self))).2
  · obtain ⟨other,chose⟩ := exists_mem_of_length_pos (l := chosen) (by omega)
    exact (atMostNumbers (nearer _ chose _ left)).2

open Classical in
/-- A sort that keeps its promise and nothing else. -/
noncomputable def sortPromised (α : Type) (less : α → α → Bool) (list : List α) : List α :=
  if StrictWeakOn list less then sortAll α less list else []

theorem sortPromisedSorts : Sorts sortPromised := fun α less list weak => by
  rw [sortPromised,if_pos weak]
  exact sortAllSorts α less list weak

theorem promisedWeak (several : 0 < index.entries.length) (some : 0 < limit)
    (nearest : Nearest ops (index.distance ops query) index.entries limit (index.annSearch ops sortPromised query limit)) :
    StrictWeakOn (index.centroids.map (index.distance ops query)) ops.less := by
  by_contra unordered
  have lost : index.annSearch ops sortPromised query limit = [] := by
    have none : index.findNearestCentroids ops sortPromised query index.probes = [] := by
      rw [findNearestCentroids,sortPromised,if_neg fun weak => unordered (centroidKeys ▸ strictWeakKey.mpr weak)]
      simp
    rw [annSearch,if_neg index.hasCentroids,none]
    simp [sortPromised,sortAll]
  obtain ⟨chosen,rest,-,count,answer,-⟩ := nearest
  rw [lost,eq_comm,map_eq_nil_iff] at answer
  rw [answer,length_nil] at count
  omega

/-- The distances of the query can be ranked. -/
structure Ranked (ops : Arithmetic F) (index : IvfflatIndex (Fin dim → F)) (query : Fin dim → F) : Prop where
  centroids : StrictWeakOn (index.centroids.map (index.distance ops query)) ops.less
  entries : index.entries.length ≤ 1 ∨ ∀ item ∈ index.entries, ops.isNan (index.distance ops query item.1) = false

theorem searchIff (enough : natOf index.lists ≤ natOf index.probes) (limit : Nat) :
    (∀ sort, Sorts sort → Nearest ops (index.distance ops query) index.entries limit (index.annSearch ops sort query limit)) ↔
      limit = 0 ∨ index.entries = [] ∨ Ranked ops index query := by
  constructor
  · intro nearest
    by_contra! unranked
    obtain ⟨some,present,unranked⟩ := unranked
    have nearest := nearest _ sortPromisedSorts
    refine unranked ⟨promisedWeak (length_pos_iff.mpr present) (Nat.pos_of_ne_zero some) nearest,?_⟩
    rw [or_iff_not_imp_left,not_le]
    exact nearestNumbers nearest (Nat.pos_of_ne_zero some)
  · rintro (rfl | empty | ⟨weak,numbers⟩) sort sorts
    · refine ⟨[],index.entries,.refl _,by simp,?_,.nil,by simp⟩
      rw [annSearch,if_neg index.hasCentroids]
      rfl
    · have none : ∀ cluster : Nat, (index.invertedLists[cluster]?.getD []).map (index.candidate ops query) = [] := fun cluster => by
        cases here : index.invertedLists[cluster]? with
        | none => rfl
        | some list => rw [Option.getD_some,flatten_eq_nil_iff.mp empty list (mem_of_getElem? here),map_nil]
      have sorted := (sorts (RID × F) (fun a b => ops.less a.2 b.2) [] (by constructor <;> simp)).1
      refine ⟨[],[],by rw [empty]; exact .refl _,by simp [empty],?_,.nil,by simp⟩
      rw [annSearch,if_neg index.hasCentroids]
      simp only [none]
      rw [flatMap_eq_nil_iff.mpr fun _ _ => rfl,sorted.eq_nil,take_nil]
      rfl
    · exact searchNearest sorts enough weak numbers limit

end

theorem eraseFlatten {α : Type} {lists : List (List α)} {i : Nat} {p} (there : (lists[i]?.getD []).any p = true) :
    ∃ item, p item = true ∧ lists.flatten.Perm (item :: (lists.modify i fun list => list.eraseP p).flatten) := by
  induction lists generalizing i with
  | nil => simp at there
  | cons first rest ih =>
    cases i with
    | zero =>
      change first.any p = true at there
      obtain ⟨item,inside,holds⟩ := any_eq_true.mp there
      obtain ⟨found,before,after,-,holds,rfl,erased⟩ := exists_of_eraseP inside holds
      refine ⟨found,holds,?_⟩
      rw [modify_zero_cons,flatten_cons,flatten_cons,erased,append_assoc,cons_append,append_assoc]
      exact perm_middle
    | succ i =>
      obtain ⟨item,holds,perm⟩ := ih (i := i) (by simpa using there)
      refine ⟨item,holds,?_⟩
      simp only [modify_succ_cons,flatten_cons]
      exact (perm.append_left first).trans perm_middle

theorem deleteRemoves {V : Type} {metric : Metric V} {index next : IvfflatIndex V} {vec rid}
    (ok : deleteEntry metric vec rid index = (.ok (),next)) :
    next.lists = index.lists ∧ next.probes = index.probes ∧ ∃ item, item.2 = rid ∧ index.entries.Perm (item :: next.entries) := by
  unfold deleteEntry at ok
  split at ok
  · cases ok
  · split at ok
    · rename_i there
      cases ok
      obtain ⟨item,holds,perm⟩ := eraseFlatten there
      exact ⟨rfl,rfl,item,of_decide_eq_true holds,perm⟩
    · cases ok

theorem insertAll {V : Type} (metric : Metric V) (records : List (V × RID)) (index : IvfflatIndex V) :
    ∃ next, insertRecords metric records index = next ∧ next.lists = index.lists ∧
      next.probes = index.probes ∧ next.entries.Perm (index.entries ++ records) := by
  induction records generalizing index with
  | nil => exact ⟨index,rfl,rfl,rfl,by simp⟩
  | cons record rest ih =>
    obtain ⟨next,ran,lists,probes,perm⟩ := ih (insertEntry metric record.1 record.2 index).2
    obtain ⟨_,inserted,one⟩ := insertAdds metric index record.1 record.2
    obtain rfl := congrArg snd inserted
    refine ⟨next,ran,lists,probes,perm.trans ?_⟩
    rw [append_cons]
    exact one.append_right rest

theorem createdProbes {V : Type} {method lists probes records} {centroids : Nat → V} {index : IvfflatIndex V}
    (created : create method lists probes records centroids = .ok index) (enough : natOf lists ≤ natOf probes) :
    natOf index.lists ≤ natOf index.probes := by
  unfold create at created
  split at created
  · rename_i asked
    cases created
    have fewer : natOf (listCount lists records) ≤ natOf lists := by
      unfold listCount
      split
      · exact le_rfl
      · have bound := lists.toInt_lt
        rw [natOfOfNat (by unfold natOf at *; omega)]
        omega
    dsimp only
    rw [if_pos (asked.trans_le enough)]
    split
    · exact fewer
    · exact fewer.trans enough
  · cases created

theorem Reached.insertedAll {draw : Nat → Fin dim → F} {method lists probes records added gone index}
    (before : Reached ops draw method lists probes records added gone index) (more : List ((Fin dim → F) × RID)) :
    Reached ops draw method lists probes records (added ++ more) gone (insertRecords (metricOf ops) more index) := by
  induction more generalizing added index with
  | nil => rwa [append_nil]
  | cons record rest ih =>
    rw [append_cons]
    exact ih (before.inserted record.1 record.2)

theorem reachedKeeps {draw : Nat → Fin dim → F} {method lists probes records added gone index} (enough : natOf lists ≤ natOf probes)
    (reached : Reached ops draw method lists probes records added gone index) : natOf index.lists ≤ natOf index.probes ∧
      ∃ removed : List ((Fin dim → F) × RID), removed.map snd = gone ∧ (removed ++ index.entries).Perm added := by
  induction reached with
  | created ok =>
    unfold createOn at ok
    dsimp only at ok
    split at ok
    · cases ok
    · rename_i start created
      obtain ⟨next,ran,lists',probes',perm⟩ := insertAll (metricOf ops) records start
      rw [ran] at ok
      cases ok
      rw [createEntries created,nil_append] at perm
      rw [lists',probes']
      exact ⟨createdProbes created enough,[],rfl,perm⟩
  | @inserted _ _ before vec rid _ ih =>
    obtain ⟨probed,removed,names,perm⟩ := ih
    obtain ⟨_,inserted,one⟩ := insertAdds (metricOf ops) before vec rid
    obtain rfl := congrArg snd inserted
    refine ⟨probed,removed,names,(one.append_left removed).trans ?_⟩
    rw [← append_assoc]
    exact perm.append_right _
  | deleted before ok ih =>
    obtain ⟨probed,removed,names,perm⟩ := ih
    obtain ⟨lists',probes',item,named,one⟩ := deleteRemoves ok
    rw [lists',probes']
    refine ⟨probed,removed ++ [item],by rw [map_append,names,map_singleton,named],?_⟩
    rw [append_assoc,singleton_append]
    exact (one.symm.append_left removed).trans perm

theorem annSearchIff {draw : Nat → Fin dim → F} {method lists probes records added gone index} (enough : natOf lists ≤ natOf probes)
    (reached : Reached ops draw method lists probes records added gone index) (query : Fin dim → F) (limit : Nat) :
    (∃ removed : List ((Fin dim → F) × RID), removed.map snd = gone ∧ (removed ++ index.entries).Perm added) ∧
      ((∀ sort, Sorts sort → Nearest ops (index.distance ops query) index.entries limit (index.annSearch ops sort query limit)) ↔
        limit = 0 ∨ index.entries = [] ∨ Ranked ops index query) := by
  obtain ⟨probed,accounted⟩ := reachedKeeps enough reached
  exact ⟨accounted,searchIff probed limit⟩

theorem deletesInsertedIff {index : IvfflatIndex (Fin dim → F)} {vec rid} (absent : ∀ item ∈ index.entries, item.2 ≠ rid) :
    Undone (metricOf ops) index vec rid ↔
      ∃ centroid ∈ index.centroids, ops.less (computeDistance ops index.distanceMethod vec centroid) (ops.ofRat floatMax) = true := by
  rw [undoneIff absent,ne_eq,noCentroidIff]
  simp [metricOf]

/-! ### Runs without rounding -/

abbrev unrounded : Arithmetic Number := Number.arithmetic id

def point (x : Rat) : Fin 1 → Number := fun _ => .finite x

def tenApart : List ((Fin 1 → Number) × RID) := [(point 0,⟨1,0⟩),(point 10,⟨1,1⟩)]

def between : List ((Fin 1 → Number) × RID) := [(point 3,⟨1,2⟩),(point 8,⟨1,3⟩)]

/-- The numbers in each list. -/
def placed (index : IvfflatIndex V) : List (List RID) := index.invertedLists.map (·.map snd)

def RankedOn (index : IvfflatIndex (Fin 1 → Number)) (query : Fin 1 → Number) : Prop :=
  (∀ vec ∈ index.centroids, index.distance unrounded query vec ≠ .nan) ∧
    ∀ item ∈ index.entries, index.distance unrounded query item.1 ≠ .nan
  deriving Decidable

theorem RankedOn.ranked {index : IvfflatIndex (Fin 1 → Number)} (on : RankedOn index query) : Ranked unrounded index query :=
  ⟨unrounded.ordered _ (by simpa [unrounded,Number.arithmetic] using on.1),.inr (by simpa [unrounded,Number.arithmetic] using on.2)⟩

theorem fourRanked : natOf 2 ≤ natOf 2 ∧ ∃ index,
    Reached unrounded (fun i => point (10 * i)) "euclidean" 2 2 tenApart (tenApart ++ between) [] index ∧
      index.placed = [[⟨1,0⟩,⟨1,2⟩],[⟨1,1⟩,⟨1,3⟩]] ∧ index.annSearch unrounded sortAll (point 2) 3 = [⟨1,2⟩,⟨1,0⟩,⟨1,3⟩] ∧
      Nearest unrounded (index.distance unrounded (point 2)) index.entries 3 [⟨1,2⟩,⟨1,0⟩,⟨1,3⟩] := by
  obtain ⟨index,created,lists,answer,ranked⟩ : ∃ index,
      createOn unrounded (fun i => point (10 * i)) "euclidean" 2 2 tenApart = .ok index ∧
        (insertRecords (metricOf unrounded) between index).placed = [[⟨1,0⟩,⟨1,2⟩],[⟨1,1⟩,⟨1,3⟩]] ∧
        (insertRecords (metricOf unrounded) between index).annSearch unrounded sortAll (point 2) 3 = [⟨1,2⟩,⟨1,0⟩,⟨1,3⟩] ∧
        RankedOn (insertRecords (metricOf unrounded) between index) (point 2) :=
    ⟨_,rfl,by decide +kernel,by decide +kernel,by decide +kernel⟩
  have reached := (Reached.created created).insertedAll between
  refine ⟨le_rfl,_,reached,lists,answer,?_⟩
  rw [← answer]
  exact (annSearchIff le_rfl reached (point 2) 3).2.mpr (.inr (.inr ranked.ranked)) sortAll sortAllSorts

def withNan : List ((Fin 1 → Number) × RID) := [(fun _ => .nan,⟨1,0⟩),(point 5,⟨1,1⟩),(point 1,⟨1,2⟩)]

/- Nothing is less than a distance that is no number: the entry stays at the front. -/
theorem nanFirst : ∃ index, Reached unrounded (fun _ => point 0) "euclidean" 1 1 [] withNan [] index ∧
    index.annSearch unrounded sortAll (point 0) 1 = [⟨1,0⟩] ∧
    index.entries.map (fun item => index.distance unrounded (point 0) item.1) = [.nan,.finite 25,.finite 1] ∧
    ¬Nearest unrounded (index.distance unrounded (point 0)) index.entries 1 (index.annSearch unrounded sortAll (point 0) 1) := by
  obtain ⟨index,created,answer,distances⟩ : ∃ index, createOn unrounded (fun _ => point 0) "euclidean" 1 1 [] = .ok index ∧
      (insertRecords (metricOf unrounded) withNan index).annSearch unrounded sortAll (point 0) 1 = [⟨1,0⟩] ∧
      (insertRecords (metricOf unrounded) withNan index).entries.map (fun item =>
        (insertRecords (metricOf unrounded) withNan index).distance unrounded (point 0) item.1) = [.nan,.finite 25,.finite 1] :=
    ⟨_,rfl,by decide +kernel,by decide +kernel⟩
  refine ⟨_,(Reached.created created).insertedAll withNan,answer,distances,fun nearest => ?_⟩
  have several := congrArg length distances
  rw [length_map] at several
  have inside : Number.nan ∈ [Number.nan,.finite 25,.finite 1] := mem_cons_self
  obtain ⟨item,inside',same⟩ := mem_map.mp (distances ▸ inside)
  have number := nearestNumbers nearest Nat.zero_lt_one (by rw [several]; decide) item inside'
  rw [same] at number
  cases number

theorem fifthDeleted : ∃ index, Reached unrounded (fun i => point (10 * i)) "euclidean" 2 2 tenApart (tenApart ++ between) [] index ∧
    index.placed = [[⟨1,0⟩,⟨1,2⟩],[⟨1,1⟩,⟨1,3⟩]] ∧ (∀ item ∈ index.entries, item.2 ≠ ⟨1,4⟩) ∧
    Undone (metricOf unrounded) index (point 7) ⟨1,4⟩ := by
  obtain ⟨index,created,lists,absent,near⟩ : ∃ index,
      createOn unrounded (fun i => point (10 * i)) "euclidean" 2 2 tenApart = .ok index ∧
        (insertRecords (metricOf unrounded) between index).placed = [[⟨1,0⟩,⟨1,2⟩],[⟨1,1⟩,⟨1,3⟩]] ∧
        (∀ item ∈ (insertRecords (metricOf unrounded) between index).entries, item.2 ≠ ⟨1,4⟩) ∧
        ∃ centroid ∈ (insertRecords (metricOf unrounded) between index).centroids, unrounded.less
          (computeDistance unrounded (insertRecords (metricOf unrounded) between index).distanceMethod (point 7) centroid)
          (unrounded.ofRat floatMax) = true :=
    ⟨_,rfl,by decide +kernel,by decide +kernel,by decide +kernel⟩
  exact ⟨_,(Reached.created created).insertedAll between,lists,absent,(deletesInsertedIff absent).mpr near⟩

/- No vector is near a zero centroid. -/
theorem cosineNotDeleted : ∃ index, createOn reals (fun _ => (0 : Vec 1)) "cosine" 1 1 [] = .ok index ∧ index.entries = [] ∧
    ¬Undone (metricOf reals) index (alone 1) ⟨1,0⟩ := by
  have one : natOf 1 = 1 := rfl
  have far : computeDistance reals "cosine" (alone 1) (fun _ => (0 : ℝ)) = floatMax := by
    have short : dotOf reals (fun _ : Fin 1 => (0 : ℝ)) (fun _ => 0) < tiny := by
      norm_num [dotOf,totalSum,tiny]
    rw [computeExact,if_pos rfl,if_pos (.inr short)]
  refine ⟨_,rfl,by simp [entries,insertRecords],?_⟩
  rw [undoneIff (by simp [entries,insertRecords]),ne_eq,noCentroidIff]
  simp [metricOf,insertRecords,listCount,one,far]

end MiniOb.IvfflatIndex
