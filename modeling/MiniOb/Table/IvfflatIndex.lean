import MiniOb.Common.Types
import MiniOb.Lib.Prog

/-! The entries of an IVF-Flat index (`storage/index/ivfflat_index.cpp`). -/
namespace MiniOb
open List

/- `compute_distance` for a distance method: whether a centroid is nearer than the largest float, and whether it is
nearer than another one. -/
structure Metric (V : Type) where
  near : String → V → V → Bool
  closer : String → V → V → V → Bool

structure IvfflatIndex (V : Type) where
  distanceMethod : String
  lists : Int32
  probes : Int32
  centroids : List V
  invertedLists : List (List (V × RID))
  positive : 0 < natOf lists
  trained : centroids.length = natOf lists
  listed : invertedLists.length = natOf lists

namespace IvfflatIndex
variable {V : Type} (metric : Metric V)

def entries (index : IvfflatIndex V) : List (V × RID) := index.invertedLists.flatten

def nearestFrom (method : String) (vec : V) : Option (Nat × V) → Nat → List V → Option Nat
  | best,_,[] => best.map Prod.fst
  | best,i,centroid :: rest =>
    let better := match best with
      | none => metric.near method vec centroid
      | some (_,other) => metric.closer method vec centroid other
    nearestFrom method vec (if better then some (i,centroid) else best) (i + 1) rest

def findNearestCentroid (index : IvfflatIndex V) (vec : V) : Option Nat :=
  let best := if index.centroids = [] then some 0 else nearestFrom metric index.distanceMethod vec none 0 index.centroids
  best.filter fun i => i < index.invertedLists.length

/- A vector without a cluster goes to the first one; there it is not found again. -/
def insertEntry (vec : V) (rid : RID) : Prog (IvfflatIndex V) Exit Unit := fun index =>
  (.ok (),{ index with
    invertedLists := index.invertedLists.modify ((index.findNearestCentroid metric vec).getD 0) fun list => list ++ [(vec,rid)]
    listed := (length_modify _ _ _).trans index.listed })

def deleteEntry (vec : V) (rid : RID) : Prog (IvfflatIndex V) Exit Unit := fun index =>
  match index.findNearestCentroid metric vec with
  | none => (.error (.rc .invalidArgument),index)
  | some i =>
    if (index.invertedLists[i]?.getD []).any fun item => item.2 = rid then
      (.ok (),{ index with
        invertedLists := index.invertedLists.modify i fun list => list.eraseP fun item => item.2 = rid
        listed := (length_modify _ _ _).trans index.listed })
    else (.error (.rc .recordNotExist),index)

def listCount (lists : Int32) (records : Nat) : Int32 :=
  if records = 0 ∨ natOf lists ≤ records then lists else Int32.ofNat records

theorem listCountPositive {lists} (positive : 0 < natOf lists) (records : Nat) : 0 < natOf (listCount lists records) := by
  unfold listCount
  split
  · exact positive
  · rename_i few
    have small : records < 2 ^ 31 := by
      have bound := lists.toInt_lt
      unfold natOf at few
      omega
    rw [natOfOfNat small]
    omega

/- An index without entries, of which `create` then makes one of all the records. The training starts from random records:
any centroids may come out. -/
def create (distanceMethod : String) (lists probes : Int32) (records : Nat) (centroids : Nat → V) : Except RC (IvfflatIndex V) :=
  if asked : 0 < natOf lists then
    let probed := if 0 < natOf probes then probes else 1
    .ok {
      distanceMethod := if distanceMethod = "" then "euclidean" else distanceMethod
      lists := listCount lists records
      probes := if natOf lists < natOf probed then lists else probed
      centroids := (range (natOf (listCount lists records))).map centroids
      invertedLists := replicate (natOf (listCount lists records)) []
      positive := listCountPositive asked records
      trained := by simp
      listed := length_replicate }
  else .error .invalidArgument

def orOne (n : Int32) : Int32 := if 0 < n then n else 1

theorem modifyFlatten {lists : List (List α)} (inside : i < lists.length) (x : α) :
    (lists.modify i fun list => list ++ [x]).flatten.Perm (lists.flatten ++ [x]) := by
  induction lists generalizing i with
  | nil => cases inside
  | cons first rest ih =>
    cases i with
    | zero =>
      simp only [modify_zero_cons,flatten_cons,append_assoc]
      exact (perm_append_comm).append_left first
    | succ i =>
      simp only [modify_succ_cons,flatten_cons,append_assoc]
      exact (ih (by simpa using inside)).append_left first

theorem nearestInside (index : IvfflatIndex V) (vec : V) :
    (index.findNearestCentroid metric vec).getD 0 < index.invertedLists.length := by
  cases found : index.findNearestCentroid metric vec with
  | none => exact index.positive.trans_eq index.listed.symm
  | some i => simpa using (Option.filter_eq_some_iff.1 found).2

theorem insertAdds (index : IvfflatIndex V) (vec : V) (rid : RID) :
    ∃ next,insertEntry metric vec rid index = (.ok (),next) ∧ next.entries.Perm (index.entries ++ [(vec,rid)]) :=
  ⟨_,rfl,modifyFlatten (index.nearestInside metric vec) (vec,rid)⟩

theorem createEntries {distanceMethod} {lists probes} {centroids}
    (created : create distanceMethod lists probes records centroids = .ok index) : index.entries = [] := by
  unfold create at created
  split at created
  · cases created
    simp [entries]
  · cases created

end IvfflatIndex
end MiniOb
