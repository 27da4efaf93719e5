import MiniOb.BplusTree.Rollback
import MiniOb.Table.HeapTableEngine

/-! The undo of an insertion into a heap table when an index refuses the entry (`HeapTableEngine::insert_record`). The undo
deletes the entry from the indexes, starting with the first, and stops at the first deletion that fails. -/
namespace MiniOb.Heap
open Prog List

/-! ### The two loops -/

section Loops
variable {R I : Type} {ops : IndexOps R I} {f : Prog I Exit Unit} {record : R} {rid : RID} {front back : List I}

theorem overFront (ok : ∀ index ∈ front, (f index).1 = .ok ()) (rest : List I) : overIndexes f (front ++ rest) =
    ((overIndexes f rest).1,front.map (fun index => (f index).2) ++ (overIndexes f rest).2) := by
  induction front with
  | nil => rfl
  | cons index front ih =>
    have here : f index = (.ok (),(f index).2) := Prod.ext (ok index mem_cons_self) rfl
    rw [cons_append,overIndexes,here]
    dsimp only
    rw [ih fun other inside => ok other (mem_cons_of_mem _ inside),map_cons,cons_append]

variable (ops record rid) in
theorem undoLoop (indexes : List I) :
    deleteEntryOfIndexes ops record rid false (.ok ()) indexes = overIndexes (ops.deleteEntry record rid) indexes := by
  induction indexes with
  | nil => rfl
  | cons index rest ih =>
    unfold deleteEntryOfIndexes overIndexes
    rcases ops.deleteEntry record rid index with ⟨_ | _,next⟩
    · exact if_pos (.inr rfl)
    · rw [ih]

end Loops

/-! ### What becomes of the entries -/

section Undo
variable {R I E : Type} (ops : IndexOps R I) (record : R) (rid : RID) (entries : I → Set E)

/- The entry goes in, and out again. -/
structure Reverts (index : I) : Prop where
  inserts : (ops.insertEntry record rid index).1 = .ok ()
  deletes : (ops.deleteEntry record rid (ops.insertEntry record rid index).2).1 = .ok ()
  same : entries (ops.deleteEntry record rid (ops.insertEntry record rid index).2).2 = entries index

variable {ops record rid entries} {engine : Engine R I} {front back : List I} {failing failed : I} {code : RC}

theorem removeAppended (fresh : rid ∉ engine.rids) (indexes : List I) :
    Engine.removeRecord rid ⟨engine.heap ++ [(rid,record)],indexes⟩ = ⟨engine.heap,indexes⟩ := by
  have kept : engine.heap.filter (fun row => row.1 ≠ rid) = engine.heap := by
    refine filter_eq_self.mpr fun row inside => ?_
    have other : row.1 ≠ rid := fun same => fresh (same ▸ mem_map_of_mem inside)
    simpa using other
  unfold Engine.removeRecord
  rw [filter_append,kept]
  simp

variable (fresh : rid ∉ engine.rids) (indexes : engine.indexes = front ++ failing :: back)
  (reverts : ∀ index ∈ front, Reverts ops record rid entries index)
  (fails : ops.insertEntry record rid failing = (.error (.rc code),failed))
include fresh indexes reverts fails

theorem insertFails : ∃ again : List I, again.map entries = front.map entries ∧ insertRecord ops record rid engine =
    match overIndexes (ops.deleteEntry record rid) (failed :: back) with
    | (.error .abort,rest) => (.error .abort,⟨engine.heap ++ [(rid,record)],again ++ rest⟩)
    | (_,rest) => (.error (.rc code),⟨engine.heap,again ++ rest⟩) := by
  have inserted : insertEntryOfIndexes ops record rid engine.indexes =
      (.error (.rc code),front.map (fun index => (ops.insertEntry record rid index).2) ++ failed :: back) := by
    rw [insertEntryOfIndexes,indexes,overFront fun index inside => (reverts index inside).inserts,overIndexes,fails]
  have undone := undoLoop ops record rid (front.map (fun index => (ops.insertEntry record rid index).2) ++ failed :: back)
  rw [overFront fun index inside => by
    obtain ⟨before,listed,rfl⟩ := mem_map.mp inside
    exact (reverts before listed).deletes,map_map] at undone
  refine ⟨front.map ((fun index => (ops.deleteEntry record rid index).2) ∘ fun index => (ops.insertEntry record rid index).2),?_,?_⟩
  · rw [map_map]
    exact map_congr_left fun index inside => (reverts index inside).same
  · unfold insertRecord
    rw [if_neg fresh,inserted]
    dsimp only
    rw [undone]
    rcases overIndexes (ops.deleteEntry record rid) (failed :: back) with ⟨(_ | _) | _,rest⟩
    · exact congrArg _ (removeAppended fresh _)
    · rfl
    · exact congrArg _ (removeAppended fresh _)

theorem insertUndone {code'} (kept : entries (ops.deleteEntry record rid failed).2 = entries failing)
    (stops : (ops.deleteEntry record rid failed).1 = .error (.rc code')) :
    (insertRecord ops record rid engine).2.heap = engine.heap ∧
      (insertRecord ops record rid engine).2.indexes.map entries = engine.indexes.map entries := by
  obtain ⟨again,same,ran⟩ := insertFails fresh indexes reverts fails
  have stop : ops.deleteEntry record rid failed = (.error (.rc code'),(ops.deleteEntry record rid failed).2) := Prod.ext stops rfl
  rw [ran,overIndexes,stop,indexes]
  exact ⟨rfl,by rw [map_append,map_append,map_cons,map_cons,same,kept]⟩

theorem insertLoses {code'} (lost : entries (ops.deleteEntry record rid failed).2 ≠ entries failing)
    (deleted : (ops.deleteEntry record rid failed).1 = .ok ())
    (returned : (insertRecord ops record rid engine).1 = .error (.rc code')) :
    (insertRecord ops record rid engine).2.indexes.map entries ≠ engine.indexes.map entries := by
  obtain ⟨again,same,ran⟩ := insertFails fresh indexes reverts fails
  have gone : ops.deleteEntry record rid failed = (.ok (),(ops.deleteEntry record rid failed).2) := Prod.ext deleted rfl
  have after : (insertRecord ops record rid engine).2.indexes = again ++ (ops.deleteEntry record rid failed).2 ::
      (overIndexes (ops.deleteEntry record rid) back).2 := by
    rw [ran,overIndexes,gone] at returned ⊢
    rcases rest : (overIndexes (ops.deleteEntry record rid) back).1 with (_ | _) | _
    · rfl
    · simp only [rest] at returned
      cases returned
    · rfl
  rw [after,indexes,map_append,map_append,same,map_cons,map_cons]
  exact fun wrong => lost (cons.inj (append_cancel_left wrong)).1

end Undo

/-! ### B+ trees -/

open BplusTree (Handler IndexKey KeyOps)

structure TreeIndex (R A : Type) where
  ops : KeyOps (IndexKey A)
  attr : R → A
  handler : Handler (IndexKey A)

namespace TreeIndex
variable {R A : Type}

def indexOps : IndexOps R (TreeIndex R A) where
  insertEntry record rid index := ((BplusTree.insertEntry index.ops (index.attr record) rid index.handler).1,
    { index with handler := (BplusTree.insertEntry index.ops (index.attr record) rid index.handler).2 })
  deleteEntry record rid index := ((BplusTree.deleteEntry index.ops (index.attr record) rid index.handler).1,
    { index with handler := (BplusTree.deleteEntry index.ops (index.attr record) rid index.handler).2 })

def pairs (index : TreeIndex R A) : Set (A × RID) := {pair | (⟨pair.1,pair.2⟩,pair.2) ∈ index.handler.disk.entries}

def pair (record : R) (rid : RID) (index : TreeIndex R A) : A × RID := (index.attr record,rid)

section
variable [LinearOrder (IndexKey A)]

def Holds (index : TreeIndex R A) (pairs : Set (A × RID)) : Prop :=
  ∃ S, BplusTree.Sees index.handler S ∧ BplusTree.Content S (BplusTree.entriesOf pairs) ∧ S.disposed = []

/- A tree that holds together, whatever faults are to come. -/
structure Sound (index : TreeIndex R A) : Prop where
  ordered : index.ops.Ordered
  holds : ∃ held, Holds { index with handler := index.handler.failing [] } held

structure Intact (record : R) (rid : RID) (index : TreeIndex R A) : Prop where
  ordered : index.ops.Ordered
  holds : ∃ pairs, index.Holds pairs
  room : BplusTree.HasRoom index.ops [.insert (index.attr record) rid,.delete (index.attr record) rid] index.handler

variable {record : R} {rid : RID} {index : TreeIndex R A} {held : Set (A × RID)}

theorem Holds.pairsSame (holds : index.Holds held) : index.pairs = held := by
  obtain ⟨S,seen,content,_⟩ := holds
  obtain ⟨_,same⟩ := content.valid seen
  ext pair
  rw [pairs,Set.mem_ofPred_eq,same]
  simp [BplusTree.entriesOf]

section
variable (holds : index.Holds held) (ordered : index.ops.Ordered)
include holds ordered

theorem Holds.call (call : BplusTree.Call A) (room : BplusTree.HasRoom index.ops [call] index.handler) :
    (call.run index.ops index.handler).1 = call.result held ∧
      Holds { index with handler := (call.run index.ops index.handler).2 } (call.after held) ∧
      (call.result held ≠ .ok () → Holds { index with handler := (call.run index.ops index.handler).2 } held) := by
  obtain ⟨S,seen,content,clean⟩ := holds
  obtain ⟨T,value,seenT,contentT,cleanT,same⟩ := BplusTree.callStep ordered content clean seen call room.1
  refine ⟨value,⟨T,seenT,contentT,cleanT⟩,fun failed => ⟨S,?_,content,clean⟩⟩
  rw [← same failed]
  exact seenT

theorem Holds.insert (room : BplusTree.HasRoom index.ops [.insert (index.attr record) rid] index.handler) :
    (index.pair record rid ∈ held ∧ (indexOps.insertEntry record rid index).1 = .error (.rc .recordDuplicateKey) ∧
      (indexOps.insertEntry record rid index).2.Holds held) ∨
    (index.pair record rid ∉ held ∧ (indexOps.insertEntry record rid index).1 = .ok () ∧
      (indexOps.insertEntry record rid index).2.Holds (insert (index.pair record rid) held)) := by
  obtain ⟨value,after,kept⟩ := holds.call ordered (.insert (index.attr record) rid) room
  by_cases present : (index.attr record,rid) ∈ held
  · have code : BplusTree.Call.result held (.insert (index.attr record) rid) = .error (.rc .recordDuplicateKey) := if_pos present
    rw [code] at value kept
    exact .inl ⟨present,value,kept fun ok => by cases ok⟩
  · rw [BplusTree.Call.result,if_neg present] at value
    rw [BplusTree.Call.after,Set.union_singleton] at after
    exact .inr ⟨present,value,after⟩

theorem Holds.delete (room : BplusTree.HasRoom index.ops [.delete (index.attr record) rid] index.handler) :
    (index.pair record rid ∈ held ∧ (indexOps.deleteEntry record rid index).1 = .ok () ∧
      (indexOps.deleteEntry record rid index).2.Holds (held \ {index.pair record rid})) ∨
    (index.pair record rid ∉ held ∧ (indexOps.deleteEntry record rid index).1 = .error (.rc .recordNotExist) ∧
      (indexOps.deleteEntry record rid index).2.Holds held) := by
  obtain ⟨value,after,kept⟩ := holds.call ordered (.delete (index.attr record) rid) room
  by_cases present : (index.attr record,rid) ∈ held
  · rw [BplusTree.Call.result,if_pos present] at value
    exact .inl ⟨present,value,after⟩
  · have code : BplusTree.Call.result held (.delete (index.attr record) rid) = .error (.rc .recordNotExist) := if_neg present
    rw [code] at value kept
    exact .inr ⟨present,value,kept fun ok => by cases ok⟩

end

theorem Intact.reverts (intact : index.Intact record rid) (absent : index.pair record rid ∉ index.pairs) :
    Reverts indexOps record rid pairs index := by
  obtain ⟨held,holds⟩ := intact.holds
  rw [holds.pairsSame] at absent
  rcases holds.insert intact.ordered ⟨intact.room.1,trivial⟩ with ⟨present,_⟩ | ⟨_,inserted,after⟩
  · exact absurd present absent
  rcases after.delete intact.ordered intact.room.2 with ⟨_,deleted,again⟩ | ⟨missing,_⟩
  · refine ⟨inserted,deleted,?_⟩
    rw [again.pairsSame,holds.pairsSame]
    exact Set.insert_sdiff_self_of_notMem absent
  · exact absurd (Set.mem_insert _ _) missing

theorem Intact.loses (intact : index.Intact record rid) (present : index.pair record rid ∈ index.pairs) :
    ∃ failed, indexOps.insertEntry record rid index = (.error (.rc .recordDuplicateKey),failed) ∧
      (indexOps.deleteEntry record rid failed).1 = .ok () ∧ (indexOps.deleteEntry record rid failed).2.pairs ≠ index.pairs := by
  obtain ⟨held,holds⟩ := intact.holds
  rw [holds.pairsSame] at present ⊢
  rcases holds.insert intact.ordered ⟨intact.room.1,trivial⟩ with ⟨_,refused,after⟩ | ⟨absent,_⟩
  · refine ⟨_,Prod.ext refused rfl,?_⟩
    rcases after.delete intact.ordered intact.room.2 with ⟨_,deleted,lost⟩ | ⟨absent,_⟩
    · refine ⟨deleted,?_⟩
      rw [lost.pairsSame]
      intro same
      exact (same.symm ▸ present : index.pair record rid ∈ held \ {index.pair record rid}).2 rfl
    · exact absurd present absent
  · exact absurd present absent

theorem pairsShape {handler} (same : handler.shape = index.handler.shape) : pairs { index with handler := handler } = index.pairs := by
  unfold pairs
  rw [(BplusTree.shapeSame index.ops same).1]

/- Neither the insertion that fails early nor the deletion of an entry that is not there changes the tree. -/
theorem Sound.refuses (sound : index.Sound) (absent : index.pair record rid ∉ index.pairs)
    (early : BplusTree.FailsEarly index.ops (.insert (index.attr record) rid) index.handler) :
    ∃ code failed code', indexOps.insertEntry record rid index = (.error (.rc code),failed) ∧
      (indexOps.deleteEntry record rid failed).1 = .error (.rc code') ∧
      (indexOps.deleteEntry record rid failed).2.pairs = index.pairs := by
  obtain ⟨held,holds⟩ := sound.holds
  have missing : (index.attr record,rid) ∉ held := holds.pairsSame ▸ absent
  obtain ⟨S,seen,content,clean⟩ := holds
  have valid : index.handler.disk.Valid := (content.valid seen).1
  have stored : index.handler.disk.Stored := BplusTree.Content.stored (s := index.handler.failing []) content seen
  rcases BplusTree.runEnds index.ops (.insert (index.attr record) rid) valid fun _ => stored with
    ⟨-,code,t,run,shape⟩ | ⟨later,-⟩
  · have notFound : t.disk.finds index.ops ⟨index.attr record,rid⟩ = false := by
      rw [(BplusTree.shapeSame index.ops shape).2.2]
      exact Bool.eq_false_of_not_eq_true fun found => missing ((content.findsIff sound.ordered clean seen _ _).mp found)
    have stops : ∃ code' u, BplusTree.RunStops index.ops (.delete (index.attr record) rid) t code' u := by
      rcases BplusTree.runEnds index.ops (.delete (index.attr record) rid) ((BplusTree.shapeSame index.ops shape).2.1 valid)
        (fun inserts => by cases inserts) with ⟨-,stops⟩ | ⟨-,⟨found,-⟩ | ⟨-,code',u,stops,-⟩⟩
      · exact stops
      · exact absurd notFound found
      · exact ⟨code',u,stops⟩
    obtain ⟨code',u,delete,shape'⟩ := stops
    have inserted : indexOps.insertEntry record rid index = (.error (.rc code),{ index with handler := t }) := by
      show ((BplusTree.Call.run index.ops (.insert (index.attr record) rid) index.handler).1,
        TreeIndex.mk index.ops index.attr (BplusTree.Call.run index.ops (.insert (index.attr record) rid) index.handler).2) = _
      rw [run]
    have deleted : indexOps.deleteEntry record rid { index with handler := t } = (.error (.rc code'),{ index with handler := u }) := by
      show ((BplusTree.Call.run index.ops (.delete (index.attr record) rid) t).1,
        TreeIndex.mk index.ops index.attr (BplusTree.Call.run index.ops (.delete (index.attr record) rid) t).2) = _
      rw [delete]
    exact ⟨code,_,code',inserted,congrArg Prod.fst deleted,by rw [deleted]; exact pairsShape (shape'.trans shape)⟩
  · exact absurd early later

/- An index that does not take the entry: it has it already, or a step fails before the tree is changed. -/
inductive Refuses (record : R) (rid : RID) (index : TreeIndex R A) : Prop
  | duplicate (intact : index.Intact record rid) (present : index.pair record rid ∈ index.pairs)
  | fault (sound : index.Sound) (absent : index.pair record rid ∉ index.pairs)
      (early : BplusTree.FailsEarly index.ops (.insert (index.attr record) rid) index.handler)

section
variable {engine : Engine R (TreeIndex R A)} {front back : List (TreeIndex R A)} {failing : TreeIndex R A} {code : RC}

theorem duplicateLost (fresh : rid ∉ engine.rids) (indexes : engine.indexes = front ++ failing :: back)
    (before : ∀ index ∈ front, index.Intact record rid ∧ index.pair record rid ∉ index.pairs)
    (intact : failing.Intact record rid) (present : failing.pair record rid ∈ failing.pairs)
    (returned : (insertRecord indexOps record rid engine).1 = .error (.rc code)) :
    (insertRecord indexOps record rid engine).2.indexes.map pairs ≠ engine.indexes.map pairs := by
  obtain ⟨failed,refused,deleted,lost⟩ := intact.loses present
  exact insertLoses fresh indexes (fun index inside => (before index inside).1.reverts (before index inside).2)
    refused lost deleted returned

end

end

def empty : TreeIndex Int Int := ⟨BplusTree.orderedOps,id,BplusTree.newIntegers⟩

def failing : TreeIndex Int Int :=
  { empty with handler := { empty.handler with mtr := { empty.handler.mtr with faults := [some .ioerrRead] } } }

def stale : TreeIndex Int Int := { empty with handler := (BplusTree.insertEntry BplusTree.orderedOps 5 ⟨1,0⟩ BplusTree.newIntegers).2 }

theorem emptyIntact : empty.Intact 5 ⟨1,0⟩ := by
  have created : BplusTree.create BplusTree.orderedOps 1 4 6 6 (BplusTree.emptyFile 1) = (.ok (),BplusTree.newIntegers) :=
    Prod.ext (by decide +kernel) rfl
  obtain ⟨S,seen,content,clean⟩ := BplusTree.createdContent created (by decide +kernel) (by decide +kernel)
  exact ⟨BplusTree.orderedOpsOrdered,⟨∅,S,seen,content,clean⟩,by decide +kernel⟩

end TreeIndex

end MiniOb.Heap
