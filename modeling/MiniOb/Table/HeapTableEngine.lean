import MiniOb.Common.Types
import MiniOb.Lib.Prog
import MiniOb.Table.FieldMeta

/-! `HeapTableEngine`: the records of a heap file and the indexes over them, of whatever class
(`storage/table/heap_table_engine.cpp`). -/
namespace MiniOb.Heap
open Prog

structure IndexOps (R I : Type) where
  insertEntry : R → RID → Prog I Exit Unit
  deleteEntry : R → RID → Prog I Exit Unit

structure Engine (R I : Type) where
  heap : List (RID × R)
  indexes : List I

namespace Engine
variable {R I : Type}

def rids (engine : Engine R I) : List RID := engine.heap.map Prod.fst

def getRecord (engine : Engine R I) (rid : RID) : Option R := (engine.heap.find? fun row => row.1 = rid).map Prod.snd

def updateRecord (rid : RID) (record : R) (engine : Engine R I) : Engine R I :=
  { engine with heap := engine.heap.map fun row => if row.1 = rid then (rid,record) else row }

def removeRecord (rid : RID) (engine : Engine R I) : Engine R I :=
  { engine with heap := engine.heap.filter fun row => row.1 ≠ rid }

def visitRecord (rid : RID) (visitor : R → Except Exit (Option R)) : Prog (Engine R I) Exit Unit := fun engine =>
  match engine.getRecord rid with
  | none => (.error (.rc .recordNotExist),engine)
  | some record => match visitor record with
    | .error e => (.error e,engine)
    | .ok none => (.ok (),engine)
    | .ok (some changed) => (.ok (),engine.updateRecord rid changed)

end Engine

section Indexes
variable {R I : Type} (ops : IndexOps R I)

def checkName (nameOf : I → String) (name : String) : Prog (Engine R I) Exit Unit := fun engine =>
  if Table.isBlank name then (.error (.rc .invalidArgument),engine)
  else if engine.indexes.any fun index => nameOf index = name then (.error (.rc .schemaIndexNameRepeat),engine)
  else (.ok (),engine)

theorem checkNameSame (nameOf : I → String) (name : String) (engine : Engine R I) : (checkName nameOf name engine).2 = engine := by
  unfold checkName
  split
  · rfl
  split
  · rfl
  · rfl

def overIndexes (f : Prog I Exit Unit) : List I → Except Exit Unit × List I
  | [] => (.ok (),[])
  | index :: rest => match f index with
    | (.error e,index) => (.error e,index :: rest)
    | (.ok _,index) => ((overIndexes f rest).1,index :: (overIndexes f rest).2)

def insertEntryOfIndexes (record : R) (rid : RID) : List I → Except Exit Unit × List I := overIndexes (ops.insertEntry record rid)

def deleteEntryOfIndexes (record : R) (rid : RID) (errorOnNotExists : Bool) : Except Exit Unit → List I → Except Exit Unit × List I
  | rc,[] => (rc,[])
  | _,index :: rest => match ops.deleteEntry record rid index with
    | (.error e,index) =>
      if e ≠ .rc .recordInvalidKey ∨ errorOnNotExists = false then (.error e,index :: rest)
      else ((deleteEntryOfIndexes record rid errorOnNotExists (.error e) rest).1,
        index :: (deleteEntryOfIndexes record rid errorOnNotExists (.error e) rest).2)
    | (.ok _,index) => ((deleteEntryOfIndexes record rid errorOnNotExists (.ok ()) rest).1,
        index :: (deleteEntryOfIndexes record rid errorOnNotExists (.ok ()) rest).2)

def insertRecord (record : R) (rid : RID) : Prog (Engine R I) Exit Unit := fun engine =>
  if rid ∈ engine.rids then (.error (.rc .recordNomem),engine)
  else
    let heap := engine.heap ++ [(rid,record)]
    match insertEntryOfIndexes ops record rid engine.indexes with
    | (.ok _,indexes) => (.ok (),⟨heap,indexes⟩)
    | (.error .abort,indexes) => (.error .abort,⟨heap,indexes⟩)
    | (.error (.rc code),indexes) => match deleteEntryOfIndexes ops record rid false (.ok ()) indexes with
      | (.error .abort,indexes) => (.error .abort,⟨heap,indexes⟩)
      | (_,indexes) => (.error (.rc code),Engine.removeRecord rid ⟨heap,indexes⟩)

/- An entry that an index cannot delete fails an assertion. A record without data is read through a null pointer. -/
def deleteEntryChecked (data : Option R) (rid : RID) : Prog I Exit Unit := fun index =>
  match data with
  | none => (.error .abort,index)
  | some record => match ops.deleteEntry record rid index with
    | (.ok _,index) => (.ok (),index)
    | (.error _,index) => (.error .abort,index)

def deleteRecord (data : Option R) (rid : RID) : Prog (Engine R I) Exit Unit := fun engine =>
  match overIndexes (deleteEntryChecked ops data rid) engine.indexes with
  | (.error e,indexes) => (.error e,{ engine with indexes := indexes })
  | (.ok _,indexes) =>
    if rid ∈ engine.rids then (.ok (),Engine.removeRecord rid { engine with indexes := indexes })
    else (.error (.rc .recordNotExist),{ engine with indexes := indexes })

def fill (rows : List (RID × R)) : Prog I Exit Unit := each (fun row => ops.insertEntry row.2 row.1) rows

def pushIndex (rows : List (RID × R)) (index : I) : Prog (Engine R I) Exit Unit := fun engine =>
  match fill ops rows index with
  | (.ok _,filled) => (.ok (),{ engine with indexes := engine.indexes ++ [filled] })
  | (.error e,_) => (.error e,engine)

end Indexes

/-! ### What no entry changes in an index -/

section Views
variable {R I β : Type} {ops : IndexOps R I} {view : I → β}

theorem overIndexesViews (same : ∀ index,view (f index).2 = view index) (indexes : List I) :
    (overIndexes f indexes).2.map view = indexes.map view := by
  induction indexes with
  | nil => rfl
  | cons index rest ih =>
    have here := same index
    unfold overIndexes
    rcases ran : f index with ⟨result,next⟩
    rw [ran] at here
    cases result with
    | ok _ => simp only [List.map_cons,here,ih]
    | error e => simp only [List.map_cons,here]

structure Untouched (ops : IndexOps R I) (view : I → β) : Prop where
  insert : ∀ record rid index,view (ops.insertEntry record rid index).2 = view index
  delete : ∀ record rid index,view (ops.deleteEntry record rid index).2 = view index

theorem deleteEntryOfIndexesViews (untouched : Untouched ops view) (record : R) (rid : RID) (strict : Bool) (rc : Except Exit Unit)
    (indexes : List I) : (deleteEntryOfIndexes ops record rid strict rc indexes).2.map view = indexes.map view := by
  induction indexes generalizing rc with
  | nil => rfl
  | cons index rest ih =>
    have here := untouched.delete record rid index
    unfold deleteEntryOfIndexes
    rcases ran : ops.deleteEntry record rid index with ⟨result,next⟩
    rw [ran] at here
    cases result with
    | ok _ => simp only [List.map_cons,here,ih]
    | error e =>
      dsimp only
      split
      · simp only [List.map_cons,here]
      · simp only [List.map_cons,here,ih]

theorem insertRecordViews (untouched : Untouched ops view) (record : R) (rid : RID) (engine : Engine R I) :
    (insertRecord ops record rid engine).2.indexes.map view = engine.indexes.map view := by
  have inserted : (insertEntryOfIndexes ops record rid engine.indexes).2.map view = engine.indexes.map view :=
    overIndexesViews (untouched.insert record rid) engine.indexes
  unfold insertRecord
  split
  · rfl
  · rcases ran : insertEntryOfIndexes ops record rid engine.indexes with ⟨result,indexes⟩
    rw [ran] at inserted
    rcases result with (code | _) | _
    · have back := deleteEntryOfIndexesViews untouched record rid false (.ok ()) indexes
      dsimp only
      rcases undone : deleteEntryOfIndexes ops record rid false (.ok ()) indexes with ⟨answer,last⟩
      rw [undone] at back
      rcases answer with (_ | _) | _ <;> exact back.trans inserted
    · exact inserted
    · exact inserted

theorem deleteRecordViews (untouched : Untouched ops view) (data : Option R) (rid : RID) (engine : Engine R I) :
    (deleteRecord ops data rid engine).2.indexes.map view = engine.indexes.map view := by
  have checked : ∀ index,view (deleteEntryChecked ops data rid index).2 = view index := by
    intro index
    unfold deleteEntryChecked
    cases data with
    | none => rfl
    | some record =>
      have here := untouched.delete record rid index
      dsimp only
      rcases ran : ops.deleteEntry record rid index with ⟨result,next⟩
      rw [ran] at here
      cases result <;> exact here
  have deleted := overIndexesViews checked engine.indexes
  unfold deleteRecord
  rcases ran : overIndexes (deleteEntryChecked ops data rid) engine.indexes with ⟨result,indexes⟩
  rw [ran] at deleted
  cases result with
  | error e => exact deleted
  | ok _ =>
    dsimp only
    split <;> exact deleted

theorem fillView (untouched : Untouched ops view) (rows : List (RID × R)) (index : I) :
    view (fill ops rows index).2 = view index :=
  keepsEach (R := fun next => view next = view index)
    (fun row _ next kept => (untouched.insert row.2 row.1 next).trans kept) index rfl

end Views
end MiniOb.Heap
