import MiniOb.Table.FieldMeta
import MiniOb.Table.HeapTableEngine
import MiniOb.Table.IvfflatIndex
import MiniOb.Trx.Visibility

/-! MVCC transactions on one heap table, and the creation of its indexes (`storage/trx/mvcc_trx.cpp`,
`HeapTableEngine::create_index` and `create_vector_index`, `index/ivfflat_index.cpp`). Calls do not overlap, and no
allocation, file or log operation fails. -/
namespace MiniOb.Mvcc
open Prog Heap

structure Record (D : Type) where
  beginXid : Int32
  endXid : Int32
  data : D
  deriving DecidableEq, Repr

/- A field that an index can be put on. The names of the two hidden fields are accepted too. -/
inductive Column (F : Type) where
  | beginXid
  | endXid
  | field (f : F)
  deriving DecidableEq, Repr

structure Schema (F D K : Type) where
  read : D → F → K
  ofInt : Int32 → K
  isVector : F → Bool
  metric : Metric K

variable {F D K : Type}

def Schema.key (schema : Schema F D K) (column : Column F) (record : Record D) : K :=
  match column with
  | .beginXid => schema.ofInt record.beginXid
  | .endXid => schema.ofInt record.endXid
  | .field f => schema.read record.data f

def Schema.isVectorColumn (schema : Schema F D K) : Column F → Bool
  | .field f => schema.isVector f
  | _ => false

/-! ### Indexes -/

inductive Store (K : Type) where
  | bplusTree (entries : List (K × RID))
  | ivfflat (index : IvfflatIndex K)

structure Index (F K : Type) where
  name : String
  column : Column F
  store : Store K

namespace Store

def entries : Store K → List (K × RID)
  | bplusTree entries => entries
  | ivfflat index => index.entries

variable [DecidableEq K] (metric : Metric K)

def insertEntry (key : K) (rid : RID) : Prog (Store K) Exit Unit
  | bplusTree entries =>
    if (key,rid) ∈ entries then (.error (.rc .recordDuplicateKey),bplusTree entries) else (.ok (),bplusTree (entries ++ [(key,rid)]))
  | ivfflat index => ((IvfflatIndex.insertEntry metric key rid index).1,ivfflat (IvfflatIndex.insertEntry metric key rid index).2)

def deleteEntry (key : K) (rid : RID) : Prog (Store K) Exit Unit
  | bplusTree entries =>
    if (key,rid) ∈ entries then (.ok (),bplusTree (entries.erase (key,rid))) else (.error (.rc .recordNotExist),bplusTree entries)
  | ivfflat index => ((IvfflatIndex.deleteEntry metric key rid index).1,ivfflat (IvfflatIndex.deleteEntry metric key rid index).2)

end Store

def Index.entries (index : Index F K) : List (K × RID) := index.store.entries

section
variable [DecidableEq K] (schema : Schema F D K)

def onStore (m : Prog (Store K) Exit Unit) : Prog (Index F K) Exit Unit := fun index =>
  ((m index.store).1,{ index with store := (m index.store).2 })

def indexOps : IndexOps (Record D) (Index F K) where
  insertEntry record rid := fun index => onStore (Store.insertEntry schema.metric (schema.key index.column record) rid) index
  deleteEntry record rid := fun index => onStore (Store.deleteEntry schema.metric (schema.key index.column record) rid) index

end

/-! ### Transactions -/

inductive Operation where
  | insert (rid : RID)
  | delete (rid : RID)
  deriving DecidableEq, Repr

structure MvccTrx where
  trxId : Int32
  started : Bool
  operations : List Operation
  deriving DecidableEq, Repr

def maxTrxId : Int32 := Int32.maxValue

structure State (F D K : Type) where
  engine : Engine (Record D) (Index F K)
  currentTrxId : Int32
  trxes : Nat → MvccTrx

namespace State

def initial : State F D K := ⟨⟨[],[]⟩,0,fun _ => ⟨-1,false,[]⟩⟩

def setTrx (s : State F D K) (t : Nat) (trx : MvccTrx) : State F D K := { s with trxes := Function.update s.trxes t trx }

def visit (s : State F D K) (t : Nat) (mode : ReadWriteMode) (record : Record D) : RC :=
  (Trx.mvcc (s.trxes t).trxId).visitRecord record.beginXid record.endXid mode

end State

def onEngine (m : Prog (Engine (Record D) (Index F K)) Exit Unit) : Prog (State F D K) Exit Unit := fun s =>
  ((m s.engine).1,{ s with engine := (m s.engine).2 })

def asserted {σ : Type} (m : Prog σ Exit Unit) : Prog σ Exit Unit := fun s => match m s with
  | (.ok _,t) => (.ok (),t)
  | (.error _,t) => (.error .abort,t)

def pushOperation (t : Nat) (operation : Operation) : Prog (State F D K) Exit Unit :=
  update fun s => s.setTrx t { s.trxes t with operations := (s.trxes t).operations ++ [operation] }

def startIfNeed (t : Nat) : Prog (State F D K) Exit Unit := update fun s =>
  if (s.trxes t).started then s
  else { s.setTrx t { s.trxes t with trxId := s.currentTrxId + 1, started := true } with currentTrxId := s.currentTrxId + 1 }

def deleteVisitor (s : State F D K) (t : Nat) (record : Record D) : Except Exit (Option (Record D)) :=
  match s.visit t .readWrite record with
  | .success => .ok (some { record with endXid := -(s.trxes t).trxId })
  | rc => .error (.rc rc)

def deleteRecord (t : Nat) (rid : RID) : Prog (State F D K) Exit Unit := do
  let s ← read id
  onEngine (Engine.visitRecord rid (deleteVisitor s t))
  pushOperation t (.delete rid)

def stampBegin (trxId xid : Int32) (record : Record D) : Except Exit (Option (Record D)) :=
  if record.beginXid = -trxId then .ok (some { record with beginXid := xid }) else .error .abort

def stampEnd (trxId xid : Int32) (record : Record D) : Except Exit (Option (Record D)) :=
  if record.endXid = -trxId then .ok (some { record with endXid := xid }) else .error .abort

def commitOperation (trxId commitXid : Int32) : Operation → Prog (Engine (Record D) (Index F K)) Exit Unit
  | .insert rid => asserted (Engine.visitRecord rid (stampBegin trxId commitXid))
  | .delete rid => asserted (Engine.visitRecord rid (stampEnd trxId commitXid))

def finish (t : Nat) : Prog (State F D K) Exit Unit := update fun s => s.setTrx t { s.trxes t with started := false, operations := [] }

def commit (t : Nat) : Prog (State F D K) Exit Unit := do
  let s ← read id
  update fun s => { s with currentTrxId := s.currentTrxId + 1 }
  onEngine (each (commitOperation (s.trxes t).trxId (s.currentTrxId + 1)) (s.trxes t).operations)
  finish t

section
variable [DecidableEq K] (schema : Schema F D K)

def insertRecord (t : Nat) (data : D) (rid : RID) : Prog (State F D K) Exit Unit := do
  let s ← read id
  onEngine (Heap.insertRecord (indexOps schema) ⟨-(s.trxes t).trxId,maxTrxId,data⟩ rid)
  pushOperation t (.insert rid)

/- An insertion is taken back with a record that has an id and no data. -/
def rollbackOperation (trxId : Int32) : Operation → Prog (Engine (Record D) (Index F K)) Exit Unit
  | .insert rid => asserted (Heap.deleteRecord (indexOps schema) none rid)
  | .delete rid => asserted (Engine.visitRecord rid (stampEnd trxId maxTrxId))

def rollback (t : Nat) : Prog (State F D K) Exit Unit := do
  let s ← read id
  onEngine (each (rollbackOperation schema (s.trxes t).trxId) (s.trxes t).operations.reverse)
  finish t

/-! ### Creation of indexes -/

def createIndex (t : Nat) (column : Column F) (name : String) : Prog (State F D K) Exit Unit := do
  onEngine (checkName Index.name name)
  let s ← read id
  onEngine (pushIndex (indexOps schema) (s.engine.heap.filter fun row => s.visit t .readOnly row.2 = .success) ⟨name,column,.bplusTree []⟩)

def createVectorIndex (column : Column F) (name distanceMethod : String) (lists probes : Int32) (centroids : Nat → K) :
    Prog (State F D K) Exit Unit := do
  onEngine (checkName Index.name name)
  let s ← read id
  if schema.isVectorColumn column = false then exit (.rc .invalidArgument)
  else
    let method := if Table.isBlank distanceMethod then "" else distanceMethod
    match IvfflatIndex.create method (IvfflatIndex.orOne lists) (IvfflatIndex.orOne probes) s.engine.heap.length centroids with
    | .error code => exit (.rc code)
    | .ok index => onEngine (pushIndex (indexOps schema) s.engine.heap ⟨name,column,.ivfflat index⟩)

/-! ### Runs -/

inductive Event (F D K : Type) where
  | startIfNeed (t : Nat)
  | insertRecord (t : Nat) (data : D) (rid : RID)
  | deleteRecord (t : Nat) (rid : RID)
  | commit (t : Nat)
  | rollback (t : Nat)
  | createIndex (t : Nat) (column : Column F) (name : String)
  | createVectorIndex (column : Column F) (name distanceMethod : String) (lists probes : Int32) (centroids : Nat → K)

def step : Event F D K → Prog (State F D K) Exit Unit
  | .startIfNeed t => Mvcc.startIfNeed t
  | .insertRecord t data rid => Mvcc.insertRecord schema t data rid
  | .deleteRecord t rid => Mvcc.deleteRecord t rid
  | .commit t => Mvcc.commit t
  | .rollback t => Mvcc.rollback schema t
  | .createIndex t column name => Mvcc.createIndex schema t column name
  | .createVectorIndex column name distanceMethod lists probes centroids =>
    Mvcc.createVectorIndex schema column name distanceMethod lists probes centroids

end
end MiniOb.Mvcc
