import MiniOb.BplusTree.Range
import MiniOb.Sql.Expression
import MiniOb.Trx.Visibility

/-! The scan of one heap table under comparisons of fields with constants: the choice between a table scan and an index
scan, and the rows of each (`PhysicalPlanGenerator::create_plan` for a table get, `table_scan_physical_operator.cpp`,
`index_scan_physical_operator.cpp`, `heap_record_scanner.cpp`, `bplus_tree_index.cpp`, `ivfflat_index.cpp`). -/
namespace MiniOb.Scan
open BplusTree
open Expression (CompOp compareResult)

/- INTS and CHARS, or a type that compares with a tolerance, as FLOATS and VECTORS do: any function is taken there. -/
inductive FieldType : Type 1 where
  | ordered (t : KeyType)
  | tolerant (V : Type) (compare : V → V → Int) (same : ∀ v,compare v v = 0)

namespace FieldType

def Attr : FieldType → Type
  | ordered t => t.Attr
  | tolerant V _ _ => V

def Constant : FieldType → Type
  | ordered t => t.UserKey
  | tolerant V _ _ => V

end FieldType

def compareField : (t : FieldType) → t.Attr → t.Constant → Int
  | .ordered .ints,a,v => KeyType.compare .ints a v
  | .ordered (.chars _),a,v => compareString a.bytes v.bytes
  | .tolerant _ compare _,a,v => compare a v

def compareConstant : (t : FieldType) → t.Constant → t.Attr → Int
  | .ordered .ints,v,a => KeyType.compare .ints v a
  | .ordered (.chars _),v,a => compareString v.bytes a.bytes
  | .tolerant _ compare _,v,a => compare v a

structure Schema : Type 1 where
  Field : Type
  type : Field → FieldType
  Record : Type
  read : Record → (f : Field) → (type f).Attr
  beginXid : Record → Int32
  endXid : Record → Int32

structure Predicate (S : Schema) where
  field : S.Field
  op : CompOp
  value : (S.type field).Constant
  constantLeft : Bool

def Predicate.holds {S : Schema} (p : Predicate S) (record : S.Record) : Bool :=
  compareResult p.op (if p.constantLeft then compareConstant _ p.value (S.read record p.field)
    else compareField _ (S.read record p.field) p.value)

/- An index on a field: a B+ tree, or the entries of an IVF-Flat index. Where keys compare with a tolerance the tree is
searched with that comparison. -/
inductive Index : FieldType → Type 1 where
  | ordered {t : KeyType} (handler : Handler (IndexKey t.Attr)) : Index (.ordered t)
  | tolerant {V : Type} {compare : V → V → Int} {same : ∀ v,compare v v = 0} (ops : KeyOps (IndexKey V))
      (compares : ops.compare = keyComparator compare) (handler : Handler (IndexKey V)) : Index (.tolerant V compare same)
  | ivfflat {V : Type} {compare : V → V → Int} {same : ∀ v,compare v v = 0} (entries : List (V × RID)) :
      Index (.tolerant V compare same)

/- What `Value::data` gives of the constant: nothing for an empty string, which loses its buffer when it is copied. -/
def dataBound : (t : KeyType) → t.UserKey → Option (RangeBound t.UserKey)
  | .ints,v => some ⟨v,true⟩
  | .chars _,v => if v.bytes = [] then none else some ⟨v,true⟩

/- `create_scanner` and the calls of `next_entry`. A scanner that cannot be made is an internal error. -/
def scanTree {K : Type} (ops : KeyOps K) (handler : Handler K) (openIt : ScanM K Unit) : Except Exit (List RID) :=
  match openIt (newScanner handler) with
  | (.error .abort,_) => .error .abort
  | (.error (.rc _),_) => .error (.rc .internal)
  | (.ok (),scan) => (collect ops (handler.disk.entries.length + 1) scan).1

/- The range goes from the constant to itself. -/
def Index.scan : {t : FieldType} → Index t → t.Constant → Except Exit (List RID)
  | _,@Index.ordered t handler,v => scanTree t.keyOps handler (openScanner t (dataBound t v) (dataBound t v))
  | _,@Index.tolerant _ compare _ ops _ handler,v =>
    scanTree ops handler (openRange ops (0 < compare v v) (some ⟨v,RID.min⟩) (some ⟨v,RID.max⟩))
  | _,.ivfflat _,_ => .error (.rc .internal)

def Holds {A : Type} (handler : Handler (IndexKey A)) (records : List (A × RID)) : Prop :=
  handler.mtr.faults = [] ∧ (∀ key ∈ handler.disk.searchKeys,RID.Located key.rid) ∧
    handler.disk.entries.Perm (records.map fun record => (⟨record.1,record.2⟩,record.2))

/- A tree whose keys compare with a tolerance is one in some order of the keys, that of its leaves. -/
def Index.Matches : {t : FieldType} → Index t → List (t.Attr × RID) → Prop
  | _,.ordered handler,records => handler.disk.Valid ∧ Holds handler records
  | _,@Index.tolerant V _ _ _ _ handler,records => (∃ _ : LinearOrder (IndexKey V),handler.disk.Valid) ∧ Holds handler records
  | _,.ivfflat entries,records => entries.Perm records

structure Table (S : Schema) where
  heap : List (RID × S.Record)
  distinct : (heap.map Prod.fst).Nodup
  indexes : (f : S.Field) → List (Index (S.type f))
  matching : ∀ f,∀ index ∈ indexes f,index.Matches (heap.map fun row => (S.read row.2 f,row.1))

def walk {α β : Type} (step : α → Except Exit (Option β)) : List α → Except Exit (List β)
  | [] => .ok []
  | a :: rest => match step a with
    | .error e => .error e
    | .ok none => walk step rest
    | .ok (some b) => match walk step rest with
      | .error e => .error e
      | .ok out => .ok (b :: out)

namespace Table
variable {S : Schema} (table : Table S) (trx : Trx) (mode : ReadWriteMode) (predicates : List (Predicate S))

def filter (record : S.Record) : Bool := predicates.all fun p => p.holds record

def visit (row : RID × S.Record) : RC := trx.visitRecord (S.beginXid row.2) (S.endXid row.2) mode

/- `HeapRecordScanner` visits the record before the operator filters it. -/
def tableStep (row : RID × S.Record) : Except Exit (Option (RID × S.Record)) :=
  match visit trx mode row with
  | .recordInvisible => .ok none
  | .success => .ok (if filter predicates row.2 then some row else none)
  | rc => .error (.rc rc)

def tableScan : Except Exit (List (RID × S.Record)) := walk (tableStep trx mode predicates) table.heap

/- The index scan filters the record before it visits it. -/
def rowStep (row : RID × S.Record) : Except Exit (Option (RID × S.Record)) :=
  if filter predicates row.2 then match visit trx mode row with
    | .recordInvisible => .ok none
    | .success => .ok (some row)
    | rc => .error (.rc rc)
  else .ok none

def indexStep (rid : RID) : Except Exit (Option (RID × S.Record)) :=
  match table.heap.find? fun row => row.1 = rid with
  | none => .error (.rc .recordNotExist)
  | some row => rowStep trx mode predicates row

def indexScan {t : FieldType} (index : Index t) (value : t.Constant) : Except Exit (List (RID × S.Record)) :=
  match index.scan value with
  | .error e => .error e
  | .ok rids => walk (table.indexStep trx mode predicates) rids

def chooseIndex : List (Predicate S) → Option ((p : Predicate S) × Index (S.type p.field))
  | [] => none
  | p :: rest =>
    if p.op = .equalTo ∨ p.op = .notEqual then match (table.indexes p.field).head? with
      | some index => some ⟨p,index⟩
      | none => chooseIndex rest
    else chooseIndex rest

def scan : Except Exit (List (RID × S.Record)) :=
  match table.chooseIndex predicates with
  | some ⟨p,index⟩ => table.indexScan trx mode predicates index p.value
  | none => table.tableScan trx mode predicates

end Table
end MiniOb.Scan
