import MiniOb.Table.FieldMeta

/-! `TableMeta` (`storage/table/table_meta.cpp`) from a table's definition through the creation of indexes
(`storage/table/heap_table_engine.cpp`) to the meta file and back. -/
namespace MiniOb.Table
open List FieldMeta Option

inductive StorageFormat where
  | unknownFormat
  | rowFormat
  | paxFormat
  deriving DecidableEq, Repr

inductive StorageEngine where
  | heap
  | lsm
  | unknownEngine
  deriving DecidableEq, Repr

def StorageFormat.number : StorageFormat → Int32
  | unknownFormat => 0
  | rowFormat => 1
  | paxFormat => 2

def StorageEngine.number : StorageEngine → Int32
  | heap => 0
  | lsm => 1
  | unknownEngine => 2

/- The casts back. The source keeps any other number as it is; no file that is written holds one. -/
def StorageFormat.ofNumber (n : Int32) : Option StorageFormat :=
  [unknownFormat,rowFormat,paxFormat].find? fun f => f.number == n

def StorageEngine.ofNumber (n : Int32) : Option StorageEngine :=
  [heap,lsm,unknownEngine].find? fun e => e.number == n

theorem StorageFormat.ofNumberNumber (f : StorageFormat) : ofNumber f.number = some f := by
  cases f <;> decide

theorem StorageEngine.ofNumberNumber (e : StorageEngine) : ofNumber e.number = some e := by
  cases e <;> decide

structure AttrInfo where
  name : String
  type : AttrType
  length : Nat

structure TableMeta where
  tableId : Int32 := -1
  name : String := ""
  trxFields : List FieldMeta := []
  fields : List FieldMeta := []
  indexes : List IndexMeta := []
  primaryKeys : List String := []
  storageFormat : StorageFormat := .unknownFormat
  storageEngine : StorageEngine := .unknownEngine
  recordSize : Int32 := 0

namespace TableMeta

/- The copy constructor: the hidden fields and the primary keys are not copied. -/
def copy (other : TableMeta) : TableMeta := {other with trxFields := [],primaryKeys := []}

def swap (this other : TableMeta) : TableMeta :=
  {this with name := other.name,fields := other.fields,indexes := other.indexes,recordSize := other.recordSize}

def addIndex (this : TableMeta) (index : IndexMeta) : TableMeta := {this with indexes := this.indexes ++ [index]}

def sysFieldNum (this : TableMeta) : Nat := this.trxFields.length

def trxFieldSpan (this : TableMeta) : List FieldMeta := this.fields.take this.sysFieldNum

def field (this : TableMeta) (name : String) : Option FieldMeta := this.fields.find? fun f => f.name == name

/- The hidden fields; their constructor asserts that `init` accepts them. -/
def placeTrxFields : Int32 → List FieldMeta → Except Exit (List FieldMeta × Int32)
  | offset,[] => .ok ([],offset)
  | offset,f :: rest => match init f.name f.type offset f.len false f.fieldId with
    | .error _ => .error .abort
    | .ok field => match placeTrxFields (offset + f.len) rest with
      | .error e => .error e
      | .ok (fields,last) => .ok (field :: fields,last)

/- Lengths are `size_t`; they are cut to 32 bits in the field and when they are added to the offset. -/
def placeAttributes : Nat → Int32 → List AttrInfo → Except Exit (List FieldMeta × Int32)
  | _,offset,[] => .ok ([],offset)
  | i,offset,a :: rest => match init a.name a.type offset (Int32.ofNat a.length) true (Int32.ofNat i) with
    | .error rc => .error (.rc rc)
    | .ok field => match placeAttributes (i + 1) (offset + Int32.ofNat a.length) rest with
      | .error e => .error e
      | .ok (fields,last) => .ok (field :: fields,last)

def init (tableId : Int32) (name : String) (trxFields : Option (List FieldMeta)) (attributes : List AttrInfo)
    (primaryKeys : List String) (storageFormat : StorageFormat) (storageEngine : StorageEngine) : Except Exit TableMeta :=
  if isBlank name then .error (.rc .invalidArgument) else
  if attributes = [] then .error (.rc .invalidArgument) else
  match placeTrxFields 0 (trxFields.getD []) with
  | .error e => .error e
  | .ok (hidden,offset) => match placeAttributes 0 offset attributes with
    | .error e => .error e
    | .ok (shown,recordSize) => .ok {
        tableId,name,trxFields := trxFields.getD [],fields := hidden ++ shown,primaryKeys,
        storageFormat,storageEngine,recordSize}

def serialize (this : TableMeta) : Json :=
  .object [("table_id",.int this.tableId.toInt),("table_name",.string this.name),
    ("storage_format",.int this.storageFormat.number.toInt),("storage_engine",.int this.storageEngine.number.toInt),
    ("fields",Json.appended (this.fields.map toJson)),
    ("indexes",Json.appended (this.indexes.map IndexMeta.toJson)),
    ("primary_keys",Json.appended (this.primaryKeys.map Json.string))]

def readAll {α : Type} (read : Json → Option α) : List Json → Option (List α)
  | [] => some []
  | value :: rest => do
    let item ← read value
    let items ← readAll read rest
    some (item :: items)

def elements : Json → Option (List Json)
  | .null => some []
  | .array items => some items
  | .object [] => some []
  | _ => none

def sortByOffset (fields : List FieldMeta) : List FieldMeta := fields.mergeSort fun a b => decide (a.offset ≤ b.offset)

def orKept {α : Type} (kept : List α) : List α → List α
  | [] => kept
  | items => items

/- The vector of primary keys is made with as many empty names as there are keys, and the keys are then
pushed behind them. -/
def pushedKeys (keys : List String) : List String := replicate keys.length "" ++ keys

def deserialize (this : TableMeta) (value : Json) : Option TableMeta := do
  let tableId ← (value.get "table_id").asInt
  let name ← (value.get "table_name").asString
  let items ← match value.get "fields" with
    | .array (item :: items) => some (item :: items)
    | _ => none
  let storageFormat ← (value.get "storage_format").asInt.bind StorageFormat.ofNumber
  let storageEngine ← (value.get "storage_engine").asInt.bind StorageEngine.ofNumber
  let read ← readAll (fun item => (fromJson item).toOption) items
  let fields := sortByOffset read
  let front ← fields.head?
  let back ← fields.getLast?
  let this := {this with
    tableId,name,storageFormat,storageEngine,fields,
    recordSize := back.offset + back.len - front.offset,
    trxFields := this.trxFields ++ fields.filter (fun f : FieldMeta => !f.visible)}
  let indexItems ← elements (value.get "indexes")
  let indexes ← readAll (fun item => (IndexMeta.fromJson this.field item).toOption) indexItems
  let keyItems ← elements (value.get "primary_keys")
  let keys ← readAll Json.asString keyItems
  some {this with indexes := orKept this.indexes indexes,primaryKeys := orKept this.primaryKeys (pushedKeys keys)}

end TableMeta

/-! ### Creating indexes -/

/- `outcome` is what building the index over the rows and writing the new meta file answered. -/
structure IndexCall where
  indexName : String
  fieldName : String
  vector : Option (String × Int32 × Int32) := none
  outcome : Except RC Unit := .ok ()

def newIndexMeta (call : IndexCall) (field : FieldMeta) : Except RC IndexMeta :=
  if isBlank call.indexName then .error .invalidArgument else
  match call.vector with
  | none => IndexMeta.init call.indexName field .bplusTree
  | some (distance,lists,probes) =>
    if field.type ≠ .vectors then .error .invalidArgument else
    match IndexMeta.init call.indexName field .ivfflat with
    | .error rc => .error rc
    | .ok index => .ok {index with
        distanceMethod := if isBlank distance then index.distanceMethod else distance,
        lists := if 0 < lists then lists else index.lists,
        probes := if 0 < probes then probes else index.probes}

structure Described (text : Type) where
  info : TableMeta
  file : text

section
variable {text : Type} (write : Json → text)

def createTable (info : TableMeta) : Described text := ⟨info,write info.serialize⟩

def createIndex (call : IndexCall) (t : Described text) : Except RC IndexMeta × Described text :=
  if t.info.storageEngine ≠ .heap then (.error .unimplemented,t) else
  match t.info.field call.fieldName with
  | none => (.error .invalidArgument,t)
  | some field => match newIndexMeta call field,call.outcome with
    | .error rc,_ => (.error rc,t)
    | _,.error rc => (.error rc,t)
    | .ok index,.ok _ =>
      let created := t.info.copy.addIndex index
      (.ok index,⟨t.info.swap created,write created.serialize⟩)

def createIndexes : List IndexCall → Described text → List IndexMeta × Described text
  | [],t => ([],t)
  | call :: rest,t => match createIndex write call t with
    | (.ok index,next) => (index :: (createIndexes rest next).1,(createIndexes rest next).2)
    | (.error _,next) => createIndexes rest next

end

/-! ### Layout of the fields -/

def LaidOut : Int32 → List FieldMeta → Int32 → Prop
  | start,[],last => start = last
  | start,f :: rest,last => f.offset = start ∧ LaidOut (start + f.len) rest last

variable {start last offset : Int32} {fields : List FieldMeta} {attributes : List AttrInfo} {α : Type} {info : TableMeta}

theorem laidOutAppend {a b mid} (first : LaidOut start a mid) (second : LaidOut mid b last) :
    LaidOut start (a ++ b) last := by
  induction a generalizing start with
  | nil =>
    cases first
    exact second
  | cons f a ih => exact ⟨first.1,ih first.2⟩

theorem trxFieldsLaidOut {given}
    (placed : TableMeta.placeTrxFields offset given = .ok (fields,last)) :
    LaidOut offset fields last ∧ fields.length = given.length ∧ ∀ f ∈ fields,f.visible = false := by
  induction given generalizing offset fields with
  | nil =>
    cases placed
    exact ⟨rfl,rfl,fun f member => by cases member⟩
  | cons g rest ih =>
    simp only [TableMeta.placeTrxFields] at placed
    split at placed
    · cases placed
    · rename_i field made
      split at placed
      · cases placed
      · rename_i others end_ more
        cases placed
        obtain ⟨laid,count,hidden⟩ := ih more
        obtain ⟨_,_,offset,len,visible,_⟩ := initOk made
        exact ⟨⟨offset,len ▸ laid⟩,congrArg Nat.succ count,forall_mem_cons.mpr ⟨visible,hidden⟩⟩

theorem attributesLaidOut {i} (placed : TableMeta.placeAttributes i offset attributes = .ok (fields,last)) :
    LaidOut offset fields last ∧ fields.length = attributes.length ∧ ∀ f ∈ fields,f.visible = true := by
  induction attributes generalizing i offset fields with
  | nil =>
    cases placed
    exact ⟨rfl,rfl,fun f member => by cases member⟩
  | cons a rest ih =>
    simp only [TableMeta.placeAttributes] at placed
    split at placed
    · cases placed
    · rename_i field made
      split at placed
      · cases placed
      · rename_i others end_ more
        cases placed
        obtain ⟨laid,count,shown⟩ := ih more
        obtain ⟨_,_,offset,len,visible,_⟩ := initOk made
        exact ⟨⟨offset,len ▸ laid⟩,congrArg Nat.succ count,forall_mem_cons.mpr ⟨visible,shown⟩⟩

theorem offsetGrows {a b : Int32} (start : ¬ a < 0) (size : ¬ b ≤ 0) (next : ¬ a + b < 0) : a < a + b := by
  simp only [Int32.lt_iff_toInt_lt,Int32.le_iff_toInt_le,Int32.toInt_add,Int32.toInt_zero] at *
  have boundA := a.toInt_lt
  have boundB := b.toInt_lt
  simp only [Int.bmod] at *
  omega

theorem laidOutSorted (laid : LaidOut start fields last) : fields.Pairwise fun a b => a.offset < b.offset := by
  induction fields generalizing start with
  | nil => exact List.Pairwise.nil
  | cons f rest ih =>
    have later := ih laid.2
    cases rest with
    | nil => exact pairwise_singleton _ _
    | cons g more =>
      have follows : g.offset = f.offset + f.len := laid.2.1.trans (by rw [laid.1])
      have less : f.offset < g.offset := by
        have validF := f.valid
        have validG := g.valid
        rw [follows] at validG ⊢
        exact offsetGrows (fun h => validF (Or.inr (Or.inl h))) (fun h => validF (Or.inr (Or.inr h)))
          (fun h => validG (Or.inr (Or.inl h)))
      refine pairwise_cons.mpr ⟨fun h member => ?_,later⟩
      rcases mem_cons.mp member with rfl | inside
      · exact less
      · exact Int32.lt_trans less ((pairwise_cons.mp later).1 h inside)

theorem laidOutEnd {back} (laid : LaidOut start fields last)
    (final : fields.getLast? = some back) : back.offset + back.len = last := by
  induction fields generalizing start with
  | nil => cases final
  | cons f rest ih =>
    cases rest with
    | nil =>
      have same : f = back := by simpa using final
      subst same
      rw [laid.1]
      exact laid.2
    | cons g more => exact ih laid.2 (by simpa using final)

theorem sortLaidOut (laid : LaidOut start fields last) : TableMeta.sortByOffset fields = fields := by
  apply mergeSort_of_pairwise
  exact (laidOutSorted laid).imp fun less => by simpa using Int32.le_of_lt less

theorem readAllMap {read : Json → Option α}
    (each : ∀ item ∈ items,read (encode item) = some item) : TableMeta.readAll read (items.map encode) = some items := by
  induction items with
  | nil => rfl
  | cons item rest ih =>
    have first := each item mem_cons_self
    have others := ih fun other member => each other (mem_cons_of_mem _ member)
    simp [TableMeta.readAll,first,others]

/-! ### The file against the definition -/

structure Definition where
  tableId : Int32
  name : String
  fields : List FieldMeta
  trxFields : List FieldMeta
  recordSize : Int32
  primaryKeys : List String
  storageFormat : StorageFormat
  storageEngine : StorageEngine
  indexes : List IndexMeta

def TableMeta.describe (this : TableMeta) : Definition where
  tableId := this.tableId
  name := this.name
  fields := this.fields
  trxFields := this.trxFieldSpan
  recordSize := this.recordSize
  primaryKeys := this.primaryKeys
  storageFormat := this.storageFormat
  storageEngine := this.storageEngine
  indexes := this.indexes

structure Initial (info : TableMeta) : Prop where
  laid : LaidOut 0 info.fields info.recordSize
  some : info.fields ≠ []
  hidden : (info.fields.filter fun f : FieldMeta => !f.visible) = info.trxFieldSpan
  counted : info.sysFieldNum ≤ info.fields.length
  bare : info.indexes = []

theorem initInitial {tableId name trxFields primaryKeys storageFormat storageEngine}
    (made : TableMeta.init tableId name trxFields attributes primaryKeys storageFormat storageEngine = .ok info) :
    Initial info ∧ info.primaryKeys = primaryKeys := by
  unfold TableMeta.init at made
  split at made
  · cases made
  · split at made
    · cases made
    · rename_i nonempty
      split at made
      · cases made
      · rename_i hidden offset placedHidden
        split at made
        · cases made
        · rename_i shown recordSize placedShown
          cases made
          obtain ⟨laidHidden,countHidden,invisible⟩ := trxFieldsLaidOut placedHidden
          obtain ⟨laidShown,countShown,visible⟩ := attributesLaidOut placedShown
          refine ⟨⟨laidOutAppend laidHidden laidShown,?_,?_,?_,rfl⟩,rfl⟩
          · intro empty
            have none := (append_eq_nil_iff.mp empty).2
            rw [none] at countShown
            exact nonempty (length_eq_zero_iff.mp countShown.symm)
          · have left : (hidden.filter fun f : FieldMeta => !f.visible) = hidden :=
              filter_eq_self.mpr fun f member => by simp [invisible f member]
            have right : (shown.filter fun f : FieldMeta => !f.visible) = [] :=
              filter_eq_nil_iff.mpr fun f member => by simp [visible f member]
            simp [TableMeta.trxFieldSpan,TableMeta.sysFieldNum,left,right,← countHidden]
          · simp [TableMeta.sysFieldNum,← countHidden]

theorem elementsAppended (items : List Json) : TableMeta.elements (Json.appended items) = some items := by
  cases items <;> rfl

theorem orKeptNil (items : List α) : TableMeta.orKept [] items = items := by
  cases items <;> rfl

theorem serializeMembers (info : TableMeta) :
    info.serialize.get "table_id" = .int info.tableId.toInt ∧ info.serialize.get "table_name" = .string info.name ∧
    info.serialize.get "storage_format" = .int info.storageFormat.number.toInt ∧
    info.serialize.get "storage_engine" = .int info.storageEngine.number.toInt ∧
    info.serialize.get "fields" = Json.appended (info.fields.map toJson) ∧
    info.serialize.get "indexes" = Json.appended (info.indexes.map IndexMeta.toJson) ∧
    info.serialize.get "primary_keys" = Json.appended (info.primaryKeys.map Json.string) := by
  simp [TableMeta.serialize,Json.get,lookup_cons]

theorem deserializeSerialize (laid : LaidOut 0 info.fields info.recordSize) (some : info.fields ≠ [])
    (kept : ∀ index ∈ info.indexes,IndexMeta.Kept info.field index) :
    TableMeta.deserialize {} info.serialize = .some {info with
      trxFields := info.fields.filter fun f : FieldMeta => !f.visible,
      primaryKeys := TableMeta.pushedKeys info.primaryKeys} := by
  obtain ⟨id,name,format,engine,fieldItems,indexItems,keyItems⟩ := serializeMembers info
  obtain ⟨front,rest,cons⟩ := exists_cons_of_ne_nil some
  have readFields : TableMeta.readAll (fun item => (fromJson item).toOption) (info.fields.map toJson) =
      .some info.fields := readAllMap fun field _ => by rw [fromJsonToJson]; rfl
  have readIndexes : TableMeta.readAll (fun item => (IndexMeta.fromJson info.field item).toOption)
      (info.indexes.map IndexMeta.toJson) = .some info.indexes :=
    readAllMap fun index member => by rw [IndexMeta.fromJsonToJson (kept index member)]; rfl
  have readKeys : TableMeta.readAll Json.asString (info.primaryKeys.map Json.string) = .some info.primaryKeys :=
    readAllMap fun key _ => rfl
  have final : info.fields.getLast? = .some (info.fields.getLast some) := getLast?_eq_some_getLast some
  have size : (info.fields.getLast some).offset + (info.fields.getLast some).len - front.offset = info.recordSize := by
    have origin : front.offset = 0 := by
      rw [cons] at laid
      exact laid.1
    rw [laidOutEnd laid final,origin,Int32.sub_zero]
  have items : Json.appended (info.fields.map toJson) = .array (front.toJson :: rest.map toJson) := by
    rw [cons]
    rfl
  have first : info.fields.head? = .some front := by rw [cons]; rfl
  have sameField : ∀ t : TableMeta,t.fields = info.fields → t.field = info.field := by
    intro t same
    funext name
    rw [TableMeta.field,TableMeta.field,same]
  rw [cons,map_cons] at readFields
  simp only [TableMeta.deserialize,id,name,format,engine,fieldItems,indexItems,keyItems,items,Json.asIntInt,Json.asString,
    StorageFormat.ofNumberNumber,StorageEngine.ofNumberNumber,readFields,bind,bind_some]
  rw [← cons,sortLaidOut laid]
  simp only [first,final,bind_some,elementsAppended,sameField]
  simp only [readIndexes,readKeys,size,bind_some,orKeptNil,nil_append]

/-! ### Runs -/

/- A table after some of its indexes were created: memory has everything, the file lost the primary keys
with the first index. -/
structure Follows {text : Type} (write : Json → text) (info : TableMeta) (created : List IndexMeta) (t : Described text) : Prop where
  memory : t.info = {info with indexes := created}
  file : t.file = write (TableMeta.serialize {info with
    indexes := created,
    primaryKeys := if created = [] then info.primaryKeys else []})
  kept : ∀ index ∈ created,IndexMeta.Kept info.field index

theorem newIndexKept {call field index} (made : newIndexMeta call field = .ok index) :
    isBlank index.name = false ∧ index.field = field.name ∧ 0 < index.lists ∧ 0 < index.probes := by
  unfold newIndexMeta at made
  split at made
  · cases made
  · rename_i named
    have one : (0 : Int32) < 1 := by decide
    cases kind : call.vector with
    | none =>
      simp only [kind,IndexMeta.init,if_neg named] at made
      cases made
      exact ⟨by simpa using named,rfl,one,one⟩
    | some options =>
      simp only [kind,IndexMeta.init,if_neg named] at made
      split at made
      · cases made
      · cases made
        refine ⟨by simpa using named,rfl,?_,?_⟩
        · dsimp only
          split <;> assumption
        · dsimp only
          split <;> assumption

section
variable {text : Type} {write : Json → text} {info : TableMeta} {created : List IndexMeta} {t : Described text}

theorem createIndexStep (follows : Follows write info created t) (call : IndexCall) :
    (∃ rc,createIndex write call t = (.error rc,t)) ∨
    ∃ index next,createIndex write call t = (.ok index,next) ∧ Follows write info (created ++ [index]) next := by
  unfold createIndex
  split
  · exact Or.inl ⟨_,rfl⟩
  · cases found : t.info.field call.fieldName with
    | none => exact Or.inl ⟨_,rfl⟩
    | some field =>
      dsimp only
      split
      · exact Or.inl ⟨_,rfl⟩
      · exact Or.inl ⟨_,rfl⟩
      · rename_i index _ made _
        obtain ⟨named,fieldName,lists,probes⟩ := newIndexKept made
        have sameName : field.name = call.fieldName := by
          have hit := find?_some found
          simpa using hit
        have sameField : t.info.field = info.field := by
          rw [follows.memory]
          rfl
        refine Or.inr ⟨index,_,rfl,?_,?_,?_⟩
        · rw [follows.memory]
          rfl
        · rw [follows.memory]
          simp only [append_eq_nil_iff,cons_ne_self,and_false,if_false]
          rfl
        · intro other member
          rcases mem_append.mp member with old | new
          · exact follows.kept other old
          · cases mem_singleton.mp new
            refine ⟨named,⟨field,?_,fieldName.symm⟩,lists,probes⟩
            rw [← sameField,fieldName,sameName]
            exact found

theorem createIndexesRun (follows : Follows write info created t) (calls : List IndexCall) :
    Follows write info (created ++ (createIndexes write calls t).1) (createIndexes write calls t).2 := by
  induction calls generalizing created t with
  | nil => simpa [createIndexes] using follows
  | cons call rest ih =>
    simp only [createIndexes]
    rcases createIndexStep follows call with ⟨rc,failed⟩ | ⟨index,next,ok,after⟩
    · simp only [failed]
      exact ih follows
    · simp only [ok]
      have later := ih after
      rwa [append_assoc] at later

theorem Follows.read (parse : text → Option Json) (inverse : ∀ value,parse (write value) = some value)
    (laid : LaidOut 0 info.fields info.recordSize) (some : info.fields ≠ []) (follows : Follows write info created t) :
    (parse t.file).bind (TableMeta.deserialize {}) = .some {info with
      indexes := created,
      trxFields := info.fields.filter fun f : FieldMeta => !f.visible,
      primaryKeys := TableMeta.pushedKeys (if created = [] then info.primaryKeys else [])} := by
  rw [follows.file,inverse,bind_some]
  exact deserializeSerialize laid some follows.kept

theorem pushedKeysSelf (keys : List String) : TableMeta.pushedKeys keys = keys ↔ keys = [] := by
  constructor
  · intro same
    have lengths := congrArg length same
    simp only [TableMeta.pushedKeys,length_append,length_replicate] at lengths
    exact length_eq_zero_iff.mp (by omega)
  · intro none
    subst none
    rfl

theorem metaFileTellsIff (write : Json → text) (parse : text → Option Json) (inverse : ∀ value,parse (write value) = some value)
    {tableId : Int32} {name : String} {trxFields : Option (List FieldMeta)} {attributes : List AttrInfo}
    {primaryKeys : List String} {storageFormat : StorageFormat} {storageEngine : StorageEngine}
    (made : TableMeta.init tableId name trxFields attributes primaryKeys storageFormat storageEngine = .ok info)
    (calls : List IndexCall) :
    (∃ read,(parse (createIndexes write calls (createTable write info)).2.file).bind (TableMeta.deserialize {}) = some read ∧
      read.describe = TableMeta.describe {info with indexes := (createIndexes write calls (createTable write info)).1}) ↔
    primaryKeys = [] := by
  obtain ⟨initial,keys⟩ := initInitial made
  have bare : {info with indexes := []} = info := by rw [← initial.bare]
  have start : Follows write info [] (createTable write info) :=
    ⟨bare.symm,congrArg (fun i => write (TableMeta.serialize i)) bare.symm,fun index member => by cases member⟩
  have follows := createIndexesRun start calls
  generalize createIndexes write calls (createTable write info) = result at follows
  obtain ⟨created,t⟩ := result
  rw [follows.read parse inverse initial.laid initial.some]
  have hidden : (info.fields.filter fun f : FieldMeta => !f.visible).length = info.sysFieldNum := by
    rw [initial.hidden,TableMeta.trxFieldSpan,length_take]
    exact Nat.min_eq_left initial.counted
  constructor
  · intro ⟨other,same,told⟩
    cases some.inj same
    have keysTold : TableMeta.pushedKeys (if created = [] then info.primaryKeys else []) = info.primaryKeys :=
      congrArg Definition.primaryKeys told
    rw [← keys]
    split at keysTold
    · exact (pushedKeysSelf _).mp keysTold
    · exact keysTold.symm
  · intro none
    refine ⟨_,rfl,?_⟩
    have noKeys : info.primaryKeys = [] := keys.trans none
    simp only [TableMeta.describe,TableMeta.trxFieldSpan,TableMeta.sysFieldNum,noKeys,ite_self] at hidden ⊢
    rw [hidden]
    rfl

end

def hiddenField : FieldMeta :=
  {name := "__trx_xid_begin",type := .ints,offset := 0,len := 4,visible := false,fieldId := -1,named := by decide,valid := by decide}

def idField : FieldMeta :=
  {name := "id",type := .ints,offset := 4,len := 4,visible := true,fieldId := 0,named := by decide,valid := by decide}

def keyedTable (primaryKeys : List String) : TableMeta where
  tableId := 1
  name := "t"
  trxFields := [hiddenField]
  fields := [hiddenField,idField]
  primaryKeys := primaryKeys
  storageFormat := .rowFormat
  storageEngine := .heap
  recordSize := 8

theorem keyedTableInit (primaryKeys : List String) :
    TableMeta.init 1 "t" (some [hiddenField]) [⟨"id",.ints,4⟩] primaryKeys .rowFormat .heap = .ok (keyedTable primaryKeys) := rfl

def onId : IndexCall := {indexName := "i",fieldName := "id"}

theorem keylessTableTold : ∃ read,
    (some (createIndexes id [onId] (createTable id (keyedTable []))).2.file).bind (TableMeta.deserialize {}) = some read ∧
    read.describe = TableMeta.describe {keyedTable [] with
      indexes := (createIndexes id [onId] (createTable id (keyedTable []))).1} :=
  (metaFileTellsIff id some (fun _ => rfl) (keyedTableInit []) [onId]).mpr rfl

/- Without an index the key column comes back behind an empty name; with one it is gone. -/
theorem primaryKeyLost : (keyedTable ["id"]).primaryKeys = ["id"] ∧
    (TableMeta.deserialize {} (createTable id (keyedTable ["id"])).file).map TableMeta.primaryKeys = some ["","id"] ∧
    (TableMeta.deserialize {} (createIndexes id [onId] (createTable id (keyedTable ["id"]))).2.file).map
      TableMeta.primaryKeys = some [] := by
  have laid : LaidOut 0 (keyedTable ["id"]).fields (keyedTable ["id"]).recordSize := ⟨rfl,rfl,rfl⟩
  have some : (keyedTable ["id"]).fields ≠ [] := cons_ne_nil _ _
  have start : Follows id (keyedTable ["id"]) [] (createTable id (keyedTable ["id"])) :=
    ⟨rfl,rfl,fun index member => by cases member⟩
  have follows := createIndexesRun start [onId]
  have whole := start.read Option.some (fun _ => rfl) laid some
  have indexed := follows.read Option.some (fun _ => rfl) laid some
  exact ⟨rfl,congrArg (Option.map TableMeta.primaryKeys) whole,congrArg (Option.map TableMeta.primaryKeys) indexed⟩

end MiniOb.Table
