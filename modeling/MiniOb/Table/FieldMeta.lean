import MiniOb.Common.Types

/-! Metadata of fields and indexes and their JSON form (`storage/field/field_meta.cpp`,
`storage/index/index_meta.cpp`, `common/type/attr_type.cpp`). -/
namespace MiniOb.Table

def isSpace (c : Char) : Bool := c ∈ [' ','\t','\n',Char.ofNat 11,Char.ofNat 12,'\r']

def isBlank (s : String) : Bool := s.toList.all isSpace

inductive Json where
  | null
  | bool (b : Bool)
  | int (n : Int)
  | string (s : String)
  | array (items : List Json)
  | object (members : List (String × Json))

namespace Json

def get (value : Json) (name : String) : Json := match value with
  | .object members => (members.lookup name).getD .null
  | _ => .null

def asString : Json → Option String
  | .string s => some s
  | _ => none

def asBool : Json → Option Bool
  | .bool b => some b
  | _ => none

def asInt : Json → Option Int32
  | .int n => if -2 ^ 31 ≤ n ∧ n < 2 ^ 31 then some (Int32.ofInt n) else none
  | _ => none

/- A value that was filled with `append`: it stays null when nothing was appended. -/
def appended : List Json → Json
  | [] => .null
  | items => .array items

@[simp] theorem asIntInt (n : Int32) : asInt (.int n.toInt) = some n := by
  have bounds : -2 ^ 31 ≤ n.toInt ∧ n.toInt < 2 ^ 31 := ⟨n.le_toInt,n.toInt_lt⟩
  simp only [asInt,if_pos bounds,Int32.ofInt_toInt]

end Json

inductive AttrType where
  | undefined
  | chars
  | ints
  | floats
  | vectors
  | booleans
  deriving DecidableEq, Repr

namespace AttrType

def name : AttrType → String
  | undefined => "undefined"
  | chars => "chars"
  | ints => "ints"
  | floats => "floats"
  | vectors => "vectors"
  | booleans => "booleans"

def all : List AttrType := [undefined,chars,ints,floats,vectors,booleans]

def lower (s : String) : List Char := s.toList.map Char.toLower

/- `attr_type_from_string`: `strcasecmp` with each name in turn. -/
def ofName (s : String) : AttrType := (all.find? fun t => lower t.name == lower s).getD undefined

@[simp] theorem ofNameName (t : AttrType) : ofName t.name = t := by
  cases t <;> decide

end AttrType

/- `FieldMeta::init` refuses everything else. -/
structure FieldMeta where
  name : String
  type : AttrType
  offset : Int32
  len : Int32
  visible : Bool
  fieldId : Int32
  named : isBlank name = false
  valid : ¬ (type = .undefined ∨ offset < 0 ∨ len ≤ 0)
  deriving DecidableEq

namespace FieldMeta

def init (name : String) (type : AttrType) (offset len : Int32) (visible : Bool) (fieldId : Int32) : Except RC FieldMeta :=
  if named : isBlank name = false then
    if valid : ¬ (type = .undefined ∨ offset < 0 ∨ len ≤ 0) then .ok {name,type,offset,len,visible,fieldId,named,valid}
    else .error .invalidArgument
  else .error .invalidArgument

def toJson (field : FieldMeta) : Json :=
  .object [("name",.string field.name),("type",.string field.type.name),("offset",.int field.offset.toInt),
    ("len",.int field.len.toInt),("visible",.bool field.visible),("FIELD_id",.int field.fieldId.toInt)]

def fromJson (value : Json) : Except RC FieldMeta :=
  match (value.get "name").asString,(value.get "type").asString,(value.get "offset").asInt,(value.get "len").asInt,
      (value.get "visible").asBool,(value.get "FIELD_id").asInt with
  | some name,some type,some offset,some len,some visible,some fieldId =>
    if AttrType.ofName type = .undefined then .error .internal
    else init name (AttrType.ofName type) offset len visible fieldId
  | _,_,_,_,_,_ => .error .internal

theorem initSelf (field : FieldMeta) :
    init field.name field.type field.offset field.len field.visible field.fieldId = .ok field := by
  simp only [init,dif_pos field.named,dif_pos field.valid]

theorem initOk {name type offset len fieldId visible field}
    (ok : init name type offset len visible fieldId = .ok field) :
    field.name = name ∧ field.type = type ∧ field.offset = offset ∧ field.len = len ∧ field.visible = visible ∧
      field.fieldId = fieldId := by
  unfold init at ok
  split at ok
  · split at ok
    · cases Except.ok.inj ok
      exact ⟨rfl,rfl,rfl,rfl,rfl,rfl⟩
    · cases ok
  · cases ok

theorem fromJsonToJson (field : FieldMeta) : fromJson field.toJson = .ok field := by
  have typed : field.type ≠ .undefined := fun h => field.valid (Or.inl h)
  have read : fromJson field.toJson = if AttrType.ofName field.type.name = .undefined then .error .internal
      else init field.name (AttrType.ofName field.type.name) field.offset field.len field.visible field.fieldId := by
    simp [fromJson,toJson,Json.get,List.lookup_cons,Json.asString,Json.asBool]
  rw [read,AttrType.ofNameName,if_neg typed,initSelf]

end FieldMeta

inductive IndexType where
  | bplusTree
  | ivfflat
  deriving DecidableEq, Repr

structure IndexMeta where
  name : String
  field : String
  indexType : IndexType := .bplusTree
  distanceMethod : String := ""
  lists : Int32 := 1
  probes : Int32 := 1
  deriving DecidableEq

namespace IndexMeta

def init (name : String) (field : FieldMeta) (type : IndexType) : Except RC IndexMeta :=
  if isBlank name then .error .invalidArgument else .ok {name,field := field.name,indexType := type}

def typeName : IndexType → String
  | .bplusTree => "bplus_tree"
  | .ivfflat => "ivfflat"

def toJson (index : IndexMeta) : Json :=
  .object ([("name",.string index.name),("field_name",.string index.field),("index_type",.string (typeName index.indexType))] ++
    (if index.distanceMethod = "" then [] else [("distance_method",.string index.distanceMethod)]) ++
    (if 0 < index.lists then [("lists",.int index.lists.toInt)] else []) ++
    (if 0 < index.probes then [("probes",.int index.probes.toInt)] else []))

/- `table.field` finds the field that the index names. -/
def fromJson (findField : String → Option FieldMeta) (value : Json) : Except RC IndexMeta :=
  match (value.get "name").asString,(value.get "field_name").asString with
  | some name,some fieldName => match findField fieldName with
    | none => .error .schemaFieldMissing
    | some field =>
      let type := if (value.get "index_type").asString = some (typeName .ivfflat) then IndexType.ivfflat else .bplusTree
      match init name field type with
      | .error rc => .error rc
      | .ok index => .ok {index with
          distanceMethod := (value.get "distance_method").asString.getD index.distanceMethod,
          lists := (value.get "lists").asInt.getD index.lists,
          probes := (value.get "probes").asInt.getD index.probes}
  | _,_ => .error .internal

structure Kept (findField : String → Option FieldMeta) (index : IndexMeta) : Prop where
  named : isBlank index.name = false
  found : ∃ field,findField index.field = some field ∧ field.name = index.field
  lists : 0 < index.lists
  probes : 0 < index.probes

theorem readTypeName (type : IndexType) :
    (if typeName type = typeName .ivfflat then IndexType.ivfflat else .bplusTree) = type := by
  cases type <;> decide

theorem fromJsonToJson (kept : Kept findField index) :
    fromJson findField index.toJson = .ok index := by
  obtain ⟨named,⟨field,found,same⟩,lists,probes⟩ := kept
  obtain ⟨name,fieldName,type,distance,lists',probes'⟩ := index
  -- an empty method is not written and stays at its default
  by_cases method : distance = ""
  · simp [fromJson,toJson,Json.get,List.lookup_cons,Json.asString,found,same,init,named,lists,probes,method,readTypeName]
  · simp [fromJson,toJson,Json.get,List.lookup_cons,Json.asString,found,same,init,named,lists,probes,method,readTypeName]

end IndexMeta
end MiniOb.Table
