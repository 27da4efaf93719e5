import MiniOb.BplusTree.Invariant
import MiniOb.Table.FieldMeta
import MiniOb.Table.HeapTableEngine
import MiniOb.Table.IvfflatFile

/-! The indexes of a heap table from their creation through `sync` and `close` to `HeapTableEngine::open`. -/
namespace MiniOb.Reopen
open Prog Heap IvfflatIndex
open BplusTree (Handler IndexFile IndexFileHeader IndexKey KeyOps TreeM)
open Table (IndexMeta)

structure Schema (R A V : Type) where
  isField : String → Bool
  isVector : String → Bool
  attrType : String → Int32
  attrLength : String → Int32
  keyOps : String → KeyOps (IndexKey A)
  attr : String → R → A
  vector : String → R → V
  codec : String → VectorCodec V
  metric : Metric V

/- The class of an index, its state, and what was last written to its file. Pages of a tree that the buffer pool writes
back earlier are written again by `sync`. -/
inductive Content (A V : Type) where
  | bplusTree (handler : Handler (IndexKey A)) (stored : IndexFile (IndexKey A))
  | ivfflat (vectors : IvfflatIndex V) (stored : Bytes)

structure Index (A V : Type) where
  indexMeta : IndexMeta
  content : Content A V

inductive File (A : Type) where
  | pages (disk : IndexFile (IndexKey A))
  | bytes (bytes : Bytes)

variable {R A V : Type}

namespace Index

def onContent (tree : TreeM (IndexKey A) Unit) (ivf : Prog (IvfflatIndex V) Exit Unit) : Prog (Index A V) Exit Unit := fun index =>
  match index.content with
  | .bplusTree handler stored => ((tree handler).1,{ index with content := .bplusTree (tree handler).2 stored })
  | .ivfflat vectors stored => ((ivf vectors).1,{ index with content := .ivfflat (ivf vectors).2 stored })

def sync (index : Index A V) : Index A V := match index.content with
  | .bplusTree handler _ => { index with content := .bplusTree handler handler.disk }
  | .ivfflat _ _ => index

def close (index : Index A V) : IndexMeta × File A := (index.indexMeta,match index.content with
  | .bplusTree _ stored => .pages stored
  | .ivfflat _ stored => .bytes stored)

end Index

section
variable (schema : Schema R A V)

def indexOps : IndexOps R (Index A V) where
  insertEntry record rid index := Index.onContent
    (BplusTree.insertEntry (schema.keyOps index.indexMeta.field) (schema.attr index.indexMeta.field record) rid)
    (insertEntry schema.metric (schema.vector index.indexMeta.field record) rid) index
  deleteEntry record rid index := Index.onContent
    (BplusTree.deleteEntry (schema.keyOps index.indexMeta.field) (schema.attr index.indexMeta.field record) rid)
    (deleteEntry schema.metric (schema.vector index.indexMeta.field record) rid) index

def newTree (field : String) (bufferPoolId : Int32) : Except Exit Unit × Handler (IndexKey A) :=
  BplusTree.create (schema.keyOps field) (schema.attrType field) (schema.attrLength field) (-1) (-1) (BplusTree.emptyFile bufferPoolId)

/- `visible` are the records that the scan of the creating transaction shows. `BplusTreeHandler::create` ends with a `sync`. -/
def createIndex (name field : String) (bufferPoolId : Int32) (visible : R → Bool) : Prog (Engine R (Index A V)) Exit Unit := do
  checkName (fun index => index.indexMeta.name) name
  let engine ← read id
  if schema.isField field = false then exit (.rc .invalidArgument)
  else match newTree schema field bufferPoolId with
    | (.error e,_) => exit e
    | (.ok _,handler) =>
      pushIndex (indexOps schema) (engine.heap.filter fun row => visible row.2) ⟨{ name, field },.bplusTree handler handler.disk⟩

def vectorMeta (name field distanceMethod : String) (lists probes : Int32) : IndexMeta where
  name := name
  field := field
  indexType := .ivfflat
  distanceMethod := if Table.isBlank distanceMethod then "" else distanceMethod
  lists := orOne lists
  probes := orOne probes

def Index.save (index : Index A V) : Index A V := match index.content with
  | .bplusTree _ _ => index
  | .ivfflat vectors _ => { index with content := .ivfflat vectors (vectors.saveToFile (schema.codec index.indexMeta.field)) }

def createVectorIndex (name field distanceMethod : String) (lists probes : Int32) (centroids : Nat → V) :
    Prog (Engine R (Index A V)) Exit Unit := do
  checkName (fun index => index.indexMeta.name) name
  let engine ← read id
  let info := vectorMeta name field distanceMethod lists probes
  if schema.isField field = false ∨ schema.isVector field = false then exit (.rc .invalidArgument)
  else match create info.distanceMethod info.lists info.probes engine.heap.length centroids with
    | .error code => exit (.rc code)
    | .ok vectors => match fill (indexOps schema) engine.heap ⟨info,.ivfflat vectors []⟩ with
      | (.error e,_) => exit e
      | (.ok _,filled) => update fun engine => { engine with indexes := engine.indexes ++ [filled.save schema] }

inductive Call (R V : Type) where
  | createIndex (name field : String) (bufferPoolId : Int32) (visible : R → Bool)
  | createVectorIndex (name field distanceMethod : String) (lists probes : Int32) (centroids : Nat → V)
  | insertRecord (record : R) (rid : RID)
  | deleteRecord (data : Option R) (rid : RID)

def Call.run : Call R V → Prog (Engine R (Index A V)) Exit Unit
  | .createIndex name field bufferPoolId visible => Reopen.createIndex schema name field bufferPoolId visible
  | .createVectorIndex name field distanceMethod lists probes centroids =>
    Reopen.createVectorIndex schema name field distanceMethod lists probes centroids
  | .insertRecord record rid => Heap.insertRecord (indexOps schema) record rid
  | .deleteRecord data rid => Heap.deleteRecord (indexOps schema) data rid

def run (calls : List (Call R V)) : Prog (Engine R (Index A V)) Exit Unit :=
  each (fun call => ignore Exit.isCode (call.run schema)) calls

end

/-! ### Opening -/

/- What the opening finds beside the files: the log, and what comes out of a file of at least a page that is taken for
the pages of a tree and is not. -/
structure Surroundings (A : Type) where
  currentLsn : LSN
  log : List BplusTree.LogRecord
  misread : Bytes → Except Exit (IndexFile (IndexKey A))

def treeOf (around : Surroundings A) (disk : IndexFile (IndexKey A)) : Handler (IndexKey A) where
  disk := disk
  mtr := (BplusTree.emptyFile 0 : Handler (IndexKey A)).mtr
  currentLsn := around.currentLsn
  log := around.log

def openTree (around : Surroundings A) : File A → Except Exit (Handler (IndexKey A))
  | .pages disk => .ok (treeOf around disk)
  | .bytes bytes => if bytes.length < bpPageSize then .error (.rc .ioerrRead) else (around.misread bytes).map (treeOf around)

/- `HeapTableEngine::open` makes a `BplusTreeIndex` of every index. -/
def openIndexes (schema : Schema R A V) (around : Surroundings A) : List (IndexMeta × File A) → Except Exit (List (Index A V))
  | [] => .ok []
  | (indexMeta,file) :: rest =>
    if schema.isField indexMeta.field = false then .error (.rc .internal)
    else do
      let handler ← openTree around file
      let others ← openIndexes schema around rest
      .ok (⟨indexMeta,.bplusTree handler handler.disk⟩ :: others)

def sync (engine : Engine R (Index A V)) : Engine R (Index A V) := { engine with indexes := engine.indexes.map Index.sync }

def close (engine : Engine R (Index A V)) : List (IndexMeta × File A) := engine.indexes.map Index.close

inductive Shown (A V : Type) where
  | bplusTree (indexMeta : IndexMeta) (header : IndexFileHeader) (entries : List (IndexKey A × RID))
  | ivfflat (indexMeta : IndexMeta) (vectors : IvfflatIndex V)

def Index.shown (index : Index A V) : Shown A V := match index.content with
  | .bplusTree handler _ => .bplusTree index.indexMeta handler.disk.header handler.disk.entries
  | .ivfflat vectors _ => .ivfflat index.indexMeta vectors

def Restored (schema : Schema R A V) (around : Surroundings A) (engine : Engine R (Index A V)) : Prop :=
  ∃ indexes,openIndexes schema around (close (sync engine)) = .ok indexes ∧ indexes.map Index.shown = engine.indexes.map Index.shown

/-! ### Runs -/

def Index.isTree (index : Index A V) : Bool := match index.content with
  | .bplusTree _ _ => true
  | .ivfflat _ _ => false

def Index.kind (index : Index A V) : IndexMeta × Bool := (index.indexMeta,index.isTree)

section
variable (schema : Schema R A V)

def Sound (kind : IndexMeta × Bool) : Prop := schema.isField kind.1.field = true ∧ (kind.1.indexType = .bplusTree ↔ kind.2 = true)

def AllSound (engine : Engine R (Index A V)) : Prop := ∀ kind ∈ engine.indexes.map Index.kind,Sound schema kind

theorem onContentKind (tree : TreeM (IndexKey A) Unit) (ivf : Prog (IvfflatIndex V) Exit Unit) (index : Index A V) :
    (Index.onContent tree ivf index).2.kind = index.kind := by
  rcases index with ⟨indexMeta,⟨handler,stored⟩ | ⟨vectors,stored⟩⟩ <;> rfl

theorem kindUntouched : Untouched (indexOps schema) Index.kind where
  insert _ _ _ := onContentKind _ _ _
  delete _ _ _ := onContentKind _ _ _

variable {schema}

variable {engine : Engine R (Index A V)} {index : Index A V} {call : Call R V} {indexes : List (Index A V)}
  {indexMeta : IndexMeta}

theorem AllSound.push (sound : AllSound schema engine) (new : Sound schema index.kind) :
    AllSound schema { engine with indexes := engine.indexes ++ [index] } := by
  intro kind inside
  rw [List.map_append,List.mem_append] at inside
  rcases inside with old | last
  · exact sound kind old
  · rw [List.mem_singleton.1 last]
    exact new

theorem pushSound (new : Sound schema index.kind) (rows : List (RID × R)) :
    Keeps (AllSound schema) (pushIndex (indexOps schema) rows index) := by
  intro engine sound
  have filled := fillView (kindUntouched schema) rows index
  unfold pushIndex
  rcases ran : fill (indexOps schema) rows index with ⟨result,last⟩
  rw [ran] at filled
  cases result with
  | ok _ => exact sound.push (filled ▸ new)
  | error e => exact sound

theorem createIndexSound (name field : String) (bufferPoolId : Int32) (visible : R → Bool) :
    Keeps (AllSound schema) (createIndex schema name field bufferPoolId visible) := by
  refine keepsBind (fun engine sound => (checkNameSame _ name engine).symm ▸ sound) fun _ => keepsBind keepsRead fun engine => ?_
  refine keepsIte (fun _ => keepsExit) fun known => ?_
  split
  · exact keepsExit
  · have isField : schema.isField field = true := by simpa using known
    exact pushSound ⟨isField,by simp [Index.kind,Index.isTree]⟩ _

theorem saveKind (index : Index A V) : (index.save schema).kind = index.kind := by
  rcases index with ⟨indexMeta,⟨handler,stored⟩ | ⟨vectors,stored⟩⟩ <;> rfl

theorem createVectorIndexSound (name field distanceMethod : String) (lists probes : Int32) (centroids : Nat → V) :
    Keeps (AllSound schema) (createVectorIndex schema name field distanceMethod lists probes centroids) := by
  refine keepsBind (fun engine sound => (checkNameSame _ name engine).symm ▸ sound) fun _ => keepsBind keepsRead fun engine => ?_
  refine keepsIte (fun _ => keepsExit) fun known => ?_
  split
  · exact keepsExit
  · rename_i vectors _
    have filled := fillView (kindUntouched schema) engine.heap
      ⟨vectorMeta name field distanceMethod lists probes,.ivfflat vectors []⟩
    split
    · exact keepsExit
    · rename_i last ran
      rw [ran] at filled
      refine keepsUpdate fun engine sound => sound.push ?_
      rw [saveKind,filled]
      have isField : schema.isField field = true := by
        have both := not_or.1 known
        simpa using both.1
      exact ⟨isField,by simp [Index.kind,Index.isTree,vectorMeta]⟩

def Call.isUpdate : Call R V → Bool
  | .insertRecord _ _ => true
  | .deleteRecord _ _ => true
  | _ => false

theorem updateViews {view : Index A V → β} (untouched : Untouched (indexOps schema) view)
    (update : call.isUpdate = true) (engine : Engine R (Index A V)) :
    (call.run schema engine).2.indexes.map view = engine.indexes.map view := by
  cases call with
  | insertRecord record rid => exact insertRecordViews untouched record rid engine
  | deleteRecord data rid => exact deleteRecordViews untouched data rid engine
  | createIndex name field bufferPoolId visible => cases update
  | createVectorIndex name field distanceMethod lists probes centroids => cases update

theorem AllSound.update (update : call.isUpdate = true) : Keeps (AllSound schema) (call.run schema) := by
  intro engine sound
  unfold AllSound
  rw [updateViews (kindUntouched schema) update]
  exact sound

theorem callSound (call : Call R V) : Keeps (AllSound schema) (call.run schema) := by
  cases call with
  | createIndex name field bufferPoolId visible => exact createIndexSound name field bufferPoolId visible
  | createVectorIndex name field distanceMethod lists probes centroids =>
    exact createVectorIndexSound name field distanceMethod lists probes centroids
  | insertRecord record rid => exact AllSound.update rfl
  | deleteRecord data rid => exact AllSound.update rfl

theorem runSound (calls : List (Call R V)) : Keeps (AllSound schema) (run schema calls) :=
  keepsEach fun call _ => keepsIgnore (callSound call)

/-! ### What comes back -/

theorem openedTrees
    (opened : openIndexes schema around files = .ok indexes) : ∀ index ∈ indexes,index.isTree = true := by
  induction files generalizing indexes with
  | nil =>
    cases opened
    simp
  | cons first rest ih =>
    unfold openIndexes at opened
    split at opened
    · cases opened
    · simp only [bind,Except.bind] at opened
      split at opened
      · cases opened
      · split at opened
        · cases opened
        · rename_i others later
          cases opened
          exact List.forall_mem_cons.2 ⟨rfl,ih later⟩

theorem treesRestored (around : Surroundings A)
    (trees : ∀ index ∈ indexes,schema.isField index.indexMeta.field = true ∧ index.isTree = true) :
    ∃ last,openIndexes schema around ((indexes.map Index.sync).map Index.close) = .ok last ∧
      last.map Index.shown = indexes.map Index.shown := by
  induction indexes with
  | nil => exact ⟨[],rfl,rfl⟩
  | cons index rest ih =>
    obtain ⟨⟨known,isTree⟩,others⟩ := List.forall_mem_cons.1 trees
    obtain ⟨last,opened,same⟩ := ih others
    rcases index with ⟨indexMeta,⟨handler,stored⟩ | ⟨vectors,stored⟩⟩
    · refine ⟨⟨indexMeta,.bplusTree (treeOf around handler.disk) handler.disk⟩ :: last,?_,?_⟩
      · simp only [List.map_cons,Index.sync,Index.close,openIndexes,known,openTree,opened,bind,Except.bind]
        rfl
      · simp only [List.map_cons,same]
        rfl
    · cases isTree

theorem shownTree {other : Index A V} (same : index.shown = other.shown) : index.isTree = other.isTree := by
  rcases index with ⟨indexMeta,⟨handler,stored⟩ | ⟨vectors,stored⟩⟩ <;>
    rcases other with ⟨indexMeta',⟨handler',stored'⟩ | ⟨vectors',stored'⟩⟩ <;> simp [Index.shown,Index.isTree] at same ⊢

theorem restoredIff (around : Surroundings A) (calls : List (Call R V)) :
    Restored schema around (run schema calls ⟨[],[]⟩).2 ↔
      ∀ index ∈ (run schema calls ⟨[],[]⟩).2.indexes,index.indexMeta.indexType = .bplusTree := by
  have sound : AllSound schema (run schema calls ⟨[],[]⟩).2 := runSound calls _ (by simp [AllSound])
  generalize (run schema calls ⟨[],[]⟩).2 = engine at sound ⊢
  have each : ∀ index ∈ engine.indexes,Sound schema index.kind := fun index inside => sound _ (List.mem_map_of_mem inside)
  constructor
  · intro restored index inside
    obtain ⟨indexes,opened,same⟩ := restored
    have there : index.shown ∈ indexes.map Index.shown := same ▸ List.mem_map_of_mem inside
    obtain ⟨other,member,shown⟩ := List.mem_map.1 there
    exact (each index inside).2.2 ((shownTree shown).symm.trans (openedTrees opened other member))
  · intro trees
    exact treesRestored around fun index inside => ⟨(each index inside).1,(each index inside).2.1 (trees index inside)⟩

/-! ### The file of an IVF-Flat index -/

def Index.vectorFile (index : Index A V) : IndexMeta × Option Bytes := (index.indexMeta,match index.content with
  | .bplusTree _ _ => none
  | .ivfflat _ stored => some stored)

theorem onContentFile (tree : TreeM (IndexKey A) Unit) (ivf : Prog (IvfflatIndex V) Exit Unit) (index : Index A V) :
    (Index.onContent tree ivf index).2.vectorFile = index.vectorFile := by
  rcases index with ⟨indexMeta,⟨handler,stored⟩ | ⟨vectors,stored⟩⟩ <;> rfl

variable (schema) in
theorem vectorFileUntouched : Untouched (indexOps schema) Index.vectorFile where
  insert _ _ _ := onContentFile _ _ _
  delete _ _ _ := onContentFile _ _ _

theorem closedFile (file : index.vectorFile = (indexMeta,some stored)) :
    index.sync.close = (indexMeta,.bytes stored) := by
  rcases index with ⟨indexMeta',⟨handler,stored'⟩ | ⟨vectors,stored'⟩⟩
  · cases file
  · cases file
    rfl

/- No insertion or deletion gets to the file: even `IvfflatIndex::open` would find the entries of the creation. -/
theorem loadedAsCreated (updates : ∀ call ∈ calls,call.isUpdate = true) {i : Nat} (fits : created.Fits codec)
    (there : engine.indexes[i]? = some ⟨indexMeta,.ivfflat created (created.saveToFile codec)⟩) :
    (close (sync (run schema calls engine).2))[i]? = some (indexMeta,.bytes (created.saveToFile codec)) ∧
      loadFromFile codec (created.saveToFile codec) = some created := by
  have kept : (run schema calls engine).2.indexes.map Index.vectorFile = engine.indexes.map Index.vectorFile :=
    keepsEach (R := fun next : Engine R (Index A V) => next.indexes.map Index.vectorFile = engine.indexes.map Index.vectorFile)
      (fun call inside => keepsIgnore fun next same => (updateViews (vectorFileUntouched schema) (updates call inside) next).trans same)
      engine rfl
  have last : ((run schema calls engine).2.indexes.map Index.vectorFile)[i]? = some (indexMeta,some (created.saveToFile codec)) := by
    rw [kept,List.getElem?_map,there]
    rfl
  rw [List.getElem?_map] at last
  obtain ⟨index,found,file⟩ := Option.map_eq_some_iff.1 last
  refine ⟨?_,loadSaved fits⟩
  rw [close,sync,List.getElem?_map,List.getElem?_map,found]
  exact congrArg some (closedFile file)

end

/-! A table with one vector field, an index on it and a record. -/

def vectorTable : Schema Int32 Int32 Int32 where
  isField field := field = "v"
  isVector field := field = "v"
  attrType _ := 4
  attrLength _ := 4
  keyOps _ := ⟨fun a b => a.attr.toInt - b.attr.toInt,12,fun _ => [],fun _ => ⟨0,⟨0,0⟩⟩⟩
  attr _ record := record
  vector _ record := record
  codec _ := ⟨1,Bytes.ofInt32,fun bytes => ((Bytes.readInt32 bytes).map Prod.fst).getD 0⟩
  metric := ⟨fun _ _ _ => true,fun _ _ _ _ => false⟩

def vectorCalls : List (Call Int32 Int32) := [.createVectorIndex "i" "v" "" 1 1 fun _ => 0,.insertRecord 5 ⟨1,0⟩]

theorem vectorIndexGone : (run vectorTable vectorCalls ⟨[],[]⟩).1 = .ok () ∧
    (run vectorTable vectorCalls ⟨[],[]⟩).2.indexes.map Index.kind = [(vectorMeta "i" "v" "" 1 1,false)] ∧
    ∀ around,openIndexes vectorTable around (close (sync (run vectorTable vectorCalls ⟨[],[]⟩).2)) = .error (.rc .ioerrRead) ∧
      ¬ Restored vectorTable around (run vectorTable vectorCalls ⟨[],[]⟩).2 := by
  refine ⟨rfl,rfl,fun around => ?_⟩
  have failed : openIndexes vectorTable around (close (sync (run vectorTable vectorCalls ⟨[],[]⟩).2)) = .error (.rc .ioerrRead) := rfl
  refine ⟨failed,fun restored => ?_⟩
  obtain ⟨indexes,opened,_⟩ := restored
  cases failed.symm.trans opened

def oneCentroid : IvfflatIndex Int32 := ⟨"",1,1,[0],[[]],by decide,rfl,rfl⟩

theorem insertedNotLoaded : (close (sync (run vectorTable [.insertRecord 5 ⟨1,0⟩]
      ⟨[],[⟨vectorMeta "i" "v" "" 1 1,.ivfflat oneCentroid (oneCentroid.saveToFile (vectorTable.codec "v"))⟩]⟩).2))[0]? =
        some (vectorMeta "i" "v" "" 1 1,.bytes (oneCentroid.saveToFile (vectorTable.codec "v"))) ∧
    loadFromFile (vectorTable.codec "v") (oneCentroid.saveToFile (vectorTable.codec "v")) = some oneCentroid := by
  have exactly : (vectorTable.codec "v").Exact (0 : Int32) := ⟨rfl,rfl⟩
  have fits : oneCentroid.Fits (vectorTable.codec "v") :=
    ⟨by simpa [oneCentroid] using exactly,by simp [oneCentroid],by simp [oneCentroid],by decide⟩
  exact loadedAsCreated (by simp [Call.isUpdate]) fits rfl

end MiniOb.Reopen
