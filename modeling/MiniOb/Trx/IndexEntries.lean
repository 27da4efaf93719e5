import Mathlib.Data.List.Nodup
import MiniOb.Trx.MvccTrx

/-! The entries of the indexes over the records of the heap, through every run of the transactions. -/
namespace MiniOb.Mvcc
open Prog Heap List
variable {F D K : Type} (schema : Schema F D K)

def expected (column : Column F) (rows : List (RID × Record D)) : List (K × RID) :=
  rows.map fun row => (schema.key column row.2,row.1)

def Consistent (engine : Engine (Record D) (Index F K)) : Prop := ∀ index ∈ engine.indexes,
  (∀ row ∈ engine.heap,(index.entries.filter fun item => item.2 = row.1) = [(schema.key index.column row.2,row.1)]) ∧
  ∀ item ∈ index.entries,∃ row ∈ engine.heap,row.1 = item.2

structure Kept (engine : Engine (Record D) (Index F K)) : Prop where
  distinct : engine.rids.Nodup
  entries : ∀ index ∈ engine.indexes,index.entries.Perm (expected schema index.column engine.heap)

variable {rows : List (RID × Record D)} {engine : Engine (Record D) (Index F K)} {rid : RID} {index : Index F K}
  {column : Column F} {operations : List Operation} {s : State F D K}

theorem expectedOf (distinct : (rows.map Prod.fst).Nodup) (column : Column F)
    (inside : row ∈ rows) : ((expected schema column rows).filter fun item => item.2 = row.1) = [(schema.key column row.2,row.1)] := by
  induction rows with
  | nil => cases inside
  | cons first rest ih =>
    obtain ⟨apart,distinctRest⟩ := nodup_cons.1 distinct
    simp only [expected,map_cons,filter_cons]
    rcases mem_cons.1 inside with rfl | later
    · have none : (filter (fun item : K × RID => item.2 = row.1) (rest.map fun other => (schema.key column other.2,other.1))) = [] := by
        refine filter_eq_nil_iff.2 fun item found => ?_
        obtain ⟨other,here,rfl⟩ := mem_map.1 found
        have different : other.1 ≠ row.1 := fun same => apart (same ▸ mem_map_of_mem here)
        simpa using different
      simp [none]
    · have different : first.1 ≠ row.1 := fun same => apart (same ▸ mem_map_of_mem later)
      rw [if_neg (by simpa using different)]
      exact ih distinctRest later

theorem Kept.consistent (kept : Kept schema engine) : Consistent schema engine := by
  intro index inside
  have entries := kept.entries index inside
  constructor
  · intro row member
    have one := entries.filter fun item => item.2 = row.1
    rw [expectedOf schema kept.distinct index.column member] at one
    exact perm_singleton.1 one
  · intro item found
    obtain ⟨row,member,rfl⟩ := mem_map.1 (entries.subset found)
    exact ⟨row,member,rfl⟩

def Gains (record : Record D) (rid : RID) (index next : Index F K) : Prop :=
  next.column = index.column ∧ next.entries.Perm (index.entries ++ [(schema.key index.column record,rid)])

variable {schema}

theorem Kept.entryKnown (kept : Kept schema engine)
    (inside : index ∈ engine.indexes) (found : item ∈ index.entries) : item.2 ∈ engine.rids := by
  obtain ⟨row,member,rfl⟩ := mem_map.1 ((kept.entries index inside).subset found)
  exact mem_map_of_mem member

theorem Kept.gains (kept : Kept schema engine) (fresh : rid ∉ engine.rids)
    (gains : ∀ next ∈ nexts,∃ index ∈ engine.indexes,Gains schema record rid index next) :
    Kept schema ⟨engine.heap ++ [(rid,record)],nexts⟩ where
  distinct := by
    have rids : Engine.rids (⟨engine.heap ++ [(rid,record)],nexts⟩ : Engine (Record D) (Index F K)) = engine.rids ++ [rid] := by
      simp [Engine.rids]
    rw [rids]
    exact kept.distinct.append (nodup_singleton rid) (by simpa using fresh)
  entries := by
    intro next inside
    obtain ⟨index,there,column,entries⟩ := gains next inside
    rw [column,expected,map_append]
    exact entries.trans ((kept.entries index there).append_right _)

/-! ### Stamps -/

variable (schema) in
def KeptWith (indexes : List (Index F K)) (engine : Engine (Record D) (Index F K)) : Prop := Kept schema engine ∧ engine.indexes = indexes

theorem Kept.update (kept : Kept schema engine) (found : engine.getRecord rid = some old)
    (same : ∀ index ∈ engine.indexes,schema.key index.column record = schema.key index.column old) :
    Kept schema (engine.updateRecord rid record) where
  distinct := by
    have rids : (engine.updateRecord rid record).rids = engine.rids := by
      simp only [Engine.rids,Engine.updateRecord,map_map]
      refine map_congr_left fun row inside => ?_
      simp only [Function.comp_apply]
      split
      · rename_i isRid
        exact isRid.symm
      · rfl
    rw [rids]
    exact kept.distinct
  entries := by
    intro index inside
    have equal : expected schema index.column (engine.updateRecord rid record).heap = expected schema index.column engine.heap := by
      simp only [expected,Engine.updateRecord,map_map]
      refine map_congr_left fun row member => ?_
      simp only [Function.comp_apply]
      split
      · rename_i isRid
        obtain ⟨other,search,isOld⟩ := Option.map_eq_some_iff.1 found
        have isOther : other = row := inj_on_of_nodup_map kept.distinct (mem_of_find?_eq_some search) member
          ((by simpa using find?_some search : other.1 = rid).trans isRid.symm)
        rw [same index inside,← isOld,isOther,isRid]
      · rfl
    rw [equal]
    exact kept.entries index inside

theorem visitKept (kept : Kept schema engine)
    (unchanged : ∀ old record,engine.getRecord rid = some old → visitor old = .ok (some record) →
      ∀ index ∈ engine.indexes,schema.key index.column record = schema.key index.column old) :
    Ensures Exit.isCode (engine = ·) (Engine.visitRecord rid visitor) (fun _ => KeptWith schema engine.indexes)
      (KeptWith schema engine.indexes) := by
  intro other same
  subst same
  unfold Engine.visitRecord
  cases found : engine.getRecord rid with
  | none =>
    exact endedError fun _ => ⟨kept,rfl⟩
  | some old =>
    cases visited : visitor old with
    | error e =>
      simp only [visited]
      exact endedError fun _ => ⟨kept,rfl⟩
    | ok changed =>
      cases changed with
      | none =>
        simp only [visited]
        exact endedOk ⟨kept,rfl⟩
      | some record =>
        simp only [visited]
        exact endedOk ⟨kept.update found (unchanged old record found visited),rfl⟩

theorem ensuresAsserted
    (h : Ensures Exit.isCode P m Q E) : Ensures Exit.isCode P (asserted m) Q E := by
  intro s start
  obtain ⟨done,_⟩ := h s start
  unfold asserted
  rcases ran : m s with ⟨result,t⟩
  cases result with
  | ok a =>
    exact endedOk (done a t ran)
  | error e =>
    exact endedError fun accepted => by cases accepted

theorem keyBegin (record : Record D) (xid : Int32) (other : column ≠ .beginXid) :
    schema.key column { record with beginXid := xid } = schema.key column record := by
  cases column with
  | beginXid => exact absurd rfl other
  | endXid => rfl
  | field f => rfl

theorem keyEnd (record : Record D) (xid : Int32) (other : column ≠ .endXid) :
    schema.key column { record with endXid := xid } = schema.key column record := by
  cases column with
  | beginXid => rfl
  | endXid => exact absurd rfl other
  | field f => rfl

def Free (column : Column F) (indexes : List (Index F K)) : Prop := ∀ index ∈ indexes,index.column ≠ column

variable {indexes : List (Index F K)}

theorem stampBeginKept (free : Free .beginXid indexes) (rid : RID) (trxId xid : Int32) :
    Ensures Exit.isCode (KeptWith schema indexes) (asserted (Engine.visitRecord rid (stampBegin trxId xid)))
      (fun _ => KeptWith schema indexes) (KeptWith schema indexes) := by
  refine ensuresAsserted (ensuresFrom fun engine start => ?_)
  obtain ⟨kept,rfl⟩ := start
  refine visitKept kept fun old record _ visited index inside => ?_
  unfold stampBegin at visited
  split at visited
  · cases visited
    exact keyBegin old xid (free index inside)
  · cases visited

theorem stampEndKept (free : Free .endXid indexes) (rid : RID) (trxId xid : Int32) :
    Ensures Exit.isCode (KeptWith schema indexes) (asserted (Engine.visitRecord rid (stampEnd trxId xid)))
      (fun _ => KeptWith schema indexes) (KeptWith schema indexes) := by
  refine ensuresAsserted (ensuresFrom fun engine start => ?_)
  obtain ⟨kept,rfl⟩ := start
  refine visitKept kept fun old record _ visited index inside => ?_
  unfold stampEnd at visited
  split at visited
  · cases visited
    exact keyEnd old xid (free index inside)
  · cases visited

def Stamps (operations : List Operation) (indexes : List (Index F K)) : Prop :=
  ((∃ rid,.insert rid ∈ operations) → Free .beginXid indexes) ∧ ((∃ rid,.delete rid ∈ operations) → Free .endXid indexes)

def Unstamps (operations : List Operation) (indexes : List (Index F K)) : Prop :=
  (∃ rid,.delete rid ∈ operations) → Free .endXid indexes

theorem commitKept (stamps : Stamps operations indexes) (trxId commitXid : Int32) :
    Ensures Exit.isCode (KeptWith schema indexes) (each (commitOperation trxId commitXid) operations)
      (fun _ => KeptWith schema indexes) (KeptWith schema indexes) := by
  refine ensuresEach (I := fun _ => KeptWith schema indexes) [] fun _ operation inside => ?_
  cases operation with
  | insert rid => exact stampBeginKept (stamps.1 ⟨rid,inside⟩) rid trxId commitXid
  | delete rid => exact stampEndKept (stamps.2 ⟨rid,inside⟩) rid trxId commitXid

/-! ### Insertions -/

variable [DecidableEq K]

theorem insertFresh (metric : Metric K) (fresh : ∀ item ∈ store.entries,item.2 ≠ rid) (key : K) :
    ∃ next,Store.insertEntry metric key rid store = (.ok (),next) ∧ next.entries.Perm (store.entries ++ [(key,rid)]) := by
  cases store with
  | bplusTree entries =>
    have absent : (key,rid) ∉ entries := fun there => fresh _ there rfl
    exact ⟨_,if_neg absent,.refl _⟩
  | ivfflat index =>
    obtain ⟨next,ran,entries⟩ := index.insertAdds metric key rid
    exact ⟨.ivfflat next,by rw [Store.insertEntry,ran],entries⟩

variable (schema) in
theorem indexInsert (fresh : ∀ item ∈ index.entries,item.2 ≠ rid) (record : Record D) :
    ∃ next,(indexOps schema).insertEntry record rid index = (.ok (),next) ∧ Gains schema record rid index next := by
  obtain ⟨next,ran,entries⟩ := insertFresh schema.metric fresh (schema.key index.column record)
  exact ⟨{ index with store := next },by simp only [indexOps,onStore,ran],rfl,entries⟩

variable (schema) in
theorem insertAll (fresh : ∀ index ∈ indexes,∀ item ∈ index.entries,item.2 ≠ rid)
    (record : Record D) :
    ∃ nexts,insertEntryOfIndexes (indexOps schema) record rid indexes = (.ok (),nexts) ∧
      ∀ next ∈ nexts,∃ index ∈ indexes,Gains schema record rid index next := by
  induction indexes with
  | nil => exact ⟨[],rfl,by simp⟩
  | cons index rest ih =>
    obtain ⟨next,ran,gains⟩ := indexInsert schema (fresh index (by simp)) record
    obtain ⟨nexts,ranRest,gainsRest⟩ := ih fun other inside => fresh other (by simp [inside])
    simp only [insertEntryOfIndexes,overIndexes] at ranRest ⊢
    refine ⟨next :: nexts,by rw [ran,ranRest],forall_mem_cons.2 ⟨⟨index,by simp,gains⟩,fun other inside => ?_⟩⟩
    obtain ⟨old,there,gained⟩ := gainsRest other inside
    exact ⟨old,by simp [there],gained⟩

theorem insertKept (record : Record D) (rid : RID) :
    Ensures Exit.isCode (Kept schema) (Heap.insertRecord (indexOps schema) record rid) (fun _ => Kept schema) (Kept schema) := by
  intro engine kept
  unfold Heap.insertRecord
  split
  · exact endedError fun _ => kept
  · rename_i fresh
    have unknown : ∀ index ∈ engine.indexes,∀ item ∈ index.entries,item.2 ≠ rid :=
      fun index inside item found same => fresh (same ▸ kept.entryKnown inside found)
    obtain ⟨nexts,ran,gains⟩ := insertAll schema unknown record
    simp only [ran]
    exact endedOk (kept.gains fresh gains)

theorem takeBackKept (rid : RID) :
    Ensures Exit.isCode (KeptWith schema indexes) (asserted (Heap.deleteRecord (indexOps schema) none rid))
      (fun _ => KeptWith schema indexes) (KeptWith schema indexes) := by
  refine ensuresAsserted ?_
  intro engine start
  obtain ⟨kept,rfl⟩ := start
  obtain ⟨heap,indexes⟩ := engine
  cases indexes with
  | cons index rest =>
    exact endedError fun accepted => by cases accepted
  | nil =>
    simp only [Heap.deleteRecord,overIndexes]
    split
    · refine endedOk ?_
      have part : ((heap.filter fun row => row.1 ≠ rid).map Prod.fst).Sublist (heap.map Prod.fst) := filter_sublist.map _
      exact ⟨⟨kept.distinct.sublist part,by simp [Engine.removeRecord]⟩,rfl⟩
    · exact endedError fun _ => ⟨kept,rfl⟩

theorem rollbackKept (unstamps : Unstamps operations indexes) (trxId : Int32) :
    Ensures Exit.isCode (KeptWith schema indexes) (each (rollbackOperation schema trxId) operations.reverse)
      (fun _ => KeptWith schema indexes) (KeptWith schema indexes) := by
  refine ensuresEach (I := fun _ => KeptWith schema indexes) [] fun _ operation inside => ?_
  cases operation with
  | insert rid => exact takeBackKept rid
  | delete rid => exact stampEndKept (unstamps ⟨rid,mem_reverse.1 inside⟩) rid trxId maxTrxId

/-! ### New indexes -/

variable (schema) in
theorem fillFresh (distinct : (rows.map Prod.fst).Nodup) (fresh : ∀ item ∈ index.entries,item.2 ∉ rows.map Prod.fst) :
    ∃ next,fill (indexOps schema) rows index = (.ok (),next) ∧ next.column = index.column ∧
      next.entries.Perm (index.entries ++ expected schema index.column rows) := by
  induction rows generalizing index with
  | nil => exact ⟨index,rfl,rfl,by simp [expected]⟩
  | cons row rest ih =>
    obtain ⟨apart,distinctRest⟩ := nodup_cons.1 distinct
    have here : ∀ item ∈ index.entries,item.2 ≠ row.1 := fun item found same => fresh item found (by simp [same])
    obtain ⟨next,ran,column,entries⟩ := indexInsert schema here row.2
    have freshNext : ∀ item ∈ next.entries,item.2 ∉ rest.map Prod.fst := by
      intro item found
      rcases mem_append.1 (entries.subset found) with old | new
      · exact fun later => fresh item old (by simp [later])
      · rw [mem_singleton.1 new]
        exact apart
    have first : fill (indexOps schema) (row :: rest) index = fill (indexOps schema) rest next := bindOk ran
    obtain ⟨last,ranRest,columnRest,entriesRest⟩ := ih distinctRest freshNext
    refine ⟨last,first.trans ranRest,columnRest.trans column,entriesRest.trans ?_⟩
    rw [column]
    exact (entries.append_right _).trans (by simp [expected])

theorem pushKept (kept : Kept schema engine) (empty : index.entries = []) :
    Ensures Exit.isCode (engine = ·) (pushIndex (indexOps schema) engine.heap index) (fun _ => Kept schema) (Kept schema) := by
  intro other same
  subst same
  unfold pushIndex
  have fresh : ∀ item ∈ index.entries,item.2 ∉ engine.heap.map Prod.fst := by simp [empty]
  obtain ⟨next,ran,column,entries⟩ := fillFresh schema kept.distinct fresh
  simp only [ran]
  refine endedOk ⟨kept.distinct,fun one inside => ?_⟩
  rcases mem_append.1 inside with old | new
  · exact kept.entries one old
  · rw [mem_singleton.1 new,column]
    simpa [empty] using entries

/-! ### Runs -/

/- What a call has to meet so that the entries stay right: the creator of a B+ tree index sees every record, and no
index is on a hidden field that the call changes. -/
def Meets (s : State F D K) : Event F D K → Prop
  | .deleteRecord t rid => ∀ record,s.engine.getRecord rid = some record → s.visit t .readWrite record = .success →
      Free .endXid s.engine.indexes
  | .commit t => Stamps (s.trxes t).operations s.engine.indexes
  | .rollback t => Unstamps (s.trxes t).operations s.engine.indexes
  | .createIndex t _ _ => ∀ row ∈ s.engine.heap,s.visit t .readOnly row.2 = .success
  | _ => True

variable (schema) in
def StateKept (s : State F D K) : Prop := Kept schema s.engine

omit [DecidableEq K] in
theorem ensuresOnEngine
    (h : Ensures Exit.isCode (s.engine = ·) m (fun _ => Kept schema) (Kept schema)) :
    Ensures Exit.isCode (s = ·) (onEngine m) (fun _ => StateKept schema) (StateKept schema) := by
  intro other same
  subst same
  obtain ⟨done,failed⟩ := h s.engine rfl
  unfold onEngine
  rcases ran : m s.engine with ⟨result,engine⟩
  cases result with
  | ok a =>
    exact endedOk (done a engine ran)
  | error e =>
    refine ⟨fun _ next ended => (by cases ended),fun e' next ended accepted => ?_⟩
    cases ended
    exact failed e engine ran accepted

omit [DecidableEq K] in
theorem checkNameKept (start : ∀ s,P s → StateKept schema s) (name : String) :
    Ensures Exit.isCode P (onEngine (Heap.checkName Index.name name)) (fun _ => P) (StateKept schema) := by
  intro s before
  unfold onEngine
  rw [checkNameSame]
  cases (Heap.checkName Index.name name s.engine).1 with
  | ok _ => exact endedOk before
  | error e => exact endedError fun _ => start s before

variable (schema) in
theorem stepKept (event : Event F D K) :
    Ensures Exit.isCode (fun s => StateKept schema s ∧ Meets s event) (step schema event)
      (fun _ => StateKept schema) (StateKept schema) := by
  cases event with
  | startIfNeed t =>
    refine ensuresUpdate fun s start => ?_
    split
    · exact start.1
    · exact start.1
  | insertRecord t data rid =>
    refine ensuresReadBind fun s start => ensuresBind (ensuresOnEngine ?_) fun _ => ensuresUpdate fun _ kept => kept
    exact ensuresWeaken (insertKept _ rid) (fun engine same => same ▸ start.1) (fun _ _ => id) (fun _ => id)
  | deleteRecord t rid =>
    refine ensuresReadBind fun s start => ensuresBind (ensuresOnEngine ?_) fun _ => ensuresUpdate fun _ kept => kept
    refine ensuresWeaken (visitKept start.1 fun old record found visited index inside => ?_)
      (fun _ => id) (fun _ _ => And.left) (fun _ => And.left)
    unfold deleteVisitor at visited
    split at visited
    · rename_i seen
      cases visited
      exact keyEnd old _ (start.2 old found seen index inside)
    · cases visited
  | commit t =>
    refine ensuresReadBind fun s start =>
      ensuresBind (R := fun _ next => { s with currentTrxId := s.currentTrxId + 1 } = next) ?_ fun _ => ?_
    · exact ensuresUpdate fun next same => by rw [← same]
    · refine ensuresBind (ensuresOnEngine ?_) fun _ => ensuresUpdate fun _ kept => kept
      exact ensuresWeaken (commitKept start.2 _ _) (fun engine same => same ▸ ⟨start.1,rfl⟩) (fun _ _ => And.left) (fun _ => And.left)
  | rollback t =>
    refine ensuresReadBind fun s start => ensuresBind (ensuresOnEngine ?_) fun _ => ensuresUpdate fun _ kept => kept
    exact ensuresWeaken (rollbackKept start.2 _) (fun engine same => same ▸ ⟨start.1,rfl⟩) (fun _ _ => And.left) (fun _ => And.left)
  | createIndex t column name =>
    refine ensuresBind (checkNameKept (fun _ => And.left) name) fun _ => ensuresReadBind fun s start => ensuresOnEngine ?_
    have all : (s.engine.heap.filter fun row => s.visit t .readOnly row.2 = .success) = s.engine.heap :=
      filter_eq_self.2 fun row inside => by simpa using start.2 row inside
    simp only [id_eq,all]
    exact pushKept start.1 rfl
  | createVectorIndex column name distanceMethod lists probes centroids =>
    refine ensuresBind (checkNameKept (fun _ => And.left) name) fun _ => ensuresReadBind fun s start => ?_
    split
    · exact ensuresExit fun other same _ => same ▸ start.1
    · dsimp only
      split
      · exact ensuresExit fun other same _ => same ▸ start.1
      · rename_i created
        exact ensuresOnEngine (pushKept start.1 (IvfflatIndex.createEntries created))

variable (schema) in
inductive Reached : State F D K → Prop where
  | initial : Reached .initial
  | step {s : State F D K} (reached : Reached s) (event : Event F D K) (meets : Meets s event)
      (alive : (step schema event s).1 ≠ .error .abort) : Reached (step schema event s).2

theorem reachedKept (reached : Reached schema s) : StateKept schema s := by
  induction reached with
  | initial => exact ⟨by simp [State.initial,Engine.rids],by simp [State.initial]⟩
  | @step s _ event meets alive kept =>
    obtain ⟨done,failed⟩ := stepKept schema event s ⟨kept,meets⟩
    rcases ran : step schema event s with ⟨result,next⟩
    rw [ran] at alive
    cases result with
    | ok a => exact done a next ran
    | error e =>
      cases e with
      | rc code => exact failed _ next ran rfl
      | abort => exact absurd rfl alive

theorem entriesMatch {s : State F D K} (reached : Reached schema s) : Consistent schema s.engine :=
  Kept.consistent schema (reachedKept reached)

def intSchema : Schema Unit Int32 Int32 := ⟨fun data _ => data,id,fun _ => false,⟨fun _ _ _ => true,fun _ _ _ _ => false⟩⟩

def inserted : State Unit Int32 Int32 := (each (step intSchema) [.startIfNeed 1,.insertRecord 1 7 ⟨1,0⟩,.commit 1] .initial).2

def indexedInside : State Unit Int32 Int32 :=
  (each (step intSchema) [.startIfNeed 2,.createIndex 2 (.field ()) "i"] inserted).2

def indexedOutside : Except Exit Unit × State Unit Int32 Int32 := step intSchema (.createIndex 2 (.field ()) "i") inserted

theorem insertedReached : Reached intSchema inserted := by
  have one : Reached intSchema (step intSchema (.startIfNeed 1) .initial).2 := .step .initial _ trivial (by simp [step,startIfNeed])
  have two := one.step (.insertRecord 1 7 ⟨1,0⟩) trivial (by decide +kernel)
  exact two.step (.commit 1) ⟨fun _ index inside => (by cases inside),fun _ index inside => (by cases inside)⟩ (by decide +kernel)

theorem committedIndexed : Reached intSchema indexedInside ∧ indexedInside.engine.heap = [(⟨1,0⟩,⟨2,maxTrxId,7⟩)] ∧
    indexedInside.engine.indexes.map Index.entries = [[(7,⟨1,0⟩)]] ∧ Consistent intSchema indexedInside.engine := by
  have started := insertedReached.step (.startIfNeed 2) trivial (by simp [step,startIfNeed])
  have reached : Reached intSchema indexedInside := started.step (.createIndex 2 (.field ()) "i") (by
    intro row inside
    have isRow : row = (⟨1,0⟩,⟨2,maxTrxId,7⟩) := mem_singleton.1 inside
    subst isRow
    decide +kernel) (by decide +kernel)
  exact ⟨reached,rfl,rfl,entriesMatch reached⟩

theorem createdUnstarted : indexedOutside.1 = .ok () ∧ indexedOutside.2.engine.heap = [(⟨1,0⟩,⟨2,maxTrxId,7⟩)] ∧
    indexedOutside.2.engine.indexes.map Index.entries = [[]] ∧ ¬ Consistent intSchema indexedOutside.2.engine := by
  have none : indexedOutside.2.engine.indexes = [⟨"i",.field (),.bplusTree []⟩] := rfl
  refine ⟨rfl,rfl,rfl,fun consistent => ?_⟩
  have missing := (consistent ⟨"i",.field (),.bplusTree []⟩ (by rw [none]; simp)).1 (⟨1,0⟩,⟨2,maxTrxId,7⟩) (by exact mem_singleton.2 rfl)
  cases missing

end MiniOb.Mvcc
