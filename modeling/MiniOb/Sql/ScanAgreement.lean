import MiniOb.Sql.Scan

/-! When the scan that the generator picks returns the rows of a table scan. -/
namespace MiniOb.Scan
open BplusTree List
open Expression (CompOp compareResult)

/-! ### Operators that walk over their input -/

section Walk
variable {α β γ : Type}

variable {step : α → Except Exit (Option β)} {list : List α}

theorem walkRuns {f} (ran : ∀ a ∈ list,step a = .ok (f a)) :
    walk step list = .ok (list.filterMap f) := by
  induction list with
  | nil => rfl
  | cons a rest ih =>
    have first := ran a (by simp)
    have tail := ih fun b inside => ran b (by simp [inside])
    cases made : f a with
    | none => simp [walk,first,made,tail]
    | some b => simp [walk,first,made,tail]

theorem walkFails {e}
    (only : ∀ a ∈ list,(∃ out,step a = .ok out) ∨ step a = .error e) (failing : ∃ a ∈ list,step a = .error e) :
    walk step list = .error e := by
  induction list with
  | nil =>
    obtain ⟨a,inside,_⟩ := failing
    cases inside
  | cons a rest ih =>
    rcases only a (by simp) with ⟨out,ran⟩ | failed
    · have tail : walk step rest = .error e := by
        obtain ⟨b,inside,failed⟩ := failing
        rcases mem_cons.1 inside with rfl | later
        · rw [ran] at failed
          cases failed
        · exact ih (fun c here => only c (by simp [here])) ⟨b,later,failed⟩
      cases out with
      | none => simp [walk,ran,tail]
      | some b => simp [walk,ran,tail]
    · simp [walk,failed]

theorem walkCongr {step}
    (same : ∀ a ∈ list,step (f a) = step' a) : walk step (list.map f) = walk step' list := by
  induction list with
  | nil => rfl
  | cons a rest ih =>
    have tail := ih fun b inside => same b (by simp [inside])
    simp only [map_cons,walk,same a (by simp),tail]

end Walk

def SameRows {α : Type} : Except Exit (List α) → Except Exit (List α) → Prop
  | .ok a,.ok b => a.Perm b
  | .error a,.error b => a = b
  | _,_ => False

/-! ### Table scans and index scans -/

namespace Table
variable {S : Schema} (table : Table S) (trx : Trx) (mode : ReadWriteMode) (predicates : List (Predicate S))

def kept (row : RID × S.Record) : Bool := visit trx mode row = .success && filter predicates row.2

theorem visitCases (row : RID × S.Record) : visit trx mode row = .success ∨ visit trx mode row = .recordInvisible ∨
    visit trx mode row = .lockedConcurrencyConflict := trx.visitResults _ _ mode

variable {row : RID × S.Record} {rids : List RID} {rows : List (RID × S.Record)}

theorem tableStepPlain (calm : visit trx mode row ≠ .lockedConcurrencyConflict) :
    tableStep trx mode predicates row = .ok (Option.guard (kept trx mode predicates) row) := by
  rcases visitCases trx mode row with seen | hidden | conflict
  · simp [tableStep,seen,kept,Option.guard]
  · simp [tableStep,hidden,kept,Option.guard]
  · exact absurd conflict calm

theorem tableStepConflict (conflict : visit trx mode row = .lockedConcurrencyConflict) :
    tableStep trx mode predicates row = .error (.rc .lockedConcurrencyConflict) := by
  simp [tableStep,conflict]

theorem rowStepPlain (calm : ¬ (visit trx mode row = .lockedConcurrencyConflict ∧ filter predicates row.2 = true)) :
    rowStep trx mode predicates row = .ok (Option.guard (kept trx mode predicates) row) := by
  cases passes : filter predicates row.2 with
  | false => simp [rowStep,passes,kept,Option.guard]
  | true =>
    rcases visitCases trx mode row with seen | hidden | conflict
    · simp [rowStep,passes,seen,kept,Option.guard]
    · simp [rowStep,passes,hidden,kept,Option.guard]
    · exact absurd ⟨conflict,passes⟩ calm

theorem rowStepConflict
    (conflict : visit trx mode row = .lockedConcurrencyConflict ∧ filter predicates row.2 = true) :
    rowStep trx mode predicates row = .error (.rc .lockedConcurrencyConflict) := by
  simp [rowStep,conflict]

theorem heapUnique {a b} (left : a ∈ table.heap) (right : b ∈ table.heap) (same : a.1 = b.1) : a = b :=
  inj_on_of_nodup_map table.distinct left right same

theorem indexStepRow (inside : row ∈ table.heap) :
    table.indexStep trx mode predicates row.1 = rowStep trx mode predicates row := by
  have found : table.heap.find? (fun other => other.1 = row.1) = some row := by
    cases search : table.heap.find? (fun other => other.1 = row.1) with
    | none =>
      have absent := find?_eq_none.1 search row inside
      simp at absent
    | some other =>
      have same : other.1 = row.1 := by simpa using find?_some search
      rw [table.heapUnique (mem_of_find?_eq_some search) inside same]
  rw [indexStep,found]

theorem rowsOf (known : ∀ rid ∈ rids,rid ∈ table.heap.map Prod.fst) :
    ∃ rows : List (RID × S.Record),rows.map Prod.fst = rids ∧ ∀ row ∈ rows,row ∈ table.heap := by
  induction rids with
  | nil => exact ⟨[],rfl,by simp⟩
  | cons rid rest ih =>
    obtain ⟨rows,named,inside⟩ := ih fun other here => known other (by simp [here])
    obtain ⟨row,member,isRid⟩ := mem_map.1 (known rid (by simp))
    exact ⟨row :: rows,by simp [named,isRid],forall_mem_cons.2 ⟨member,inside⟩⟩

/- The rows that the index reaches are enough: all that are to be returned, or one on which both scans fail. -/
def Covers (reach : RID × S.Record → Prop) : Prop :=
  ((∀ row ∈ table.heap,visit trx mode row ≠ .lockedConcurrencyConflict) ∧
    ∀ row ∈ table.heap,visit trx mode row = .success → filter predicates row.2 = true → reach row) ∨
  ∃ row ∈ table.heap,visit trx mode row = .lockedConcurrencyConflict ∧ filter predicates row.2 = true ∧ reach row

theorem calmScan (calm : ∀ row ∈ table.heap,visit trx mode row ≠ .lockedConcurrencyConflict) :
    table.tableScan trx mode predicates = .ok (table.heap.filter (kept trx mode predicates)) := by
  rw [tableScan,walkRuns fun row here => tableStepPlain trx mode predicates (calm row here),filterMap_eq_filter]

theorem conflictScan (fails : ∃ row ∈ table.heap,visit trx mode row = .lockedConcurrencyConflict) :
    table.tableScan trx mode predicates = .error (.rc .lockedConcurrencyConflict) := by
  refine walkFails ?_ ?_
  · intro row member
    by_cases conflict : visit trx mode row = .lockedConcurrencyConflict
    · exact .inr (tableStepConflict trx mode predicates conflict)
    · exact .inl ⟨_,tableStepPlain trx mode predicates conflict⟩
  · obtain ⟨row,member,conflict⟩ := fails
    exact ⟨row,member,tableStepConflict trx mode predicates conflict⟩

theorem rowsWalked
    (calm : ∀ row ∈ rows,¬ (visit trx mode row = .lockedConcurrencyConflict ∧ filter predicates row.2 = true)) :
    walk (rowStep trx mode predicates) rows = .ok (rows.filter (kept trx mode predicates)) := by
  rw [walkRuns fun row here => rowStepPlain trx mode predicates (calm row here),filterMap_eq_filter]

theorem rowsConflict
    (hit : ∃ row ∈ rows,visit trx mode row = .lockedConcurrencyConflict ∧ filter predicates row.2 = true) :
    walk (rowStep trx mode predicates) rows = .error (.rc .lockedConcurrencyConflict) := by
  refine walkFails ?_ ?_
  · intro row member
    by_cases conflict : visit trx mode row = .lockedConcurrencyConflict ∧ filter predicates row.2 = true
    · exact .inr (rowStepConflict trx mode predicates conflict)
    · exact .inl ⟨_,rowStepPlain trx mode predicates conflict⟩
  · obtain ⟨row,member,conflict⟩ := hit
    exact ⟨row,member,rowStepConflict trx mode predicates conflict⟩

theorem namedIff (inside : ∀ row ∈ rows,row ∈ table.heap) (member : row ∈ table.heap) :
    row.1 ∈ rows.map Prod.fst ↔ row ∈ rows := by
  constructor
  · intro named
    obtain ⟨other,here,same⟩ := mem_map.1 named
    rw [← table.heapUnique (inside other here) member same]
    exact here
  · exact mem_map_of_mem

theorem agreesOver (nodup : rids.Nodup) (known : ∀ rid ∈ rids,rid ∈ table.heap.map Prod.fst) :
    SameRows (walk (table.indexStep trx mode predicates) rids) (table.tableScan trx mode predicates) ↔
      table.Covers trx mode predicates fun row => row.1 ∈ rids := by
  obtain ⟨rows,rfl,inside⟩ := table.rowsOf known
  rw [walkCongr fun row here => table.indexStepRow trx mode predicates (inside row here)]
  by_cases calm : ∀ row ∈ table.heap,visit trx mode row ≠ .lockedConcurrencyConflict
  · have index := rowsWalked trx mode predicates fun row here bad => calm row (inside row here) bad.1
    rw [index,table.calmScan trx mode predicates calm,SameRows,
      perm_ext_iff_of_nodup (nodup.of_map.filter _) (table.distinct.of_map.filter _)]
    constructor
    · intro same
      refine .inl ⟨calm,fun row member seen passes => (table.namedIff inside member).2 ?_⟩
      exact (mem_filter.1 ((same row).2 (mem_filter.2 ⟨member,by simp [kept,seen,passes]⟩))).1
    · intro covers row
      rcases covers with ⟨_,all⟩ | ⟨row,member,conflict,_⟩
      · simp only [mem_filter]
        constructor
        · intro found
          exact ⟨inside row found.1,found.2⟩
        · intro found
          obtain ⟨seen,passes⟩ : visit trx mode row = .success ∧ filter predicates row.2 = true := by simpa [kept] using found.2
          exact ⟨(table.namedIff inside found.1).1 (all row found.1 seen passes),found.2⟩
      · exact absurd conflict (calm row member)
  · have fails : ∃ row ∈ table.heap,visit trx mode row = .lockedConcurrencyConflict := by simpa using calm
    by_cases hit : ∃ row ∈ rows,visit trx mode row = .lockedConcurrencyConflict ∧ filter predicates row.2 = true
    · rw [rowsConflict trx mode predicates hit,table.conflictScan trx mode predicates fails]
      refine iff_of_true rfl (.inr ?_)
      obtain ⟨row,here,conflict,passes⟩ := hit
      exact ⟨row,inside row here,conflict,passes,mem_map_of_mem here⟩
    · rw [rowsWalked trx mode predicates fun row here bad => hit ⟨row,here,bad⟩,table.conflictScan trx mode predicates fails]
      refine iff_of_false (by simp [SameRows]) ?_
      intro covers
      rcases covers with ⟨none,_⟩ | ⟨row,member,conflict,passes,named⟩
      · exact calm none
      · exact hit ⟨row,(table.namedIff inside member).1 named,conflict,passes⟩

end Table

/-! ### What an index reaches -/

section Ordered
variable {t : KeyType}

def inScan (v : t.UserKey) (key : IndexKey t.Attr) : Bool :=
  fromStart ((dataBound t v).map (leftKey t)) key && !pastEnd ((dataBound t v).map (rightKey t)) key

variable {v : t.UserKey}

theorem dataBoundSome {b} (isBound : dataBound t v = some b) : b = ⟨v,true⟩ := by
  cases t with
  | ints => exact (Option.some.inj isBound).symm
  | chars length =>
    simp only [dataBound] at isBound
    split at isBound
    · cases isBound
    · exact (Option.some.inj isBound).symm

theorem selfRangeAccepted (v : t.UserKey) : rangeInvalid t (dataBound t v) (dataBound t v) = false := by
  by_contra invalid
  obtain ⟨l,r,left,right,order⟩ := rangeInvalidIff.1 (by simpa using invalid)
  cases dataBoundSome left
  cases dataBoundSome right
  simp at order

theorem orderedScan {handler} (valid : handler.disk.Valid) (faults : handler.mtr.faults = [])
    (located : ∀ key ∈ handler.disk.searchKeys,RID.Located key.rid) (v : t.UserKey) :
    Index.scan (.ordered handler) v = .ok ((handler.disk.entries.filter fun item => inScan v item.1).map Prod.snd) := by
  obtain ⟨scan,opened,collected⟩ := scanBetween valid faults located (selfRangeAccepted v)
  have rids := collected (handler.disk.entries.length + 1) (by omega)
  simp only [Index.scan,scanTree,opened,rids]
  rfl

theorem inScanIff {key} (located : RID.Located key.rid) (fits : ¬ t.Long v) :
    inScan v key = true ↔ dataBound t v = none ∨ t.value key.attr = t.bound v := by
  cases isBound : dataBound t v with
  | none => simp [inScan,isBound,fromStart,pastEnd]
  | some b =>
    cases dataBoundSome isBound
    have above : leftKey t ⟨v,true⟩ ≤ key ↔ t.bound v ≤ t.value key.attr := by
      simp only [leftKey,Bool.true_or,if_true]
      rw [minKeyLe located,(KeyType.fixFits fits true).1]
    have below : key ≤ rightKey t ⟨v,true⟩ ↔ t.value key.attr ≤ t.bound v := by
      simp only [rightKey,Bool.true_or,if_true]
      rw [leMaxKey,(KeyType.fixFits fits false).1]
    simp only [inScan,isBound,fromStart,pastEnd,Option.map_some,Bool.and_eq_true,Bool.not_eq_true',decide_eq_true_eq,
      decide_eq_false_iff_not,not_lt,above,below,reduceCtorEq,false_or]
    exact le_antisymm_iff.symm.trans eq_comm

/- Entries of one value come in the order of their record ids. -/
theorem scanEqual {handler} {records : List (t.Attr × RID)} (matching : (Index.ordered handler).Matches records)
    (heapOrder : records.Pairwise fun a b => a.2 < b.2) (fits : ¬ t.Long v) (bounded : dataBound t v ≠ none) :
    Index.scan (.ordered handler) v = .ok ((records.filter fun record => t.value record.1 = t.bound v).map Prod.snd) := by
  obtain ⟨valid,faults,located,entries⟩ := matching
  have here : ∀ record ∈ records,inScan v ⟨record.1,record.2⟩ = decide (t.value record.1 = t.bound v) := by
    intro record member
    have stored := entriesStored located _ (entries.symm.subset (mem_map_of_mem member))
    rw [Bool.eq_iff_iff,inScanIff stored fits,decide_eq_true_eq,or_iff_right bounded]
  have same : (handler.disk.entries.filter fun item => inScan v item.1) =
      (records.filter fun record => t.value record.1 = t.bound v).map fun record => (⟨record.1,record.2⟩,record.2) := by
    refine List.Perm.eq_of_pairwise (fun a b _ _ less greater => absurd greater (lt_asymm less))
      ((entriesSorted valid).sublist filter_sublist) ?_ ?_
    · refine pairwise_map.2 ((heapOrder.sublist filter_sublist).imp_of_mem fun {a b} left right less => ?_)
      have value := (of_decide_eq_true (mem_filter.1 left).2).trans (of_decide_eq_true (mem_filter.1 right).2).symm
      exact indexKeyLt.2 (.inr ⟨t.valueInj value,less⟩)
    · refine (entries.filter _).trans (.of_eq ?_)
      rw [filter_map]
      exact congrArg _ (filter_congr here)
  rw [orderedScan valid faults located,same,map_map]
  rfl

theorem equalValue (a : t.Attr) (v : t.UserKey)
    (equal : compareField (.ordered t) a v = 0 ∨ compareConstant (.ordered t) v a = 0) : ¬ t.Long v ∧ t.value a = t.bound v := by
  cases t with
  | ints =>
    have same : a = v := by
      rcases equal with left | right
      · exact (KeyType.compareSign .ints a v).2.1.1 left
      · exact ((KeyType.compareSign .ints v a).2.1.1 right).symm
    exact ⟨id,congrArg Int32.toInt same⟩
  | chars length =>
    have same : a.bytes = v.bytes := by
      rcases equal with left | right
      · exact (compareStringSign a.bytes v.bytes).2.1.1 left
      · exact ((compareStringSign v.bytes a.bytes).2.1.1 right).symm
    exact ⟨not_lt.2 (same ▸ a.fits),congrArg textOf same⟩

end Ordered

section Tolerant
variable {V : Type} {compare : V → V → Int} {same : ∀ v,compare v v = 0} {ops : KeyOps (IndexKey V)}
  {compares : ops.compare = keyComparator compare} {handler : Handler (IndexKey V)}

/- The comparisons with the constant are those of an order in which the tree is one. -/
def InOrder (ops : KeyOps (IndexKey V)) (handler : Handler (IndexKey V)) (v : V) : Prop :=
  ∃ _ : LinearOrder (IndexKey V),handler.disk.Valid ∧
    ∀ rid,rid = RID.min ∨ rid = RID.max → ops.OrderedAt ⟨v,rid⟩ fun key => key ∈ handler.disk.searchKeys

theorem scanCollects {scan rids}
    (opened : openRange ops false (some ⟨v,RID.min⟩) (some ⟨v,RID.max⟩) (newScanner handler) = (.ok (),scan))
    (collected : ∀ fuel,handler.disk.entries.length < fuel → (collect ops fuel scan).1 = .ok rids) :
    @Index.scan (.tolerant V compare same) (.tolerant ops compares handler) v = .ok rids := by
  have accepted : decide (0 < compare v v) = false := by simp [same v]
  simp only [Index.scan,scanTree,accepted,opened,collected _ (Nat.lt_succ_self _)]

theorem tolerantScan {order : LinearOrder (IndexKey V)} (valid : handler.disk.Valid) (faults : handler.mtr.faults = []) (v : V) :
    ∃ list : List (IndexKey V × RID),list.Sublist handler.disk.entries ∧
      @Index.scan (.tolerant V compare same) (.tolerant ops compares handler) v = .ok (list.map Prod.snd) := by
  obtain ⟨scan,front,list,opened,parts,collected⟩ := scanAny ops ⟨v,RID.min⟩ ⟨v,RID.max⟩ valid faults
  exact ⟨_,(takeWhile_sublist _).trans (parts ▸ sublist_append_right _ _),scanCollects opened collected⟩

theorem equalBetween (compares : ops.compare = keyComparator compare) {order : LinearOrder (IndexKey V)} {a rid}
    (stored : (⟨a,rid⟩ : IndexKey V) ∈ handler.disk.searchKeys)
    (located : RID.Located rid) (equal : compare a v = 0 ∨ compare v a = 0)
    (ordered : ∀ rid,rid = RID.min ∨ rid = RID.max → ops.OrderedAt ⟨v,rid⟩ fun key => key ∈ handler.disk.searchKeys) :
    (fromStart (some ⟨v,RID.min⟩) (⟨a,rid⟩ : IndexKey V) && !pastEnd (some ⟨v,RID.max⟩) (⟨a,rid⟩ : IndexKey V)) = true := by
  have least := located.minLt
  have most := leRidMax rid
  have low := ordered RID.min (.inl rfl)
  have high := ordered RID.max (.inr rfl)
  have minOrdinary : RID.Ordinary RID.min := by decide
  have maxOrdinary : RID.Ordinary RID.max := by decide
  simp only [fromStart,pastEnd,Bool.and_eq_true,decide_eq_true_eq,Bool.not_eq_true',decide_eq_false_iff_not]
  rcases equal with left | right
  · have toLow : ops.compare ⟨a,rid⟩ ⟨v,RID.min⟩ = RID.compare rid RID.min := by simp [compares,keyComparator,left]
    have toHigh : ops.compare ⟨a,rid⟩ ⟨v,RID.max⟩ = RID.compare rid RID.max := by simp [compares,keyComparator,left]
    rw [← low.less _ stored |>.not.trans not_lt,← high.greater _ stored,toLow,toHigh,
      (ridCompareSign located.ordinary minOrdinary).1,(ridCompareSign located.ordinary maxOrdinary).2.2]
    exact ⟨least.not_gt,most.not_gt⟩
  · have fromLow : ops.compare ⟨v,RID.min⟩ ⟨a,rid⟩ = RID.compare RID.min rid := by simp [compares,keyComparator,right]
    have fromHigh : ops.compare ⟨v,RID.max⟩ ⟨a,rid⟩ = RID.compare RID.max rid := by simp [compares,keyComparator,right]
    refine ⟨((low.before _ stored).mp ?_).le,(high.before _ stored).not.mp ?_⟩
    · rw [fromLow,(ridCompareSign minOrdinary located.ordinary).1]
      exact least
    · rw [fromHigh,(ridCompareSign maxOrdinary located.ordinary).1]
      exact most.not_gt

theorem inOrderScan (faults : handler.mtr.faults = []) (inOrder : InOrder ops handler v)
    (located : ∀ key ∈ handler.disk.searchKeys,RID.Located key.rid) {a rid} (stored : (⟨a,rid⟩,rid) ∈ handler.disk.entries)
    (equal : compare a v = 0 ∨ compare v a = 0) :
    ∃ rids,@Index.scan (.tolerant V compare same) (.tolerant ops compares handler) v = .ok rids ∧ rid ∈ rids := by
  obtain ⟨order,valid,ordered⟩ := inOrder
  have every : ∀ key ∈ handler.disk.searchKeys,key ∈ handler.disk.searchKeys := fun _ inside => inside
  have named : (⟨a,rid⟩ : IndexKey V) ∈ handler.disk.searchKeys := entriesStored every _ stored
  have bounds : ∀ rid,rid = RID.min ∨ rid = RID.max → ∀ key,some (⟨v,rid⟩ : IndexKey V) = some key →
      ops.OrderedAt key fun key => key ∈ handler.disk.searchKeys := by
    rintro rid isBound _ ⟨⟩
    exact ordered rid isBound
  obtain ⟨scan,opened,collected⟩ := scanOrdered valid faults every (bounds _ (.inl rfl)) (bounds _ (.inr rfl))
  refine ⟨_,scanCollects opened collected,?_⟩
  exact mem_map.2 ⟨_,mem_filter.2 ⟨stored,equalBetween compares named (located _ named) equal ordered⟩,rfl⟩

end Tolerant

/- What a tree returns are ids of records, each once. -/
theorem treeIds {A : Type} {handler : Handler (IndexKey A)} {records} (holds : Holds handler records)
    (distinct : (records.map Prod.snd).Nodup) {part : List (IndexKey A × RID)} (inside : part.Sublist handler.disk.entries) :
    (part.map Prod.snd).Nodup ∧ ∀ rid ∈ part.map Prod.snd,rid ∈ records.map Prod.snd := by
  obtain ⟨_,_,entries⟩ := holds
  have ids : (handler.disk.entries.map Prod.snd).Perm (records.map Prod.snd) := by
    have mapped := entries.map Prod.snd
    rwa [map_map] at mapped
  have fewer := inside.map Prod.snd
  exact ⟨fewer.nodup (ids.nodup_iff.2 distinct),fun rid here => ids.subset (fewer.subset here)⟩

namespace Index

def isTree : {t : FieldType} → Index t → Bool
  | _,.ordered _ => true
  | _,.tolerant _ _ _ => true
  | _,.ivfflat _ => false

def passes : {t : FieldType} → Index t → t.Constant → RID → t.Attr → Prop
  | _,@ordered t _,v,rid,a => inScan (t := t) v ⟨a,rid⟩ = true
  | _,.tolerant ops compares handler,v,rid,_ => ∃ rids,Index.scan (.tolerant ops compares handler) v = .ok rids ∧ rid ∈ rids
  | _,.ivfflat _,_,_,_ => False

variable {t : FieldType}

theorem notTree (index : Index t) (other : index.isTree = false) (v : t.Constant) :
    index.scan v = .error (.rc .internal) := by
  cases index with
  | ordered handler => cases other
  | tolerant ops compares handler => cases other
  | ivfflat entries => rfl

theorem scanPasses (index : Index t) (tree : index.isTree = true) {records}
    (matching : index.Matches records) (distinct : (records.map Prod.snd).Nodup) (v : t.Constant) :
    ∃ rids,index.scan v = .ok rids ∧ rids.Nodup ∧ (∀ rid ∈ rids,rid ∈ records.map Prod.snd) ∧
      ∀ record ∈ records,record.2 ∈ rids ↔ index.passes v record.2 record.1 := by
  cases index with
  | @ordered t handler =>
    obtain ⟨valid,holds⟩ := matching
    have part : (handler.disk.entries.filter fun item => inScan v item.1).Sublist handler.disk.entries := filter_sublist
    obtain ⟨nodup,known⟩ := treeIds holds distinct part
    obtain ⟨faults,located,entries⟩ := holds
    refine ⟨_,orderedScan valid faults located v,nodup,known,?_⟩
    intro record member
    constructor
    · intro inside
      obtain ⟨item,found,isRid⟩ := mem_map.1 inside
      obtain ⟨stored,between⟩ := mem_filter.1 found
      obtain ⟨other,here,rfl⟩ := mem_map.1 (entries.subset stored)
      cases inj_on_of_nodup_map distinct here member isRid
      exact between
    · intro between
      have stored := entries.symm.subset (mem_map_of_mem member)
      exact mem_map.2 ⟨_,mem_filter.2 ⟨stored,between⟩,rfl⟩
  | tolerant ops compares handler =>
    obtain ⟨⟨order,valid⟩,holds⟩ := matching
    obtain ⟨list,part,scanned⟩ := tolerantScan valid holds.1 v
    obtain ⟨nodup,known⟩ := treeIds holds distinct part
    refine ⟨_,scanned,nodup,known,fun record _ => ⟨fun inside => ⟨_,scanned,inside⟩,?_⟩⟩
    rintro ⟨rids,again,inside⟩
    rw [scanned] at again
    cases again
    exact inside
  | ivfflat entries => cases tree

def reaches : {t : FieldType} → Index t → CompOp → t.Constant → RID → t.Attr → Prop
  | _,.ordered handler,op,v,rid,a => op = .equalTo ∨ passes (.ordered handler) v rid a
  | _,.tolerant ops compares handler,op,v,rid,a => op = .equalTo ∧ InOrder ops handler v ∨ passes (.tolerant ops compares handler) v rid a
  | _,.ivfflat _,_,_,_,_ => False

theorem equalReached (index : Index t) {records} (matching : index.Matches records)
    (member : record ∈ records)
    (equal : op = .equalTo → compareField t record.1 v = 0 ∨ compareConstant t v record.1 = 0) :
    index.passes v record.2 record.1 ↔ index.reaches op v record.2 record.1 := by
  cases index with
  | ordered handler =>
    refine ⟨.inr,fun reached => reached.elim (fun isEqual => ?_) id⟩
    obtain ⟨_,_,located,entries⟩ := matching
    obtain ⟨fits,same⟩ := equalValue _ _ (equal isEqual)
    have stored := entriesStored located _ (entries.symm.subset (mem_map_of_mem member))
    exact (inScanIff stored fits).2 (.inr same)
  | tolerant ops compares handler =>
    refine ⟨.inr,fun reached => reached.elim (fun ⟨isEqual,inOrder⟩ => ?_) id⟩
    obtain ⟨_,faults,located,entries⟩ := matching
    exact inOrderScan faults inOrder located (entries.symm.subset (mem_map_of_mem member)) (equal isEqual)
  | ivfflat entries => exact Iff.rfl

end Index

namespace Table
variable {S : Schema} (table : Table S) (trx : Trx) (mode : ReadWriteMode) (predicates : List (Predicate S))

def Agrees : Prop := match table.chooseIndex predicates with
  | none => True
  | some ⟨p,index⟩ => index.isTree = true ∧
      table.Covers trx mode predicates fun row => index.reaches p.op p.value row.1 (S.read row.2 p.field)

variable {p : Predicate S}

theorem chosen {index list}
    (found : table.chooseIndex list = some ⟨p,index⟩) : p ∈ list ∧ index ∈ table.indexes p.field := by
  induction list with
  | nil => cases found
  | cons first rest ih =>
    simp only [chooseIndex] at found
    split at found
    · split at found
      · rename_i isFirst
        cases found
        exact ⟨by simp,mem_of_mem_head? isFirst⟩
      · exact ⟨by simp [(ih found).1],(ih found).2⟩
    · exact ⟨by simp [(ih found).1],(ih found).2⟩

theorem coversCongr {reach reach'}
    (same : ∀ row ∈ table.heap,filter predicates row.2 = true → (reach row ↔ reach' row)) :
    table.Covers trx mode predicates reach ↔ table.Covers trx mode predicates reach' := by
  refine or_congr (and_congr_right fun _ => forall₂_congr fun row member => ?_) (exists_congr fun row => and_congr_right fun member => ?_)
  · exact imp_congr_right fun _ => forall_congr' (same row member)
  · exact and_congr_right fun _ => and_congr_right (same row member)

theorem tableScanFails {e} (failed : table.tableScan trx mode predicates = .error e) : e = .rc .lockedConcurrencyConflict := by
  by_cases calm : ∀ row ∈ table.heap,visit trx mode row ≠ .lockedConcurrencyConflict
  · rw [table.calmScan trx mode predicates calm] at failed
    cases failed
  · rw [table.conflictScan trx mode predicates (by simpa using calm)] at failed
    cases failed
    rfl

theorem passesReaches (member : p ∈ predicates) {index}
    (mine : index ∈ table.indexes p.field) (inside : row ∈ table.heap)
    (passed : filter predicates row.2 = true) :
    index.passes p.value row.1 (S.read row.2 p.field) ↔ index.reaches p.op p.value row.1 (S.read row.2 p.field) := by
  have holds : p.holds row.2 = true := all_eq_true.1 passed p member
  refine index.equalReached (table.matching p.field index mine) (mem_map_of_mem inside) fun isEqual => ?_
  rw [Predicate.holds,isEqual] at holds
  simp only [compareResult,beq_iff_eq] at holds
  split at holds
  · exact .inr holds.symm
  · exact .inl holds.symm

theorem scanAgreesIff : SameRows (table.scan trx mode predicates) (table.tableScan trx mode predicates) ↔
    table.Agrees trx mode predicates := by
  cases found : table.chooseIndex predicates with
  | none =>
    simp only [scan,Agrees,found,iff_true]
    cases table.tableScan trx mode predicates with
    | error e => rfl
    | ok rows => exact .refl rows
  | some choice =>
    obtain ⟨p,index⟩ := choice
    obtain ⟨member,mine⟩ := table.chosen found
    simp only [scan,Agrees,found]
    cases tree : index.isTree with
    | false =>
      have failed : table.indexScan trx mode predicates index p.value = .error (.rc .internal) := by
        rw [indexScan,index.notTree tree]
      rw [failed]
      refine iff_of_false ?_ (by simp)
      intro same
      cases reference : table.tableScan trx mode predicates with
      | ok rows =>
        rw [reference] at same
        exact same
      | error e =>
        rw [reference] at same
        cases same
        cases table.tableScanFails trx mode predicates reference
    | true =>
      have distinct : ((table.heap.map fun row => (S.read row.2 p.field,row.1)).map Prod.snd).Nodup := by
        rw [map_map]
        exact table.distinct
      obtain ⟨rids,scanned,nodup,known,passing⟩ := index.scanPasses tree (table.matching p.field index mine) distinct p.value
      have known' : ∀ rid ∈ rids,rid ∈ table.heap.map Prod.fst := by
        intro rid inside
        have named := known rid inside
        rwa [map_map] at named
      simp only [indexScan,scanned,true_and]
      rw [table.agreesOver trx mode predicates nodup known']
      refine table.coversCongr trx mode predicates fun row inside passed => ?_
      rw [← table.passesReaches predicates member mine inside passed]
      exact passing _ (mem_map_of_mem inside)

end Table

def oneColumn : Schema where
  Field := Unit
  type _ := .ordered (.chars 4)
  Record := CharValue 4
  read record _ := record
  beginXid _ := 1
  endXid _ := Int32.maxValue

theorem abcdMatches : (Index.ordered abcdFile).Matches [(abcd,(⟨1,0⟩ : RID))] := by
  refine ⟨abcdFileValid.1,by decide +kernel,?_,?_⟩
  · rw [abcdFileValid.2]
    intro key inside
    rw [mem_singleton.1 inside]
    decide
  · rw [show abcdFile.disk.entries = [(⟨abcd,⟨1,0⟩⟩,⟨1,0⟩)] by decide +kernel]
    exact .refl _

def abcdTable : Table oneColumn where
  heap := [(⟨1,0⟩,abcd)]
  distinct := by simp
  indexes _ := [.ordered abcdFile]
  matching f index inside := by
    cases mem_singleton.1 inside
    exact abcdMatches

def notAbc : Predicate oneColumn := ⟨(),.notEqual,abcKey,false⟩

theorem notEqualMisses : abcdTable.tableScan (.mvcc 3) .readOnly [notAbc] = .ok [(⟨1,0⟩,abcd)] ∧
    abcdTable.scan (.mvcc 3) .readOnly [notAbc] = .ok [] ∧
    ¬ SameRows (abcdTable.scan (.mvcc 3) .readOnly [notAbc]) (abcdTable.tableScan (.mvcc 3) .readOnly [notAbc]) := by
  have all : abcdTable.tableScan (.mvcc 3) .readOnly [notAbc] = .ok [(⟨1,0⟩,abcd)] := by rfl
  have searched : Index.scan (.ordered abcdFile) abcKey = .ok [] := by decide +kernel
  have none : abcdTable.scan (.mvcc 3) .readOnly [notAbc] = .ok [] := by
    have picked : abcdTable.scan (.mvcc 3) .readOnly [notAbc] =
        abcdTable.indexScan (.mvcc 3) .readOnly [notAbc] (Index.ordered abcdFile) abcKey := rfl
    rw [picked]
    simp only [Table.indexScan,searched]
    rfl
  refine ⟨all,none,?_⟩
  rw [all,none]
  intro same
  cases same.nil_eq

end MiniOb.Scan
