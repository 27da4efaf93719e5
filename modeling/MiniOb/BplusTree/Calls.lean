import MiniOb.BplusTree.Delete
import MiniOb.BplusTree.Insert
import MiniOb.BplusTree.Validate

/-! Whole calls of the index: what commit and the release of a mini transaction do to the
store, and what holds over every sequence of `insert_entry` and `delete_entry`. -/
namespace MiniOb.BplusTree
open Prog PagedTree PagedTree.Bound Store List
open Buffer (BPFileHeader maxPageNum)

variable {K : Type}

/-! ### Commit and release -/

section
variable {S T : Store K} {ops : KeyOps K}

theorem takesSetLsnAll (lsn : LSN) (pages : List PageNum) :
    Takes Sees (setLsnAll lsn pages : TreeM K Unit) S (.ok ()) S := by
  induction pages with
  | nil => exact takesPure
  | cons page rest ih =>
    exact takesBind (T := S) (a := ()) (takesUpdate fun _ h => ⟨h.faults,h.header,h.node,h.file,h.disposed⟩) ih

theorem takesCommit : Takes Sees (ignoreRc commit : TreeM K Unit) S (.ok ()) S := by
  refine takesIgnoreAny (landsBind (fun _ h => ⟨_,rfl,h⟩) fun entries => ?_)
  split
  · exact landsOfTakes takesPure
  refine landsBind (fun _ h => ⟨_,rfl,h⟩) fun bufferPoolId =>
    landsBind (fun s h => ⟨(),takesFault s h⟩) fun _ => ?_
  split
  · exact landsExit rfl
  · exact landsOfTakes (takesAppendLog _ fun lsn => takesBind (takesSetLsnAll lsn _)
      (takesUpdate fun _ h => ⟨h.faults,h.header,h.node,h.file,h.disposed⟩))

def free (file : BPFileHeader) (page : PageNum) : BPFileHeader := file.clearBit (natOf page)

def Store.release (S : Store K) : Store K :=
  { S with file := S.disposed.foldl free S.file, disposed := [] }

theorem takesDisposePages (large : ∀ p ∈ pages, 2 ≤ natOf p) :
    Takes Sees (disposePages pages : TreeM K Unit) S (.ok ()) { S with file := pages.foldl free S.file } := by
  induction pages generalizing S with
  | nil => exact takesPure
  | cons page rest ih =>
    refine takesBind (a := ()) (T := { S with file := free S.file page }) (takesIgnore ?_)
      (ih fun p inside => large p (mem_cons_of_mem _ inside))
    have notHeader : page ≠ bpHeaderPage := by
      rintro rfl
      exact absurd (large _ mem_cons_self) (by decide)
    rw [bufferPoolDisposePage,if_neg notHeader]
    exact takesAppendLog _ fun _ =>
      takesUpdate fun _ h => ⟨h.faults,h.header,h.node,by simp only [free,h.file],h.disposed⟩

theorem takesRelease (large : ∀ p ∈ S.disposed, 2 ≤ natOf p) :
    Takes Sees (release : TreeM K Unit) S (.ok ()) S.release := by
  refine takesBind takesReleaseAll (takesBind (a := S.disposed) (T := S) (takesRead fun _ h => h.disposed)
    (takesBind (takesDisposePages large) ?_))
  exact takesUpdate fun _ h => ⟨h.faults,h.header,h.node,h.file,rfl⟩

theorem takesCall (clean : S.disposed = []) (run : Takes Sees body S (.ok ()) T)
    (large : ∀ p ∈ T.disposed, 2 ≤ natOf p) : Takes Sees (call ops body) S (.ok ()) T.release := by
  intro s h
  obtain ⟨value,seen⟩ := run s.beginMtr ⟨h.faults,h.header,h.node,h.file,clean.symm⟩
  have finished : Takes Sees (finish ops (.ok ())) T (.ok ()) T.release :=
    takesBind takesCommit (takesRelease large)
  obtain ⟨value',seen'⟩ := finished _ seen
  have ran : call ops body s = (.ok (),(finish ops (.ok ()) (body s.beginMtr).2).2) := by
    simp only [call]
    rw [← Prod.eta (body s.beginMtr),value]
    rw [← Prod.eta (finish ops (.ok ()) _),value']
  rw [ran]
  exact ⟨rfl,seen'⟩

theorem takesCallStops (clean : S.disposed = []) (stops : StopsAt body S code) :
    Takes Sees (call ops body) S (.error (.rc code)) S := by
  intro s h
  obtain ⟨t,ran,seen,entries⟩ := stops s.beginMtr ⟨h.faults,h.header,h.node,h.file,clean.symm⟩
  have noEntries : t.mtr.entries = [] := entries
  have undone : rollback ops t = (.ok (),{ t with mtr := { t.mtr with entries := [], needLog := true } }) := by
    simp [rollback,bindApply,noEntries,rollbackEntries]
  have released : Takes Sees (release : TreeM K Unit) S (.ok ()) S := by
    have := takesRelease (S := S) (by simp [clean])
    rwa [Store.release,clean,foldl_nil,← clean] at this
  obtain ⟨value,seen'⟩ := released { t with mtr := { t.mtr with entries := [], needLog := true } }
    ⟨seen.faults,seen.header,seen.node,seen.file,seen.disposed⟩
  have finished : finish ops (.error (.rc code)) t =
      (.ok (),(release { t with mtr := { t.mtr with entries := [], needLog := true } }).2) := by
    rw [finish,bindOk undone]
    exact Prod.ext value rfl
  simp only [call,ran,finished]
  exact ⟨trivial,seen'⟩

end

/-! ### Contents after the release -/

theorem freeCount (pages : List PageNum) (file : BPFileHeader) :
    (pages.foldl free file).pageCount = file.pageCount := by
  induction pages generalizing file with
  | nil => rfl
  | cons page rest ih => exact ih _

theorem freeBitmap (pages : List PageNum) (file : BPFileHeader) (outside : ∀ p ∈ pages, natOf p ≠ i) :
    (pages.foldl free file).bitmap i = file.bitmap i := by
  induction pages generalizing file with
  | nil => rfl
  | cons page rest ih =>
    rw [foldl_cons,ih _ fun p inside => outside p (mem_cons_of_mem _ inside)]
    exact Function.update_of_ne (outside page mem_cons_self).symm _ _

theorem FileOk.release {file} (ok : FileOk file) {pages : List PageNum}
    (large : ∀ p ∈ pages, 2 ≤ natOf p) : FileOk (pages.foldl free file) := by
  refine ⟨?_,?_,?_,?_⟩
  · rw [freeCount]; exact ok.few
  · rw [freeCount]; exact ok.two
  · rw [freeBitmap _ _ fun p inside => by have := large p inside; omega]
    exact ok.first
  · rw [freeBitmap _ _ fun p inside => by have := large p inside; omega]
    exact ok.header

variable [LinearOrder K]

section
variable {S T : Store K} {ops : KeyOps K} {E : K × RID → Prop}

theorem Content.large (content : Content S E) : ∀ p ∈ S.disposed, 2 ≤ natOf p := by
  rcases content with ⟨vacant,-⟩ | ⟨lab,height,good,-⟩
  · exact vacant.gone
  · exact fun p inside => (good.gone p inside).2

theorem Content.release (content : Content S E) : Content S.release E := by
  have large := content.large
  have empty : ∀ {P : PageNum → Prop}, ∀ p ∈ S.release.disposed, P p := fun p inside => absurd inside not_mem_nil
  rcases content with ⟨vacant,none⟩ | ⟨lab,height,good,holds⟩
  · exact .inl ⟨⟨vacant.root,vacant.file.release large,empty,vacant.leafMax,vacant.internalMax⟩,none⟩
  · refine .inr ⟨lab,height,⟨good.tree,good.sized,?_,good.file.release large,empty,good.leafMax,good.internalMax⟩,
      holds⟩
    intro p label found
    obtain ⟨two,bound,bit⟩ := good.allocated p label found
    refine ⟨two,?_,?_⟩
    · show natOf p < (S.disposed.foldl free S.file).pageCount
      rw [freeCount]
      exact bound
    · show (S.disposed.foldl free S.file).bitmap (natOf p) = true
      rw [freeBitmap _ _ fun q inside same => ?_]
      · exact bit
      · have : q = p := natOfInj (by have := large q inside; omega) same
        rw [this] at inside
        rw [(good.gone p inside).1] at found
        cases found

theorem Content.valid (content : Content S E) (seen : Sees s S) :
    s.disk.Valid ∧ ∀ item, item ∈ s.disk.entries ↔ E item := by
  unfold IndexFile.Valid IndexFile.entries IndexFile.leafPages
  rw [seen.header,seen.node,seen.file]
  rcases content with ⟨vacant,none⟩ | ⟨lab,height,good,holds⟩
  · rw [if_pos vacant.root]
    exact ⟨.inl vacant.root,fun item => ⟨fun inside => absurd inside not_mem_nil,fun inside => absurd inside (none item)⟩⟩
  · have tree := good.tree
    have row := tree.leavesRow tree.rootLabel good.heightLt
    have below := tree.subtree (fun p label found => good.filled found) tree.rootLabel
    rw [tree.rootParent] at below
    rw [if_neg good.notEmpty]
    have valid : bpInvalidPageNum ∉ leaves S.node S.file.pageCount S.header.rootPage := by
      intro inside
      obtain ⟨_,_,found⟩ := rowLabel row inside
      rw [tree.nilLabel] at found
      cases found
    exact ⟨.inr ⟨height,good.heightLt,below,tree.rowChain row,valid⟩,fun item => (tree.memEntries row).trans (holds item)⟩

theorem insertCall (ordered : ops.Ordered) (content : Content S E) (clean : S.disposed = []) (key : K) (rid : RID) :
    ((∃ rid', E (key,rid')) ∧ Takes Sees (call ops (insertEntryBody ops key rid)) S
      (.error (.rc .recordDuplicateKey)) S) ∨
    ((∀ rid', ¬ E (key,rid')) ∧ ((∃ T, Takes Sees (insertEntryBody ops key rid) S (.error (.rc .bufferpoolNobuf)) T) ∨
      ∃ T, Takes Sees (call ops (insertEntryBody ops key rid)) S (.ok ()) T ∧
        Content T (fun item => item = (key,rid) ∨ E item) ∧ T.disposed = [])) := by
  rcases insertBody ordered content clean key rid with ⟨present,stops⟩ | ⟨absent,full | ⟨_,T,run,after,-⟩⟩
  · exact .inl ⟨present,takesCallStops clean stops⟩
  · exact .inr ⟨absent,.inl full⟩
  · exact .inr ⟨absent,.inr ⟨T.release,takesCall clean run after.large,after.release,rfl⟩⟩

theorem deleteCall (ordered : ops.Ordered) (content : Content S E) (clean : S.disposed = []) (key : K) :
    ((∀ rid, ¬ E (key,rid)) ∧ Takes Sees (call ops (deleteEntryBody ops key)) S (.error (.rc .recordNotExist)) S) ∨
    ((∃ rid, E (key,rid)) ∧ ∃ T, Takes Sees (call ops (deleteEntryBody ops key)) S (.ok ()) T ∧
      Content T (fun item => item.1 ≠ key ∧ E item) ∧ T.disposed = []) := by
  rcases deleteBody ordered content key with ⟨absent,stops⟩ | ⟨present,T,run,after⟩
  · exact .inl ⟨absent,takesCallStops clean stops⟩
  · exact .inr ⟨present,T.release,takesCall clean run after.large,after.release,rfl⟩

end

/-! ### Sequences of calls -/

inductive Call (A : Type) where
  | insert (userKey : A) (rid : RID)
  | delete (userKey : A) (rid : RID)
  deriving DecidableEq, Repr

namespace Call
variable {A : Type}

def run (ops : KeyOps (IndexKey A)) : Call A → TreeM (IndexKey A) Unit
  | insert userKey rid => insertEntry ops userKey rid
  | delete userKey rid => deleteEntry ops userKey rid

def body (ops : KeyOps (IndexKey A)) : Call A → TreeM (IndexKey A) Unit
  | insert userKey rid => insertEntryBody ops ⟨userKey,rid⟩ rid
  | delete userKey rid => deleteEntryBody ops ⟨userKey,rid⟩

def after (pairs : Set (A × RID)) : Call A → Set (A × RID)
  | insert userKey rid => pairs ∪ {(userKey,rid)}
  | delete userKey rid => pairs \ {(userKey,rid)}

open Classical in
noncomputable def result (pairs : Set (A × RID)) : Call A → Except Exit Unit
  | insert userKey rid => if (userKey,rid) ∈ pairs then .error (.rc .recordDuplicateKey) else .ok ()
  | delete userKey rid => if (userKey,rid) ∈ pairs then .ok () else .error (.rc .recordNotExist)

end Call

def entriesOf {A : Type} (pairs : Set (A × RID)) (item : IndexKey A × RID) : Prop :=
  item.2 = item.1.rid ∧ (item.1.attr,item.1.rid) ∈ pairs

def runCalls {A : Type} (ops : KeyOps (IndexKey A)) (calls : List (Call A)) (s : Handler (IndexKey A)) :
    Handler (IndexKey A) :=
  calls.foldl (fun s call => (call.run ops s).2) s

def pairsAfter {A : Type} (calls : List (Call A)) (pairs : Set (A × RID)) : Set (A × RID) :=
  calls.foldl Call.after pairs

def HasRoom {A : Type} (ops : KeyOps (IndexKey A)) : List (Call A) → Handler (IndexKey A) → Prop
  | [],_ => True
  | call :: rest,s => (call.body ops s.beginMtr).1 ≠ .error (.rc .bufferpoolNobuf) ∧
      HasRoom ops rest (call.run ops s).2

instance HasRoom.decidable {A : Type} (ops : KeyOps (IndexKey A)) :
    (calls : List (Call A)) → (s : Handler (IndexKey A)) → Decidable (HasRoom ops calls s)
  | [],_ => .isTrue trivial
  | call :: rest,s =>
    have := HasRoom.decidable ops rest (call.run ops s).2
    inferInstanceAs (Decidable (_ ∧ _))

section
variable {A : Type} [LinearOrder (IndexKey A)] {ops : KeyOps (IndexKey A)} {S : Store (IndexKey A)}
  {s : Handler (IndexKey A)} {pairs : Set (A × RID)}

omit [LinearOrder (IndexKey A)] in
theorem takesInsertEntry
    (run : Takes Sees (call ops (insertEntryBody ops ⟨userKey,rid⟩ rid)) S r T) :
    Takes Sees (insertEntry ops userKey rid) S r T :=
  takesBind (takesBind takesFault takesPure) run

omit [LinearOrder (IndexKey A)] in
theorem takesDeleteEntry
    (run : Takes Sees (call ops (deleteEntryBody ops ⟨userKey,rid⟩)) S r T) :
    Takes Sees (deleteEntry ops userKey rid) S r T :=
  takesBind (takesBind takesFault takesPure) run

theorem callStep (ordered : ops.Ordered) (content : Content S (entriesOf pairs)) (clean : S.disposed = [])
    (seen : Sees s S) (call : Call A) (room : (call.body ops s.beginMtr).1 ≠ .error (.rc .bufferpoolNobuf)) :
    ∃ T, (call.run ops s).1 = call.result pairs ∧ Sees (call.run ops s).2 T ∧
      Content T (entriesOf (call.after pairs)) ∧ T.disposed = [] ∧ (call.result pairs ≠ .ok () → T = S) := by
  have begun : Sees s.beginMtr S := ⟨seen.faults,seen.header,seen.node,seen.file,clean.symm⟩
  cases call with
  | insert userKey rid =>
    rcases insertCall ordered content clean ⟨userKey,rid⟩ rid with ⟨⟨rid',-,present⟩,run⟩ | ⟨absent,full | ⟨T,run,after,cleanT⟩⟩
    · obtain ⟨value,seenT⟩ := takesInsertEntry run s seen
      refine ⟨S,?_,seenT,content.congr fun item => ?_,clean,fun _ => rfl⟩
      · rw [Call.result,if_pos present]
        exact value
      · rw [Call.after,Set.union_eq_self_of_subset_right (Set.singleton_subset_iff.mpr present)]
    · obtain ⟨T,run⟩ := full
      exact absurd (run _ begun).1 room
    · obtain ⟨value,seenT⟩ := takesInsertEntry run s seen
      have new : (userKey,rid) ∉ pairs := fun inside => absent rid ⟨rfl,inside⟩
      rw [Call.result,if_neg new]
      refine ⟨T,value,seenT,after.congr fun item => ?_,cleanT,fun wrong => absurd rfl wrong⟩
      obtain ⟨⟨attr,rid'⟩,value⟩ := item
      simp only [entriesOf,Call.after,Set.mem_union,Set.mem_singleton_iff,Prod.mk.injEq,IndexKey.mk.injEq]
      constructor
      · rintro (⟨⟨rfl,rfl⟩,rfl⟩ | ⟨same,old⟩)
        · exact ⟨rfl,.inr ⟨rfl,rfl⟩⟩
        · exact ⟨same,.inl old⟩
      · rintro ⟨rfl,old | ⟨rfl,rfl⟩⟩
        · exact .inr ⟨rfl,old⟩
        · exact .inl ⟨⟨rfl,rfl⟩,rfl⟩
  | delete userKey rid =>
    rcases deleteCall ordered content clean ⟨userKey,rid⟩ with ⟨absent,run⟩ | ⟨⟨rid',-,present⟩,T,run,after,cleanT⟩
    · obtain ⟨value,seenT⟩ := takesDeleteEntry run s seen
      have old : (userKey,rid) ∉ pairs := fun inside => absent rid ⟨rfl,inside⟩
      refine ⟨S,?_,seenT,content.congr fun item => ?_,clean,fun _ => rfl⟩
      · rw [Call.result,if_neg old]
        exact value
      · rw [Call.after,Set.sdiff_singleton_eq_self old]
    · obtain ⟨value,seenT⟩ := takesDeleteEntry run s seen
      rw [Call.result,if_pos present]
      refine ⟨T,value,seenT,after.congr fun item => ?_,cleanT,fun wrong => absurd rfl wrong⟩
      obtain ⟨⟨attr,rid'⟩,value⟩ := item
      simp only [entriesOf,Call.after,Set.mem_sdiff,Set.mem_singleton_iff,Prod.mk.injEq,ne_eq,IndexKey.mk.injEq]
      constructor
      · rintro ⟨other,same,old⟩
        exact ⟨same,old,other⟩
      · rintro ⟨same,old,other⟩
        exact ⟨other,same,old⟩

theorem runStep (ordered : ops.Ordered) (content : Content S (entriesOf pairs))
    (clean : S.disposed = []) (seen : Sees s S) (room : HasRoom ops calls s) :
    ∃ T, Sees (runCalls ops calls s) T ∧ Content T (entriesOf (pairsAfter calls pairs)) ∧ T.disposed = [] := by
  induction calls generalizing s S pairs with
  | nil => exact ⟨S,seen,content,clean⟩
  | cons call rest ih =>
    obtain ⟨T,-,seenT,contentT,cleanT,-⟩ := callStep ordered content clean seen call room.1
    exact ih contentT cleanT seenT room.2

def Store.new (K : Type) (bufferPoolId : Int32) : Store K :=
  ⟨⟨bpInvalidPageNum,0,0,0,0,0⟩,fun _ => .cleared,⟨bufferPoolId,1,1,fun i => i == 0⟩,[]⟩

omit [LinearOrder (IndexKey A)] in
variable (ops) in
theorem takesCreate (bufferPoolId attrType attrLength internalMaxSize leafMaxSize : Int32) :
    Takes Sees (create ops attrType attrLength internalMaxSize leafMaxSize) (new (IndexKey A) bufferPoolId)
      (.ok ()) { (new (IndexKey A) bufferPoolId).extend with
        header := newFileHeader attrType attrLength internalMaxSize leafMaxSize } := by
  refine takesCall rfl (T := { (new (IndexKey A) bufferPoolId).extend with
    header := newFileHeader attrType attrLength internalMaxSize leafMaxSize }) ?_ (fun p inside => by cases inside)
  have free : Takes Sees (read fun s : Handler (IndexKey A) => s.disk.file.freePage : TreeM _ (Option Nat))
      (new (IndexKey A) bufferPoolId) (.ok none) (new (IndexKey A) bufferPoolId) :=
    takesRead fun _ h => by rw [h.file]; rfl
  have allocated : Takes Sees (memoAllocatePage : TreeM (IndexKey A) PageNum) (new (IndexKey A) bufferPoolId)
      (.ok firstIndexPage) (new (IndexKey A) bufferPoolId).extend := by
    refine takesBind (a := firstIndexPage) (T := (new (IndexKey A) bufferPoolId).extend)
      (takesBind free (takesBind takesPageCount ?_)) (takesBind (takesMemoize _) takesPure)
    have room : ¬ maxPageNum ≤ (new (IndexKey A) bufferPoolId).file.pageCount := by
      show ¬ maxPageNum ≤ 1
      decide
    rw [if_neg room]
    exact takesAppendLog _ fun _ => takesBind takesFault (takesBind takesExtendFile (takesBind takesHold
      takesPure))
  refine takesBind allocated ?_
  rw [if_pos rfl]
  refine takesBind (a := ()) (T := { (new (IndexKey A) bufferPoolId).extend with
    header := newFileHeader attrType attrLength internalMaxSize leafMaxSize }) ?_ takesMarkDirty
  exact takesUpdate fun _ h => ⟨h.faults,rfl,h.node,h.file,h.disposed⟩

theorem createdContent {bufferPoolId attrType attrLength internalMaxSize leafMaxSize start}
    (created : create ops attrType attrLength internalMaxSize leafMaxSize (emptyFile bufferPoolId) = (.ok (),start))
    (leafMax : 6 ≤ start.disk.header.leafMaxSize) (internalMax : 6 ≤ start.disk.header.internalMaxSize) :
    ∃ S, Sees start S ∧ Content S (entriesOf (∅ : Set (A × RID))) ∧ S.disposed = [] := by
  obtain ⟨-,seen⟩ := takesCreate ops bufferPoolId attrType attrLength internalMaxSize leafMaxSize
    (emptyFile bufferPoolId) ⟨rfl,rfl,rfl,rfl,rfl⟩
  rw [created] at seen
  have atLeast : ∀ {n : Int32}, 6 ≤ n → 6 ≤ natOf n := by
    intro n large
    have := Int32.le_iff_toInt_le.mp large
    simp only [natOf]
    have six : (6 : Int32).toInt = 6 := rfl
    omega
  refine ⟨_,seen,.inl ⟨⟨rfl,⟨?_,?_,rfl,rfl⟩,?_,?_,?_⟩,?_⟩,rfl⟩
  · exact (by decide : (2 : Nat) ≤ maxPageNum)
  · exact le_refl 2
  · exact fun p inside => by cases inside
  · exact seen.header ▸ atLeast leafMax
  · exact seen.header ▸ atLeast internalMax
  · exact fun item inside => inside.2

theorem insertDeleteContract (ordered : ops.Ordered)
    {bufferPoolId attrType attrLength internalMaxSize leafMaxSize : Int32} {start : Handler (IndexKey A)}
    (created : create ops attrType attrLength internalMaxSize leafMaxSize (emptyFile bufferPoolId) = (.ok (),start))
    (leafMax : 6 ≤ start.disk.header.leafMaxSize) (internalMax : 6 ≤ start.disk.header.internalMaxSize)
    (calls : List (Call A)) (room : HasRoom ops calls start) :
    (runCalls ops calls start).disk.Valid ∧
    (∀ item, item ∈ (runCalls ops calls start).disk.entries ↔ entriesOf (pairsAfter calls ∅) item) ∧
    (validateTree ops (runCalls ops calls start)).1 = .ok true ∧
    ∀ call : Call A, HasRoom ops [call] (runCalls ops calls start) →
      (call.run ops (runCalls ops calls start)).1 = call.result (pairsAfter calls ∅) ∧
      (call.result (pairsAfter calls ∅) ≠ .ok () →
        (call.run ops (runCalls ops calls start)).2.disk.node = (runCalls ops calls start).disk.node ∧
        (call.run ops (runCalls ops calls start)).2.disk.header = (runCalls ops calls start).disk.header) := by
  obtain ⟨S,seen,content,clean⟩ := createdContent created leafMax internalMax
  obtain ⟨T,seenT,contentT,cleanT⟩ := runStep ordered content clean seen room
  obtain ⟨valid,same⟩ := contentT.valid seenT
  refine ⟨valid,same,(takesValidateTree ordered contentT _ seenT).1,fun call roomCall => ?_⟩
  obtain ⟨U,value,seenU,-,-,same⟩ := callStep ordered contentT cleanT seenT call roomCall.1
  refine ⟨value,fun failed => ?_⟩
  rw [seenU.node,seenU.header,same failed,seenT.node,seenT.header]
  exact ⟨rfl,rfl⟩

end

/-! A file of integers under the order of their type, and seven insertions, the last of which
splits the first leaf. -/

def orderedOps : KeyOps (IndexKey Int) where
  compare a b := if a < b then -1 else if b < a then 1 else 0
  keyLength := 12
  encode _ := []
  decode _ := ⟨0,RID.min⟩

theorem orderedOpsOrdered : orderedOps.Ordered := by
  refine ⟨fun a b => ?_,fun a b => ?_⟩
  · simp only [orderedOps]
    split
    · simp [*]
    · split <;> simp [*]
  · simp only [orderedOps]
    rcases lt_trichotomy a b with less | rfl | greater
    · simp [less,less.ne]
    · simp
    · simp [greater,greater.not_gt,greater.ne']

def newIntegers : Handler (IndexKey Int) := (create orderedOps 1 4 6 6 (emptyFile 1)).2

def sevenInserts : List (Call Int) := (range 7).map fun i => .insert i ⟨1,0⟩

theorem sevenInsertsContract : HasRoom orderedOps sevenInserts newIntegers ∧
    (runCalls orderedOps sevenInserts newIntegers).disk.Valid ∧
    (runCalls orderedOps sevenInserts newIntegers).disk.header.rootPage = 4 :=
  ⟨by decide +kernel,
    (insertDeleteContract orderedOpsOrdered
      (Prod.ext (by decide +kernel) rfl : create orderedOps 1 4 6 6 (emptyFile 1) = (.ok (),newIntegers))
      (by decide +kernel) (by decide +kernel) sevenInserts (by decide +kernel)).1,
    by decide +kernel⟩

end MiniOb.BplusTree
