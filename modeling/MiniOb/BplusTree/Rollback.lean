import Mathlib.Data.Set.Finite.Lattice
import MiniOb.BplusTree.Redo

/-! Failing calls. `NormalOperationLogEntryHandler::rollback` works on an `IndexNodeHandler`,
which does not know where its items are: once items have been taken out of a node, the
rollback cannot put them back and dies. A call is undone exactly when it fails before its
first change of a page. -/
namespace MiniOb.BplusTree
open Prog PagedTree Relation List Function InternalIndexNodeHandler LeafIndexNodeHandler IndexFile
open Buffer (BPFileHeader maxPageNum)

/-! ### Where a call fails -/

def failsWithin (n : Nat) (faults : List (Option RC)) : Bool := (faults.take n).any Option.isSome

theorem failsWithinAdd (n m : Nat) (faults : List (Option RC)) :
    failsWithin (n + m) faults = (failsWithin n faults || failsWithin m (faults.drop n)) := by
  rw [failsWithin,take_add,any_append]
  rfl

variable {K : Type}

def pathBelow (ops : KeyOps K) (node : PageNum → IndexNode K) (key : K) : Nat → PageNum → List PageNum
  | 0,_ => []
  | fuel+1,page => match node page with
    | .leaf _ _ _ => []
    | .internal _ items => match items[(lookup ops key items).1]? with
      | none => []
      | some item => item.2 :: pathBelow ops node key fuel item.2

def IndexFile.searchPath (ops : KeyOps K) (disk : IndexFile K) (key : K) : List PageNum :=
  if disk.header.rootPage = bpInvalidPageNum then []
  else disk.header.rootPage :: pathBelow ops disk.node key disk.file.pageCount disk.header.rootPage

def IndexFile.needsPage (ops : KeyOps K) (disk : IndexFile K) (key : K) : Bool :=
  match (disk.searchPath ops key).getLast? with
  | none => true
  | some leaf => !(lookup ops key (disk.node leaf).leafItems).2 &&
      decide (natOf disk.header.leafMaxSize ≤ (disk.node leaf).leafItems.length)

def IndexFile.finds (ops : KeyOps K) (disk : IndexFile K) (key : K) : Bool :=
  match (disk.searchPath ops key).getLast? with
  | none => false
  | some leaf => (lookup ops key (disk.node leaf).leafItems).2

/- What a search reads. -/
def Handler.shape (s : Handler K) : Pages K × Nat := (s.pages,s.disk.file.pageCount)

structure IndexFile.Stored (disk : IndexFile K) : Prop where
  few : disk.file.pageCount ≤ maxPageNum
  used : ∀ p ∈ disk.leafPages, Allocated disk.file p

section
variable {A : Type}

def Call.key : Call A → IndexKey A
  | insert userKey rid => ⟨userKey,rid⟩
  | delete userKey rid => ⟨userKey,rid⟩

def Call.isInsert : Call A → Bool
  | insert _ _ => true
  | delete _ _ => false

def FailsEarly (ops : KeyOps (IndexKey A)) (call : Call A) (s : Handler (IndexKey A)) : Prop :=
  let fetches := 1 + (s.disk.searchPath ops call.key).length
  failsWithin fetches s.mtr.faults = true ∨ call.isInsert = true ∧ s.disk.needsPage ops call.key = true ∧
      (s.disk.file.full = true ∨ failsWithin 1 (s.mtr.faults.drop fetches) = true)

/-- Some step of the call fails: a call into the buffer pool or the log handler, an allocation
in a full file, or the commit. -/
def StepFails (ops : KeyOps (IndexKey A)) (call : Call A) (s : Handler (IndexKey A)) : Prop :=
  (∃ used code, s.mtr.faults = used ++ (call.run ops s).2.mtr.faults ∧ some code ∈ used) ∨
  (∃ t, call.body ops (fault s).2.beginMtr = (.error (.rc .bufferpoolNobuf),t)) ∨
  ∃ t code u, call.body ops (fault s).2.beginMtr = (.ok (),t) ∧ commit t = (.error (.rc code),u)

def RolledBack (ops : KeyOps (IndexKey A)) (call : Call A) (s : Handler (IndexKey A)) : Prop :=
  ∃ code t, call.run ops s = (.error (.rc code),t) ∧ t.disk.node = s.disk.node ∧ t.disk.header = s.disk.header

end

/-! ### Fetches -/

def Fetches {α : Type} (k : Nat) (a : α) (m : TreeM K α) (s : Handler K) : Prop :=
  (failsWithin k s.mtr.faults = true ∧ ∃ code t, m s = (.error (.rc code),t)) ∨
  failsWithin k s.mtr.faults = false ∧ ∃ t, m s = (.ok a,t) ∧ t.disk = s.disk ∧ t.mtr.faults = s.mtr.faults.drop k

section
variable {α β : Type} {s : Handler K} {k l : Nat} {a : α} {b : β}

variable {m : TreeM K α} {f : α → TreeM K β} {t : Handler K} {items : List (K × PageNum)}

theorem fetchesBind (first : Fetches k a m s)
    (rest : ∀ t : Handler K, t.disk = s.disk → Fetches l b (f a) t) : Fetches (k + l) b (m >>= f) s := by
  rcases first with ⟨fails,code,t,run⟩ | ⟨works,t,run,disk,faults⟩
  · exact .inl ⟨by rw [failsWithinAdd,fails]; rfl,code,t,bindError run⟩
  · rw [Fetches,failsWithinAdd,works,bindOk run,Bool.false_or,← faults]
    rcases rest t disk with ⟨fails,code,u,run'⟩ | ⟨works',u,run',disk',faults'⟩
    · exact .inl ⟨fails,code,u,run'⟩
    · refine .inr ⟨works',u,run',disk'.trans disk,?_⟩
      rw [faults',faults,drop_drop]

theorem fetchesNone (run : m s = (.ok a,t)) (disk : t.disk = s.disk)
    (faults : t.mtr.faults = s.mtr.faults) : Fetches 0 a m s :=
  .inr ⟨rfl,t,run,disk,faults⟩

theorem fetchesThen (run : m s = (.ok a,t)) (disk : t.disk = s.disk)
    (faults : t.mtr.faults = s.mtr.faults) (rest : Fetches k b (f a) t) : Fetches k b (m >>= f) s := by
  rw [Fetches,bindOk run,← faults,← disk]
  exact rest

theorem fetchesIte {c : Prop} [Decidable c] {m'} (yes : Fetches k a m s) (no : Fetches k a m' s) :
    Fetches k a (if c then m else m') s := by
  split
  · exact yes
  · exact no

theorem fetchesFault : Fetches 1 () (fault : TreeM K Unit) s := by
  unfold Fetches fault failsWithin
  rcases faults : s.mtr.faults with _ | ⟨_ | code,rest⟩
  · exact .inr ⟨rfl,s,rfl,rfl,faults⟩
  · exact .inr ⟨rfl,_,rfl,rfl,rfl⟩
  · exact .inl ⟨rfl,code,_,rfl⟩

theorem fetchesGetPage (page : PageNum) : Fetches 1 () (getPage page : TreeM K Unit) s :=
  fetchesBind (l := 0) fetchesFault fun _ _ => fetchesNone rfl rfl rfl

theorem fetchesPage (op : OperationType) (page : PageNum) (isRoot : Bool) :
    Fetches 1 () (crabingProtocalFetchPage op page isRoot : TreeM K Unit) s := by
  refine fetchesThen rfl rfl rfl (fetchesBind (l := 0) (fetchesGetPage _) fun t _ => ?_)
  exact fetchesThen rfl rfl rfl (fetchesThen rfl rfl rfl (fetchesThen rfl rfl rfl
    (fetchesIte (fetchesNone rfl rfl rfl) (fetchesNone rfl rfl rfl))))

/-! ### The descent -/

theorem lookupInside (ops : KeyOps K) (key : K) (some : items ≠ []) :
    (lookup ops key items).1 < items.length := by
  have bound := LowerBound.lowerBoundLe (fun item : K × PageNum => ops.compare item.1 key) items.tail
  have positive := length_pos_iff.mpr some
  rw [length_tail] at bound
  unfold InternalIndexNodeHandler.lookup
  rw [if_neg (by omega)]
  dsimp only
  split
  · omega
  · have inside := (List.getElem?_eq_some_iff.mp ‹_›).1
    split <;> dsimp only <;> omega

variable [LinearOrder K]

theorem childrenMember {child lo hi}
    (children : Children child lo items hi) : ∀ item ∈ items, ∃ low high, child item.2 low high := by
  induction items generalizing lo with
  | nil => exact absurd children id
  | cons first rest ih =>
    intro item inside
    cases rest with
    | nil =>
      rw [mem_singleton.mp inside]
      exact ⟨lo,hi,children⟩
    | cons next more =>
      obtain ⟨-,-,here,tail⟩ := children
      rcases mem_cons.mp inside with rfl | later
      · exact ⟨_,_,here⟩
      · exact ih tail item later

theorem fetchesDescend (ops : KeyOps K) (op : OperationType) (key : K) {node : PageNum → IndexNode K} :
    ∀ {level fuel : Nat} {parent p : PageNum} {lo hi : Bound K}, Subtree node level parent p lo hi → level < fuel →
    ∃ leaf ∈ leaves node fuel p, (p :: pathBelow ops node key fuel p).getLast? = some leaf ∧
      (∃ parent next items, node leaf = .leaf parent next items ∧ items ≠ []) ∧
      ∀ s : Handler K, s.disk.node = node → Fetches (pathBelow ops node key fuel p).length leaf
        (descend op (fun items => valueAt items
          (lookup ops key items).1) fuel p) s := by
  intro level
  induction level with
  | zero =>
    rintro fuel parent p lo hi ⟨next,items,here,filled,-⟩ enough
    obtain ⟨fuel,rfl⟩ : ∃ f, fuel = f + 1 := ⟨fuel - 1,by omega⟩
    have stop : pathBelow ops node key (fuel + 1) p = [] := by rw [pathBelow,here]
    refine ⟨p,by simp [leaves,here],by rw [stop]; rfl,⟨parent,next,items,here,filled⟩,fun s same => ?_⟩
    rw [stop]
    refine fetchesNone (t := s) ?_ rfl rfl
    rw [descend,getNode,bindOk (readApply _ _),same,here]
    rfl
  | succ level ih =>
    rintro fuel parent p lo hi ⟨items,here,children⟩ enough
    obtain ⟨fuel,rfl⟩ : ∃ f, fuel = f + 1 := ⟨fuel - 1,by omega⟩
    have filled : items ≠ [] := by
      rintro rfl
      exact children
    have inside := lookupInside ops key filled
    have found := getElem?_eq_getElem inside
    have listed := getElem_mem inside
    generalize items[(lookup ops key items).1] = item at found listed
    obtain ⟨low,high,child⟩ := childrenMember children item listed
    obtain ⟨leaf,below,last,isLeaf,run⟩ := ih child (by omega : level < fuel)
    have next : pathBelow ops node key (fuel + 1) p = item.2 :: pathBelow ops node key fuel item.2 := by
      rw [pathBelow,here]
      simp only [found]
    refine ⟨leaf,?_,?_,isLeaf,fun s same => ?_⟩
    · simp only [leaves,here,mem_flatMap]
      exact ⟨item,listed,below⟩
    · rw [next,getLast?_cons_cons]
      exact last
    · have step : descend op (fun items => valueAt items
          (lookup ops key items).1) (fuel + 1) p s =
          (crabingProtocalFetchPage op item.2 false >>= fun _ => descend op (fun items =>
            valueAt items (lookup ops key items).1) fuel item.2) s := by
        rw [descend,getNode,bindOk (readApply _ _),same,here]
        simp only [valueAt,found]
        rfl
      rw [next,length_cons,Nat.add_comm,Fetches,step]
      exact fetchesBind (fetchesPage op item.2 false) fun t disk => run t ((congrArg IndexFile.node disk).trans same)

theorem fetchesFindLeaf (ops : KeyOps K) (op : OperationType) (key : K) {disk} (valid : disk.Valid)
    (notEmpty : disk.header.rootPage ≠ bpInvalidPageNum) :
    ∃ leaf ∈ disk.leafPages, (disk.searchPath ops key).getLast? = some leaf ∧
      (∃ parent next items, disk.node leaf = .leaf parent next items ∧ items ≠ []) ∧
      ∀ s : Handler K, s.disk = disk → Fetches (disk.searchPath ops key).length leaf (findLeaf ops op key) s := by
  obtain ⟨level,low,tree,-⟩ := valid.resolve_left notEmpty
  obtain ⟨leaf,below,last,isLeaf,run⟩ := fetchesDescend ops op key tree low
  rw [leafPages,if_neg notEmpty,searchPath,if_neg notEmpty]
  refine ⟨leaf,below,last,isLeaf,?_⟩
  rintro s rfl
  rw [length_cons,Nat.add_comm]
  refine fetchesThen rfl rfl rfl (fetchesThen rfl rfl rfl ?_)
  rw [if_neg (by simpa using notEmpty)]
  refine fetchesThen rfl rfl rfl (fetchesBind (fetchesPage _ _ _) fun t disk => fetchesThen rfl rfl rfl ?_)
  have same : t.disk = s.disk := disk
  show Fetches _ leaf (descend op _ t.disk.file.pageCount s.disk.header.rootPage) t
  rw [same]
  exact run t (congrArg node same)

end

/-! ### What cannot be undone -/

def Removed (s : Handler K) : Prop :=
  ∃ page index bytes num, .nodeRemove page index bytes num ∈ s.mtr.entries ∧ 0 < num

section
variable {ops : KeyOps K} {s t : Handler K} {α : Type} {code : RC}

def OnlyDies (m : TreeM K α) : Prop := ∀ s e, (m s).1 = .error e → e = .abort

variable {m : TreeM K α} {body : TreeM K Unit}

theorem onlyDiesOk {f : Handler K → α} (ok : ∀ s, (m s).1 = .ok (f s)) : OnlyDies m := by
  intro s e failed
  rw [ok s] at failed
  cases failed

theorem onlyDiesUpdate {f : Handler K → Handler K} : OnlyDies (update f : TreeM K Unit) := onlyDiesOk fun _ => rfl

theorem onlyDiesRead (f : Handler K → α) : OnlyDies (read f : TreeM K α) := onlyDiesOk fun _ => rfl

theorem onlyDiesPure (a : α) : OnlyDies (pure a : TreeM K α) := onlyDiesOk fun _ => rfl

theorem onlyDiesBind {β : Type} {f : α → TreeM K β} (first : OnlyDies m) (rest : ∀ a, OnlyDies (f a)) :
    OnlyDies (m >>= f) := by
  intro s e failed
  rw [bindApply] at failed
  rcases ran : m s with ⟨r,t⟩
  rw [ran] at failed
  cases r with
  | ok a => exact rest a t e failed
  | error e' =>
    cases failed
    exact first s e (congrArg Prod.fst ran)

theorem onlyDiesIgnore (m : TreeM K Unit) : OnlyDies (ignoreRc m) := by
  intro s e failed
  unfold ignoreRc ignore at failed
  rcases ran : m s with ⟨(code | _) | _,t⟩
  · rw [ran] at failed
    cases failed
  · rw [ran] at failed
    cases failed
    rfl
  · rw [ran] at failed
    cases failed

theorem onlyDiesInsist (m : TreeM K α) : OnlyDies (insist m) := by
  intro s e failed
  unfold insist at failed
  rcases ran : m s with ⟨_ | _,t⟩
  · rw [ran] at failed
    cases failed
    rfl
  · rw [ran] at failed
    cases failed

theorem onlyDiesRollbackEntries (entries : List LogEntry) : OnlyDies (rollbackEntries ops entries) := by
  induction entries with
  | nil => exact onlyDiesPure _
  | cons entry rest ih => exact onlyDiesBind (onlyDiesIgnore _) fun _ => ih

variable (ops) in
theorem rollbackDies {page index num bytes} (positive : 0 < num) {entries}
    (inside : .nodeRemove page index bytes num ∈ entries) : ∀ s, (rollbackEntries ops entries s).1 = .error .abort := by
  induction entries with
  | nil => cases inside
  | cons entry rest ih =>
    intro s
    rw [rollbackEntries,bindApply]
    rcases ran : ignoreRc (rollbackEntry ops entry) s with ⟨r,t⟩
    cases r with
    | error e =>
      obtain rfl := onlyDiesIgnore _ s e (congrArg Prod.fst ran)
      rfl
    | ok _ =>
      rcases mem_cons.mp inside with rfl | later
      · have dies : rollbackEntry ops (.nodeRemove page index bytes num) s = (.error .abort,s) := by
          simp only [rollbackEntry,getNode,bindApply,readApply,assert]
          rw [if_neg (by omega)]
          rfl
        simp only [ignoreRc,ignore,dies] at ran
        cases ran
      · exact ih later t

theorem disposePagesRun (pages : List PageNum) : ∀ s : Handler K, ∃ t, disposePages pages s = (.ok (),t) ∧
    t.shape = s.shape ∧ t.mtr.faults = s.mtr.faults := by
  induction pages with
  | nil => exact fun s => ⟨s,rfl,rfl,rfl⟩
  | cons page rest ih =>
    intro s
    rw [disposePages]
    by_cases header : page = bpHeaderPage
    · obtain ⟨t,run,same⟩ := ih s
      refine ⟨t,?_,same⟩
      rw [bindOk (a := ()) (t := s) (by rw [bufferPoolDisposePage,if_pos header]; rfl)]
      exact run
    · rw [bufferPoolDisposePage,if_neg header]
      exact ih _

theorem releaseRun (s : Handler K) : ∃ t, release s = (.ok (),t) ∧ t.shape = s.shape ∧ t.mtr.faults = s.mtr.faults := by
  obtain ⟨t,run,pages,faults⟩ := disposePagesRun (releaseAll s).2.mtr.disposed (releaseAll s).2
  refine ⟨{ t with mtr := { t.mtr with disposed := [] } },?_,pages,faults⟩
  have released : releaseAll s = (.ok (),(releaseAll s).2) := rfl
  rw [release,bindOk released,bindOk (readApply _ _),bindOk run]
  rfl

theorem onlyDiesFinish (r : Except Exit Unit) : OnlyDies (finish ops r) := by
  have released : OnlyDies (release : TreeM K Unit) := onlyDiesOk fun u => by
    obtain ⟨t,run,-⟩ := releaseRun u
    rw [run]
  rcases r with (code | _) | _
  · exact onlyDiesBind (onlyDiesBind onlyDiesUpdate fun _ => onlyDiesBind (onlyDiesRead _) fun _ =>
      onlyDiesBind (onlyDiesRollbackEntries _) fun _ => onlyDiesUpdate) fun _ => released
  · intro s e failed
    cases failed
    rfl
  · exact onlyDiesBind (onlyDiesIgnore _) fun _ => released

variable (ops code) in
theorem finishDies (removed : Removed s) : (finish ops (.error (.rc code)) s).1 = .error .abort := by
  obtain ⟨page,index,bytes,num,inside,positive⟩ := removed
  have dies := rollbackDies ops positive (mem_reverse.mpr inside)
    { s with mtr := { s.mtr with needLog := false } }
  simp only [finish,rollback,bindApply,updateApply,readApply]
  rcases ran : rollbackEntries ops s.mtr.entries.reverse { s with mtr := { s.mtr with needLog := false } } with ⟨r,t⟩
  rw [ran] at dies
  cases r with
  | ok _ => cases dies
  | error e => exact dies

variable (ops code) in
theorem finishQuiet (clean : s.mtr.entries = []) : ∃ u, finish ops (.error (.rc code)) s = (.ok (),u) ∧
    u.shape = s.shape ∧ u.mtr.faults = s.mtr.faults := by
  obtain ⟨u,run,pages,faults⟩ := releaseRun { s with mtr := { s.mtr with entries := [], needLog := true } }
  refine ⟨u,?_,pages,faults⟩
  simp only [finish,rollback,bindApply,updateApply,readApply,clean,reverse_nil,rollbackEntries,pureApply]
  exact run

def Spoiled (r : Except Exit Unit × Handler K) : Prop := ∀ code, r.1 = .error (.rc code) → Removed r.2

theorem callSpoiled (spoiled : Spoiled (body s.beginMtr)) (code : RC) : (call ops body s).1 ≠ .error (.rc code) := by
  intro failed
  unfold call at failed
  rcases ran : body s.beginMtr with ⟨r,t⟩
  rw [ran] at spoiled failed
  dsimp only at failed
  rcases ended : finish ops r t with ⟨r',u⟩
  rw [ended] at failed
  cases r' with
  | error e =>
    cases onlyDiesFinish r t e (congrArg Prod.fst ended)
    cases failed
  | ok _ =>
    obtain rfl : r = .error (.rc code) := failed
    have dies := finishDies ops code (spoiled code rfl)
    rw [ended] at dies
    cases dies

variable (ops) in
theorem callStops (stops : body s.beginMtr = (.error (.rc code),t)) (clean : t.mtr.entries = []) :
    ∃ u, call ops body s = (.error (.rc code),u) ∧ u.shape = t.shape ∧ u.mtr.faults = t.mtr.faults := by
  obtain ⟨u,run,pages,faults⟩ := finishQuiet ops code clean
  refine ⟨u,?_,pages,faults⟩
  unfold call
  rw [stops]
  dsimp only
  rw [run]

/-! ### Once removed -/

theorem Reached.entriesGrow {n} (here : Reached ops n s t) : s.mtr.entries ⊆ t.mtr.entries := by
  have path := here.path
  clear here
  induction path with
  | refl => exact List.Subset.refl _
  | tail _ step ih =>
    refine List.Subset.trans ih ?_
    cases step with
    | quiet grows pages entries => exact entries ▸ List.Subset.refl _
    | change grows entry described logged bound => exact logged ▸ subset_append_left _ _

theorem sizesBounded (s : Handler K) : ∃ n, ∀ p, (s.disk.node p).size ≤ n := by
  have finite : Finite PageNum := Finite.of_injective (fun p : Int32 => p.toBitVec.toFin) fun a b same =>
    Int32.toBitVec_inj.mp (BitVec.eq_of_toFin_eq same)
  obtain ⟨n,bound⟩ := (Set.finite_range fun p => (s.disk.node p).size).bddAbove
  exact ⟨n,fun p => bound ⟨p,rfl⟩⟩

theorem removedKept (least : Nat) (paced : ∀ n, least ≤ n → Keeps (Reached ops n s) m)
    (logging : s.mtr.needLog = true) (removed : Removed s) : Removed (m s).2 := by
  obtain ⟨n,sizes⟩ := sizesBounded s
  have reached := paced (max least n) (le_max_left _ _) s
    ⟨logging,fun p => (sizes p).trans ((le_max_right _ _).trans (Nat.le_add_right _ _)),.refl⟩
  obtain ⟨page,index,bytes,num,inside,positive⟩ := removed
  exact ⟨page,index,bytes,num,reached.entriesGrow inside,positive⟩

end

/-! ### The bodies of the calls -/

def Stops {α : Type} (m : TreeM K α) (s : Handler K) (code : RC) (t : Handler K) : Prop :=
  m s = (.error (.rc code),t) ∧ t.shape = s.shape ∧ t.mtr.entries = s.mtr.entries

def NoPage (s : Handler K) : Prop := s.disk.file.full = true ∨ failsWithin 1 s.mtr.faults = true

section
variable {ops : KeyOps K} {s t : Handler K} {α : Type} {page : PageNum}

theorem allocateOutcome (few : s.disk.file.pageCount ≤ maxPageNum) :
    (NoPage s ∧ ∃ code t, Stops allocatePage s code t) ∨
    ¬ NoPage s ∧ ∃ page t, (allocatePage : TreeM K PageNum) s = (.ok page,t) ∧ t.mtr.needLog = s.mtr.needLog ∧
      ∀ q, Allocated s.disk.file q → q ≠ page ∧ t.disk.node q = s.disk.node q := by
  unfold Stops allocatePage NoPage failsWithin
  cases free : s.disk.file.freePage with
  | some page =>
    have notFull : s.disk.file.full = false := by rw [BPFileHeader.full,free]; rfl
    have clear := BPFileHeader.freePageClear free
    have number : natOf (Int32.ofNat page) = page := natOfOfNat ((clear.1.trans_le few).trans (by decide))
    have other : ∀ q, Allocated s.disk.file q → q ≠ Int32.ofNat page := by
      rintro q ⟨-,-,set⟩ rfl
      rw [number,clear.2] at set
      cases set
    simp only [bindApply,readApply,free,setBit,updateApply,appendLog,fault,hold,pureApply,notFull]
    rcases s.mtr.faults with _ | ⟨_ | code,rest⟩
    · exact .inr ⟨by simp,_,_,rfl,rfl,fun q used => ⟨other q used,rfl⟩⟩
    · exact .inr ⟨by simp,_,_,rfl,rfl,fun q used => ⟨other q used,rfl⟩⟩
    · exact .inl ⟨by simp,_,_,rfl,rfl,rfl⟩
  | none =>
    simp only [bindApply,readApply,free]
    by_cases full : maxPageNum ≤ s.disk.file.pageCount
    · rw [if_pos full]
      exact .inl ⟨.inl (by simp [BPFileHeader.full,free,full]),_,_,rfl,rfl,rfl⟩
    · rw [if_neg full]
      have notFull : s.disk.file.full = false := by simp [BPFileHeader.full,full]
      have number : natOf (Int32.ofNat s.disk.file.pageCount) = s.disk.file.pageCount :=
        natOfOfNat ((not_le.mp full).trans (by decide))
      have other : ∀ q, Allocated s.disk.file q → q ≠ Int32.ofNat s.disk.file.pageCount := by
        rintro q ⟨-,inside,-⟩ rfl
        rw [number] at inside
        exact lt_irrefl _ inside
      simp only [bindApply,updateApply,appendLog,fault,hold,pureApply,extendFile,notFull]
      rcases s.mtr.faults with _ | ⟨_ | code,rest⟩
      · exact .inr ⟨by simp,_,_,rfl,rfl,fun q used => ⟨other q used,update_of_ne (other q used) _ _⟩⟩
      · exact .inr ⟨by simp,_,_,rfl,rfl,fun q used => ⟨other q used,update_of_ne (other q used) _ _⟩⟩
      · exact .inl ⟨by simp,_,_,rfl,rfl,rfl⟩

variable {parent next : PageNum} {items : List (K × RID)} {m : TreeM K Unit}

theorem leafViewRun (node : s.disk.node page = .leaf parent next items) :
    LeafIndexNodeHandler.view page s = (.ok (parent,next,items),s) := by
  simp only [LeafIndexNodeHandler.view,getNode,bindApply,readApply,node]
  rfl

def Writes (m : TreeM K Unit) (s : Handler K) (page : PageNum) (x : IndexNode K) (t : Handler K) : Prop :=
  m s = (.ok (),t) ∧ t.mtr.needLog = true ∧ t.disk.node = update s.disk.node page x

variable (ops) in
theorem leafAppendWrites (logging : s.mtr.needLog = true)
    (node : s.disk.node page = .leaf parent next items) (new : List (K × RID)) :
    ∃ x t, Writes (append ops page new) s page x t := by
  unfold Writes LeafIndexNodeHandler.append LeafIndexNodeHandler.insertItems
  rw [bindOk (leafViewRun node)]
  dsimp only
  rw [bindOk (leafViewRun node)]
  rw [loggedRun logging]
  exact ⟨_,_,rfl,logging,rfl⟩

variable (ops) in
theorem leafMoveHalfRemoves {other parent' next' items'}
    (logging : s.mtr.needLog = true) (here : s.disk.node page = .leaf parent next items) (filled : items ≠ [])
    (there : s.disk.node other = .leaf parent' next' items') (apart : page ≠ other) :
    ∃ t, LeafIndexNodeHandler.moveHalfTo ops page other s = (.ok (),t) ∧ t.mtr.needLog = true ∧ Removed t := by
  have positive := length_pos_iff.mpr filled
  obtain ⟨x,u,run,logging',node⟩ := leafAppendWrites ops logging there (items.drop (items.length / 2))
  have here' : u.disk.node page = .leaf parent next items := by rw [node,update_of_ne apart,here]
  unfold LeafIndexNodeHandler.moveHalfTo
  rw [bindOk (leafViewRun here)]
  dsimp only
  rw [bindOk run,bindOk (leafViewRun here')]
  dsimp only
  rw [loggedRun logging']
  exact ⟨_,rfl,logging',_,_,_,_,mem_append_right _ (mem_singleton.mpr rfl),by omega⟩

variable (page) in
theorem leafInitWrites (logging : s.mtr.needLog = true) :
    ∃ t, Writes (initEmpty .leaf page) s page (.leaf bpInvalidPageNum bpInvalidPageNum []) t :=
  ⟨_,loggedRun logging _ _ _,logging,rfl⟩

variable (page) in
theorem setParentWrites (logging : s.mtr.needLog = true) (parent : PageNum) :
    ∃ t, Writes (IndexNodeHandler.setParentPageNum page parent) s page ((s.disk.node page).setParent parent) t :=
  ⟨_,loggedRun logging _ _ _,logging,rfl⟩

variable (ops) in
theorem splitLeafRun (few : s.disk.file.pageCount ≤ maxPageNum)
    (used : Allocated s.disk.file page) (logging : s.mtr.needLog = true)
    (here : s.disk.node page = .leaf parent next items) (filled : items ≠ []) :
    (NoPage s ∧ ∃ code t, Stops (split ops .leaf page) s code t) ∨
    ¬ NoPage s ∧ ∃ newPage t, split ops .leaf page s = (.ok newPage,t) ∧ t.mtr.needLog = true ∧ Removed t := by
  unfold split
  rcases allocateOutcome few with ⟨none,code,t,run,pages,entries⟩ | ⟨some,newPage,t,run,needLog,old⟩
  · exact .inl ⟨none,code,t,bindError (bindError run),pages,entries⟩
  · obtain ⟨apart,same⟩ := old page used
    have allocated : ∃ u, memoAllocatePage s = (.ok newPage,u) ∧ u.mtr.needLog = true ∧ u.disk.node page = .leaf parent next items :=
      ⟨_,bindOk run,needLog.trans logging,same.trans here⟩
    obtain ⟨u,run₀,logging₀,here₀⟩ := allocated
    have latched : ∃ v, latch (.exclusive newPage) u = (.ok (),v) ∧ v.mtr.needLog = true ∧ v.disk.node page = .leaf parent next items :=
      ⟨_,rfl,logging₀,here₀⟩
    obtain ⟨v,run₁,logging₁,here₁⟩ := latched
    -- the new page is an empty leaf when the items come
    obtain ⟨w,run₂,logging₂,node₂⟩ := leafInitWrites newPage logging₁
    obtain ⟨x,run₃,logging₃,node₃⟩ := setParentWrites newPage logging₂ (w.disk.node page).parent
    rw [node₂,update_self,update_idem] at node₃
    obtain ⟨y,run₄,logging₄,removed⟩ := leafMoveHalfRemoves ops logging₃
      (by rw [node₃,update_of_ne apart,here₁]) filled (by rw [node₃,update_self]; rfl) apart
    have moved : ignoreRc (moveHalfTo ops .leaf page newPage) x = (.ok (),y) := ignoreOk run₄
    refine .inr ⟨some,newPage,{ y with mtr := { y.mtr with dirty := newPage :: page :: y.mtr.dirty } },?_,logging₄,removed⟩
    rw [bindOk run₀,bindOk run₁,bindOk run₂,getNode,bindOk (readApply _ _),bindOk run₃,bindOk moved]
    rfl

/-- How the body of a call ends: it stops early and changes nothing, or it goes on. In the
second case it may still find that there is nothing to do; otherwise a rollback would fail. -/
def Ends (early changes : Prop) (k : Nat) (m : TreeM K Unit) (s : Handler K) : Prop :=
  (early ∧ ∃ code t, Stops m s code t) ∨ ¬ early ∧ (changes ∧ Spoiled (m s) ∨
    ¬ changes ∧ ∃ code t, Stops m s code t ∧ code ≠ .bufferpoolNobuf ∧ failsWithin k s.mtr.faults = false ∧
      t.mtr.faults = s.mtr.faults.drop k)

theorem spoiledOfDies (dies : OnlyDies m) : Spoiled (m s) := by
  intro code failed
  cases dies s _ failed

theorem onlyDiesLeafInsert (page : PageNum) (index : Nat) (key : K) (rid : RID) :
    OnlyDies (insert ops page index key rid) := by
  refine onlyDiesBind (onlyDiesBind (onlyDiesRead _) fun node => ?_) fun _ => onlyDiesBind onlyDiesUpdate fun _ =>
    onlyDiesUpdate
  cases node with
  | leaf parent next items => exact onlyDiesPure _
  | internal parent items =>
    intro s e failed
    cases failed
    rfl

variable (ops page) in
theorem insertIntoLeafEnds (key : K) (rid : RID)
    (few : s.disk.file.pageCount ≤ maxPageNum) (used : Allocated s.disk.file page) (logging : s.mtr.needLog = true)
    (here : s.disk.node page = .leaf parent next items) (filled : items ≠ []) :
    Ends ((LeafIndexNodeHandler.lookup ops key items).2 = false ∧ natOf s.disk.header.leafMaxSize ≤ items.length ∧ NoPage s)
      ((LeafIndexNodeHandler.lookup ops key items).2 = false) 0 (insertEntryIntoLeafNode ops page key rid) s := by
  have start : insertEntryIntoLeafNode ops page key rid s = _ := bindOk (leafViewRun here)
  unfold Ends Stops
  rw [start]
  dsimp only
  by_cases found : (lookup ops key items).2 = true
  · rw [if_pos found]
    exact .inr ⟨by simp [found],.inr ⟨by simp [found],_,s,⟨rfl,rfl,rfl⟩,by decide,rfl,rfl⟩⟩
  · have missing := Bool.eq_false_of_not_eq_true found
    rw [if_neg found,getHeader,bindOk (readApply _ _),getNode,bindOk (readApply _ _),here,maxSizeLeaf]
    by_cases room : items.length < natOf s.disk.header.leafMaxSize
    · rw [if_pos room]
      exact .inr ⟨fun wrong => by omega,.inl ⟨missing,spoiledOfDies (onlyDiesBind (onlyDiesLeafInsert _ _ _ _) fun _ =>
        onlyDiesUpdate)⟩⟩
    · rw [if_neg room]
      have early : (lookup ops key items).2 = false ∧
          natOf s.disk.header.leafMaxSize ≤ items.length ∧ NoPage s ↔ NoPage s := by
        simp [found,not_lt.mp room]
      rw [early]
      rcases splitLeafRun ops few used logging here filled with ⟨none,code,t,run,same⟩ |
        ⟨some,newPage,t,run,logging',removed⟩
      · exact .inl ⟨none,code,t,bindError run,same⟩
      · rw [bindOk run]
        exact .inr ⟨some,.inl ⟨missing,fun _ _ => removedKept ((lookup ops key items).1)
          (fun n enough => keepsAfterSplit (fun u _ => by omega) page newPage key rid) logging' removed⟩⟩

theorem isEmptyRun (s : Handler K) : isEmpty s = (.ok (decide (s.disk.header.rootPage = bpInvalidPageNum)),s) := rfl

theorem onlyDiesUpdateRoot (root : PageNum) : OnlyDies (updateRootPageNumLocked root : TreeM K Unit) :=
  onlyDiesBind (onlyDiesInsist _) fun _ => onlyDiesBind (onlyDiesBind onlyDiesUpdate fun _ => onlyDiesUpdate) fun _ =>
    onlyDiesBind (onlyDiesRead _) fun _ => onlyDiesBind onlyDiesUpdate fun _ => onlyDiesBind onlyDiesUpdate fun _ =>
      onlyDiesUpdate

variable (ops) in
theorem createNewTreeEnds (key : K) (rid : RID) (few : s.disk.file.pageCount ≤ maxPageNum)
    (empty : s.disk.header.rootPage = bpInvalidPageNum) :
    (NoPage s ∧ ∃ code t, Stops (createNewTree ops key rid) s code t) ∨
    ¬ NoPage s ∧ ∀ code, (createNewTree ops key rid s).1 ≠ .error (.rc code) := by
  unfold Stops createNewTree
  rw [bindOk (isEmptyRun s),if_pos (by simpa using empty)]
  rcases allocateOutcome few with ⟨none,code,t,run,same⟩ | ⟨some,page,t,run,-⟩
  · exact .inl ⟨none,code,t,bindError (bindError run),same⟩
  · refine .inr ⟨some,fun code failed => ?_⟩
    have allocated : memoAllocatePage s = (.ok page,{ t with mtr := { t.mtr with memo := t.mtr.memo ++ [.pin page] } }) :=
      bindOk run
    rw [bindOk allocated] at failed
    refine Exit.noConfusion (?_ : Exit.rc code = .abort)
    exact onlyDiesBind (onlyDiesBind onlyDiesUpdate fun _ => onlyDiesUpdate) (fun _ =>
      onlyDiesBind (onlyDiesLeafInsert _ _ _ _) fun _ => onlyDiesBind (onlyDiesUpdateRoot _) fun _ => onlyDiesUpdate)
      _ _ failed

theorem searchPathEmpty {disk : IndexFile K} (empty : disk.header.rootPage = bpInvalidPageNum) (key : K) :
    disk.searchPath ops key = [] := if_pos empty

theorem findsLeaf {disk : IndexFile K} {key} (last : (disk.searchPath ops key).getLast? = some page)
    (here : disk.node page = .leaf parent next items) : disk.finds ops key = (lookup ops key items).2 := by
  simp only [finds,last,here]
  rfl

theorem endsAfterSearch {k : Nat} (early changes : Prop) {search} {f : α → TreeM K Unit}
    (fetches : Fetches k a search s) (kept : Keeps (Untouched s) search)
    (failed : ∀ code t, search s = (.error (.rc code),t) → ∃ code, m s = (.error (.rc code),t))
    (found : ∀ t, search s = (.ok a,t) → m s = f a t)
    (rest : ∀ t, Untouched s t → t.mtr.faults = s.mtr.faults.drop k → Ends early changes 0 (f a) t) :
    Ends (failsWithin k s.mtr.faults = true ∨ early) changes k m s := by
  have untouched := kept s ⟨rfl,rfl,rfl,rfl,rfl,rfl,rfl⟩
  have pages : ∀ {t : Handler K}, Untouched s t → t.shape = s.shape := fun h => by rw [Handler.shape,Handler.pages,h.disk]; rfl
  rcases fetches with ⟨fails,code,t,run⟩ | ⟨works,t,run,-,faults⟩
  · rw [run] at untouched
    obtain ⟨code',run'⟩ := failed code t run
    exact .inl ⟨.inl fails,code',t,run',pages untouched,untouched.entries⟩
  · rw [run] at untouched
    have run' := found t run
    rcases rest t untouched faults with ⟨stops,code,u,ran,same,entries⟩ | ⟨goes,ends⟩
    · exact .inl ⟨.inr stops,code,u,run'.trans ran,same.trans (pages untouched),entries.trans untouched.entries⟩
    · refine .inr ⟨fun either => either.elim (fun fails => ?_) goes,?_⟩
      · rw [works] at fails
        cases fails
      · rcases ends with ⟨changes,spoiled⟩ | ⟨keeps,code,u,⟨ran,same,entries⟩,other,-,left⟩
        · exact .inl ⟨changes,run' ▸ spoiled⟩
        · exact .inr ⟨keeps,code,u,⟨run'.trans ran,same.trans (pages untouched),entries.trans untouched.entries⟩,other,works,
            left.trans faults⟩

theorem deleteInternalEnds {key} (logging : s.mtr.needLog = true)
    (here : s.disk.node page = .leaf parent next items) :
    Ends False ((lookup ops key items).2 = true) 0 (deleteEntryInternal ops page key) s := by
  have start : deleteEntryInternal ops page key s = _ := bindOk (leafViewRun here)
  unfold Ends Stops
  rw [start]
  dsimp only
  by_cases found : (lookup ops key items).2 = true
  · rw [if_pos found]
    refine .inr ⟨id,.inl ⟨found,fun code failed => ?_⟩⟩
    by_cases inside : (lookup ops key items).1 < items.length
    · have removes : ∃ t, LeafIndexNodeHandler.remove ops page (LeafIndexNodeHandler.lookup ops key items).1 s = (.ok (),t) ∧
          t.mtr.needLog = true ∧ Removed t := by
        rw [LeafIndexNodeHandler.remove,bindOk (leafViewRun here)]
        dsimp only
        rw [assert,if_pos inside,bindOk (pureApply _ _),loggedRun logging]
        exact ⟨_,rfl,logging,_,_,_,_,mem_append_right _ (mem_singleton.mpr rfl),Nat.one_pos⟩
      obtain ⟨t,run,logging',removed⟩ := removes
      rw [bindOk run]
      exact removedKept 0 (fun n _ => pacedBind pacedMarkDirty (fun _ => pacedBind pacedRead fun _ =>
        pacedBind pacedRead fun _ => pacedIte pacedPure (pacedBind pacedRead fun _ => pacedCoalesce _ _ _)) t)
        logging' removed
    · have dies : LeafIndexNodeHandler.remove ops page (LeafIndexNodeHandler.lookup ops key items).1 s = (.error .abort,s) := by
        rw [LeafIndexNodeHandler.remove,bindOk (leafViewRun here)]
        dsimp only
        rw [assert,if_neg inside]
        rfl
      rw [bindError dies] at failed
      cases failed
  · rw [if_neg found]
    exact .inr ⟨id,.inr ⟨found,_,s,⟨rfl,rfl,rfl⟩,by decide,rfl,rfl⟩⟩

variable [LinearOrder K]

variable (ops) in
theorem insertBodyEnds (key : K) (rid : RID) (valid : s.disk.Valid) (stored : s.disk.Stored)
    (logging : s.mtr.needLog = true) :
    Ends (failsWithin (s.disk.searchPath ops key).length s.mtr.faults = true ∨ s.disk.needsPage ops key = true ∧
      (s.disk.file.full = true ∨ failsWithin 1 (s.mtr.faults.drop (s.disk.searchPath ops key).length) = true))
      (s.disk.finds ops key = false) (s.disk.searchPath ops key).length (insertEntryBody ops key rid) s := by
  by_cases empty : s.disk.header.rootPage = bpInvalidPageNum
  · have needs : s.disk.needsPage ops key = true := by rw [needsPage,searchPathEmpty empty]; rfl
    let held : Handler K := { s with mtr := { s.mtr with held := .rootExclusive :: s.mtr.held } }
    have early : (failsWithin (s.disk.searchPath ops key).length s.mtr.faults = true ∨ s.disk.needsPage ops key = true ∧
        (s.disk.file.full = true ∨ failsWithin 1 (s.mtr.faults.drop (s.disk.searchPath ops key).length) = true)) ↔
        NoPage held := by
      simp [needs,searchPathEmpty empty,NoPage,failsWithin,held]
    have run : insertEntryBody ops key rid s = ((createNewTree ops key rid held).1,
        dropHeld .rootExclusive (createNewTree ops key rid held).2) := by
      rw [insertEntryBody,bindOk (isEmptyRun s),if_pos (by simpa using empty)]
      rfl
    unfold Ends Stops
    rw [early,run]
    rcases createNewTreeEnds ops key rid (s := held) stored.few empty with
      ⟨none,code,t,stop,pages,entries⟩ | ⟨some,goes⟩
    · rw [stop]
      exact .inl ⟨none,code,_,rfl,pages,entries⟩
    · refine .inr ⟨some,.inl ⟨?_,fun code failed => absurd failed (goes code)⟩⟩
      rw [finds,searchPathEmpty empty]
      rfl
  · obtain ⟨leaf,listed,last,⟨parent,next,items,here,filled⟩,fetches⟩ := fetchesFindLeaf ops .insert key valid empty
    have run : insertEntryBody ops key rid s =
        (findLeaf ops .insert key >>= fun page => insertEntryIntoLeafNode ops page key rid) s := by
      rw [insertEntryBody,bindOk (isEmptyRun s),if_neg (by simpa using empty)]
    refine endsAfterSearch _ _ (fetches s rfl) (keepsFindLeaf ops .insert key)
      (fun code t failed => ⟨code,by rw [run,bindError failed]⟩) (fun t found => by rw [run,bindOk found]) ?_
    intro t untouched faults
    have ends := insertIntoLeafEnds ops leaf key rid (s := t)
      (untouched.disk ▸ stored.few) (untouched.disk ▸ stored.used leaf listed) (untouched.needLog.trans logging)
      (untouched.disk ▸ here) filled
    have early : (lookup ops key items).2 = false ∧
        natOf t.disk.header.leafMaxSize ≤ items.length ∧ NoPage t ↔ s.disk.needsPage ops key = true ∧
        (s.disk.file.full = true ∨ failsWithin 1 (s.mtr.faults.drop (s.disk.searchPath ops key).length) = true) := by
      simp [needsPage,last,here,Node.leafItems,NoPage,untouched.disk,faults,and_assoc]
    rw [early,← findsLeaf last here] at ends
    exact ends

variable (ops) in
theorem deleteBodyEnds (key : K) (valid : s.disk.Valid) (logging : s.mtr.needLog = true) :
    Ends (failsWithin (s.disk.searchPath ops key).length s.mtr.faults = true) (s.disk.finds ops key = true)
      (s.disk.searchPath ops key).length (deleteEntryBody ops key) s := by
  by_cases empty : s.disk.header.rootPage = bpInvalidPageNum
  · have run : ∃ t, findLeaf ops .delete key s = (.error (.rc .empty),t) ∧ t.shape = s.shape ∧
        t.mtr.entries = s.mtr.entries ∧ t.mtr.faults = s.mtr.faults := by
      refine ⟨{ s with mtr := { s.mtr with held := .rootExclusive :: s.mtr.held, memo := s.mtr.memo ++ [.rootExclusive] } },
        ?_,rfl,rfl,rfl⟩
      rw [findLeaf,findLeafInternal,if_neg (by decide),bindOk (show latch .rootExclusive s = (.ok (),_) from rfl),
        bindOk (isEmptyRun _),if_pos (by simpa using empty)]
      rfl
    obtain ⟨t,run,pages,entries,faults⟩ := run
    rw [finds,searchPathEmpty empty]
    refine .inr ⟨by simp [failsWithin],.inr ⟨by simp,.recordNotExist,t,⟨?_,pages,entries⟩,by decide,rfl,faults⟩⟩
    rw [deleteEntryBody,run]
  · obtain ⟨leaf,listed,last,⟨parent,next,items,here,filled⟩,fetches⟩ := fetchesFindLeaf ops .delete key valid empty
    have ends := endsAfterSearch False (s.disk.finds ops key = true)
      (m := deleteEntryBody ops key) (f := fun page => deleteEntryInternal ops page key)
      (fetches s rfl) (keepsFindLeaf ops .delete key) ?_ ?_ ?_
    · simpa using ends
    · intro code t failed
      rw [deleteEntryBody,failed]
      cases code <;> exact ⟨_,rfl⟩
    · intro t found
      rw [deleteEntryBody,found]
    · intro t untouched _
      rw [findsLeaf last here]
      exact deleteInternalEnds (untouched.needLog.trans logging) (untouched.disk ▸ here)

end

/-! ### Whole calls -/

theorem Content.stored [LinearOrder K] {S : Store K} {E} (content : Content S E)
    (seen : Sees s S) : s.disk.Stored := by
  rcases content with ⟨vacant,-⟩ | ⟨lab,height,good,-⟩
  · refine ⟨seen.file ▸ vacant.file.few,?_⟩
    rw [leafPages,seen.header,if_pos vacant.root]
    intro p inside
    cases inside
  · refine ⟨seen.file ▸ good.file.few,?_⟩
    rw [leafPages,seen.header,seen.node,seen.file,if_neg good.notEmpty]
    intro p inside
    obtain ⟨_,_,found⟩ := rowLabel (good.tree.leavesRow good.tree.rootLabel good.heightLt) inside
    exact good.allocated p _ found

theorem shapeSame [LinearOrder K] (ops : KeyOps K) {s t : Handler K} (same : t.shape = s.shape) : t.disk.entries = s.disk.entries ∧
    (s.disk.Valid → t.disk.Valid) ∧ ∀ key, t.disk.finds ops key = s.disk.finds ops key := by
  obtain ⟨pages,count⟩ := Prod.ext_iff.mp same
  have header : t.disk.header = s.disk.header := congrArg Pages.header pages
  have node : t.disk.node = s.disk.node := congrArg Pages.node pages
  have count : t.disk.file.pageCount = s.disk.file.pageCount := count
  have leaves : t.disk.leafPages = s.disk.leafPages := by rw [leafPages,leafPages,header,node,count]
  refine ⟨by rw [IndexFile.entries,IndexFile.entries,leaves,node],fun valid => ?_,fun key => ?_⟩
  · rwa [Valid,leaves,header,node,count]
  · rw [finds,finds,searchPath,searchPath,header,node,count]

section
variable {A : Type} [LinearOrder (IndexKey A)] {ops : KeyOps (IndexKey A)} {s : Handler (IndexKey A)}

omit [LinearOrder (IndexKey A)] in
theorem runAfterFault (call : Call A) : call.run ops s = (fault >>= fun _ => BplusTree.call ops (call.body ops)) s := by
  have made : ∀ (key : A) (rid : RID) (body : IndexKey A → TreeM (IndexKey A) Unit),
      (makeKey key rid >>= fun k => BplusTree.call ops (body k)) s =
        (fault >>= fun _ => BplusTree.call ops (body ⟨key,rid⟩)) s := by
    intro key rid body
    simp only [makeKey,bindApply]
    rcases fault s with ⟨_ | _,t⟩ <;> rfl
  cases call with
  | insert userKey rid => exact made _ _ _
  | delete userKey rid => exact made _ _ _

variable (ops) in
theorem bodyEnds (call : Call A) (valid : s.disk.Valid) (stored : call.isInsert = true → s.disk.Stored)
    (logging : s.mtr.needLog = true) :
    Ends (failsWithin (s.disk.searchPath ops call.key).length s.mtr.faults = true ∨
      call.isInsert = true ∧ s.disk.needsPage ops call.key = true ∧ (s.disk.file.full = true ∨
        failsWithin 1 (s.mtr.faults.drop (s.disk.searchPath ops call.key).length) = true))
      (s.disk.finds ops call.key ≠ call.isInsert) (s.disk.searchPath ops call.key).length (call.body ops) s := by
  cases call with
  | insert userKey rid =>
    have ends := insertBodyEnds ops ⟨userKey,rid⟩ rid valid (stored rfl) logging
    simpa [Call.isInsert,Call.key,Call.body] using ends
  | delete userKey rid =>
    have ends := deleteBodyEnds ops ⟨userKey,rid⟩ valid logging
    simpa [Call.isInsert,Call.key,Call.body] using ends

def RunStops (ops : KeyOps (IndexKey A)) (call : Call A) (s : Handler (IndexKey A)) (code : RC) (t : Handler (IndexKey A)) : Prop :=
  call.run ops s = (.error (.rc code),t) ∧ t.shape = s.shape

variable (ops) in
theorem runEnds (call : Call A) (valid : s.disk.Valid) (stored : call.isInsert = true → s.disk.Stored) :
    (FailsEarly ops call s ∧ ∃ code t, RunStops ops call s code t) ∨ ¬ FailsEarly ops call s ∧
      (s.disk.finds ops call.key ≠ call.isInsert ∧ (∀ code, (call.run ops s).1 ≠ .error (.rc code)) ∨
        s.disk.finds ops call.key = call.isInsert ∧ ∃ code t, RunStops ops call s code t ∧
          (∀ u, call.body ops (fault s).2.beginMtr ≠ (.error (.rc .bufferpoolNobuf),u)) ∧
          (∀ u, call.body ops (fault s).2.beginMtr ≠ (.ok (),u)) ∧
          failsWithin (1 + (s.disk.searchPath ops call.key).length) s.mtr.faults = false ∧
          t.mtr.faults = s.mtr.faults.drop (1 + (s.disk.searchPath ops call.key).length)) := by
  have untouched := keepsFault s ⟨rfl,rfl,rfl,rfl,rfl,rfl,rfl⟩
  unfold FailsEarly RunStops
  rw [runAfterFault]
  simp only [failsWithinAdd,Bool.or_eq_true]
  rcases fetchesFault (s := s) with ⟨missing,code,t,run⟩ | ⟨works,t,run,disk,faults⟩
  · rw [run] at untouched
    rw [bindError run]
    exact .inl ⟨.inl (.inl missing),code,t,rfl,by rw [Handler.shape,Handler.pages,untouched.disk]; rfl⟩
  · rw [bindOk run,run]
    have shape : t.beginMtr.shape = s.shape := by
      show (Handler.pages t,t.disk.file.pageCount) = _
      rw [Handler.pages,disk]
      rfl
    have ends := bodyEnds ops (s := t.beginMtr) call (disk ▸ valid) (fun inserts => disk ▸ stored inserts) rfl
    rw [show t.beginMtr.disk = s.disk from disk,show t.beginMtr.mtr.faults = s.mtr.faults.drop 1 from faults] at ends
    simp only [works,Bool.false_eq_true,false_or,Bool.false_or,← drop_drop]
    rcases ends with ⟨early,code,u,stops,same,entries⟩ | ⟨later,⟨changes,spoiled⟩ | ⟨keeps,code,u,⟨stops,same,entries⟩,other,none,left⟩⟩
    · obtain ⟨v,ended,shape',-⟩ := callStops ops stops entries
      exact .inl ⟨early,code,v,ended,shape'.trans (same.trans shape)⟩
    · exact .inr ⟨later,.inl ⟨changes,callSpoiled spoiled⟩⟩
    · obtain ⟨v,ended,shape',rest⟩ := callStops ops stops entries
      refine .inr ⟨later,.inr ⟨not_ne_iff.mp keeps,code,v,⟨ended,shape'.trans (same.trans shape)⟩,?_,?_,faults ▸ none,?_⟩⟩
      · intro w full
        cases stops.symm.trans full
        exact other rfl
      · intro w done
        cases stops.symm.trans done
      · rw [rest,left]
        exact congrArg _ faults

theorem Content.findsIff {S : Store (IndexKey A)} {pairs : Set (A × RID)} (ordered : ops.Ordered)
    (content : Content S (entriesOf pairs)) (clean : S.disposed = []) (seen : Sees s S) (userKey : A) (rid : RID) :
    s.disk.finds ops ⟨userKey,rid⟩ = true ↔ (userKey,rid) ∈ pairs := by
  have ends := runEnds ops (s := s) (.delete userKey rid) (content.valid seen).1 fun inserts => by cases inserts
  have quiet : ¬ FailsEarly ops (.delete userKey rid) s := by simp [FailsEarly,failsWithin,seen.faults,Call.isInsert]
  rcases ends with ⟨early,-⟩ | ⟨-,ends⟩
  · exact absurd early quiet
  rcases deleteCall ordered content clean ⟨userKey,rid⟩ with ⟨absent,run⟩ | ⟨⟨rid',-,present⟩,T,run,-⟩
  · have value := (takesDeleteEntry run s seen).1
    rcases ends with ⟨-,goes⟩ | ⟨missing,-⟩
    · exact absurd value (goes _)
    · have absent : (userKey,rid) ∉ pairs := fun inside => absent rid ⟨rfl,inside⟩
      exact iff_of_false (fun found => Bool.noConfusion (found.symm.trans missing)) absent
  · have value := (takesDeleteEntry run s seen).1
    rcases ends with ⟨found,-⟩ | ⟨-,code,t,⟨stops,-⟩,-⟩
    · exact iff_of_true (Bool.eq_true_of_not_eq_false found) present
    · cases value.symm.trans (congrArg Prod.fst stops)

theorem rolledBackIffEarly (call : Call A) (valid : s.disk.Valid) (stored : s.disk.Stored) (fails : StepFails ops call s) :
    RolledBack ops call s ↔ FailsEarly ops call s := by
  rcases runEnds ops call valid (fun _ => stored) with ⟨early,code,t,ended,shape⟩ |
    ⟨later,⟨-,goes⟩ | ⟨-,code,t,⟨ended,-⟩,notFull,notDone,none,left⟩⟩
  · have back := congrArg Prod.fst shape
    exact ⟨fun _ => early,fun _ => ⟨code,t,ended,congrArg Pages.node back,congrArg Pages.header back⟩⟩
  · refine ⟨?_,fun early => absurd early later⟩
    rintro ⟨code,v,ended,-⟩
    exact absurd (congrArg Prod.fst ended) (goes code)
  · -- nothing to do, and nothing has failed
    exfalso
    rcases fails with ⟨used,code',all,inside⟩ | ⟨w,full⟩ | ⟨w,code',x,ok,-⟩
    · rw [ended,left] at all
      have taken : used = s.mtr.faults.take (1 + (s.disk.searchPath ops call.key).length) :=
        append_cancel_right (all.symm.trans (take_append_drop _ _).symm)
      have failing : failsWithin (1 + (s.disk.searchPath ops call.key).length) s.mtr.faults = true := by
        rw [failsWithin,any_eq_true]
        exact ⟨some code',taken ▸ inside,rfl⟩
      cases failing.symm.trans none
    · exact notFull w full
    · exact notDone w ok

end

/-! An index whose root is a leaf with six entries, as many as it holds. -/

def sixInserts : List (Call Int) := (range 6).map fun i => .insert i ⟨1,0⟩

def fullLeaf : Handler (IndexKey Int) := runCalls orderedOps sixInserts newIntegers

def Handler.failing (s : Handler K) (faults : List (Option RC)) : Handler K := { s with mtr := { s.mtr with faults := faults } }

def insertSix : Call Int := .insert 6 ⟨1,0⟩

theorem fullLeafStored : fullLeaf.disk.Valid ∧ fullLeaf.disk.Stored := by
  obtain ⟨S,seen,content,clean⟩ := createdContent
    (Prod.ext (by decide +kernel) rfl : create orderedOps 1 4 6 6 (emptyFile 1) = (.ok (),newIntegers))
    (by decide +kernel) (by decide +kernel)
  obtain ⟨T,seenT,contentT,-⟩ := runStep orderedOpsOrdered content clean seen
    (by decide +kernel : HasRoom orderedOps sixInserts newIntegers)
  exact ⟨(contentT.valid seenT).1,contentT.stored seenT⟩

theorem splitNotUndone : fullLeaf.disk.Valid ∧
    StepFails orderedOps insertSix (fullLeaf.failing [none,none,none,some .bufferpoolNobuf]) ∧
    (insertSix.run orderedOps (fullLeaf.failing [none,none,none,some .bufferpoolNobuf])).1 = .error .abort ∧
    ¬ RolledBack orderedOps insertSix (fullLeaf.failing [none,none,none,some .bufferpoolNobuf]) := by
  have dies : (insertSix.run orderedOps (fullLeaf.failing [none,none,none,some .bufferpoolNobuf])).1 = .error .abort := by
    decide +kernel
  refine ⟨fullLeafStored.1,.inl ⟨[none,none,none,some .bufferpoolNobuf],.bufferpoolNobuf,by decide +kernel,by simp⟩,dies,?_⟩
  rintro ⟨code,t,run,-⟩
  rw [run] at dies
  cases dies

/-- The page for the right half is missing already: nothing has been changed. -/
theorem firstAllocationUndone : StepFails orderedOps insertSix (fullLeaf.failing [none,none,some .ioerrWrite]) ∧
    RolledBack orderedOps insertSix (fullLeaf.failing [none,none,some .ioerrWrite]) := by
  have fails : StepFails orderedOps insertSix (fullLeaf.failing [none,none,some .ioerrWrite]) :=
    .inl ⟨[none,none,some .ioerrWrite],.ioerrWrite,by decide +kernel,by simp⟩
  refine ⟨fails,(rolledBackIffEarly insertSix (s := fullLeaf.failing [none,none,some .ioerrWrite]) fullLeafStored.1
    fullLeafStored.2 fails).mpr (.inr ?_)⟩
  decide +kernel

end MiniOb.BplusTree
