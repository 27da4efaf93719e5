import MiniOb.Lib.Loop
import MiniOb.Oblsm.InternalKey
import MiniOb.Oblsm.MergingIterator

/-! `ObUserIterator` (`oblsm/ob_user_iterator.cpp`): user keys at a snapshot over an iterator of internal keys. -/
namespace MiniOb.Oblsm
open Prod (fst snd)
open MergingIterator List

abbrev Entry := InternalKey × Bytes

structure UserIterator (σ : Type) where
  iter : σ
  seq : UInt64
  savedKey : Bytes := []
  valid : Bool := false

namespace UserIterator
variable {σ : Type} (it : ObLsmIterator σ InternalKey Bytes)

def whileValid (skipping : Bool) (u : UserIterator σ) : (Bool × UserIterator σ) ⊕ Option (UserIterator σ) :=
  if it.valid u.iter then .inl (skipping,u) else .inr (some {u with savedKey := [],valid := false})

/- The result `none` is an access through an invalid iterator. -/
def moveOn (skipping : Bool) (savedKey : Bytes) (u : UserIterator σ) : (Bool × UserIterator σ) ⊕ Option (UserIterator σ) :=
  match it.next u.iter with
  | none => .inr none
  | some iter => whileValid it skipping {u with iter,savedKey}

def findStep : Bool × UserIterator σ → (Bool × UserIterator σ) ⊕ Option (UserIterator σ)
  | (skipping,u) => match it.key u.iter,it.value u.iter with
    | some key,some value =>
      if extractSequence key ≤ u.seq then
        if value = [] then moveOn it true (extractUserKey key) u
        else if skipping ∧ compareView (extractUserKey key) u.savedKey ≤ 0 then moveOn it skipping u.savedKey u
        else .inr (some {u with savedKey := [],valid := true})
      else moveOn it skipping u.savedKey u
    | _,_ => .inr none

def FindNextUserEntry (skipping : Bool) (u v : UserIterator σ) : Prop := Loop.Stops (findStep it) (skipping,u) (some v)

inductive SeekToFirst (u : UserIterator σ) : UserIterator σ → Prop where
  | empty (none : it.valid (it.seekToFirst u.iter) = false) :
      SeekToFirst u {u with iter := it.seekToFirst u.iter,valid := false}
  | found {v : UserIterator σ} (some : it.valid (it.seekToFirst u.iter) = true)
      (run : FindNextUserEntry it false {u with iter := it.seekToFirst u.iter} v) : SeekToFirst u v

inductive Next (u : UserIterator σ) : UserIterator σ → Prop where
  | last {key : InternalKey} {iter : σ} (at_ : it.key u.iter = some key) (moved : it.next u.iter = some iter)
      (none : it.valid iter = false) : Next u {u with iter,savedKey := [],valid := false}
  | found {key : InternalKey} {iter : σ} {v : UserIterator σ} (at_ : it.key u.iter = some key)
      (moved : it.next u.iter = some iter) (more : it.valid iter = true)
      (run : FindNextUserEntry it true {u with iter,savedKey := extractUserKey key} v) : Next u v

def key (u : UserIterator σ) : Option Bytes := (it.key u.iter).map extractUserKey

def value (u : UserIterator σ) : Option Bytes := it.value u.iter

inductive Visits : UserIterator σ → List (Bytes × Bytes) → Prop where
  | done {u : UserIterator σ} (invalid : u.valid = false) : Visits u []
  | step {u v : UserIterator σ} {k x : Bytes} {rest : List (Bytes × Bytes)} (valid : u.valid = true)
      (atKey : key it u = some k) (atValue : value it u = some x) (next : Next it u v) (more : Visits v rest) :
      Visits u ((k,x) :: rest)

end UserIterator

/-! ### What a snapshot shows -/

def Newest (entries : List Entry) (s : UInt64) (user value : Bytes) : Prop :=
  ∃ key,(key,value) ∈ entries ∧ extractUserKey key = user ∧ extractSequence key ≤ s ∧
    ∀ other ∈ entries,extractUserKey other.1 = user → extractSequence other.1 ≤ s → extractSequence other.1 ≤ extractSequence key

def visible (s : UInt64) : Option Bytes → List Entry → List (Bytes × Bytes)
  | _,[] => []
  | skip,(key,value) :: rest =>
    if extractSequence key ≤ s then
      if value = [] then visible s (some (extractUserKey key)) rest
      else if ∃ k ∈ skip,numbers (extractUserKey key) ≤ numbers k then visible s skip rest
      else (extractUserKey key,value) :: visible s (some (extractUserKey key)) rest
    else visible s skip rest

section Snapshot
variable {s : UInt64} {key : InternalKey} {value : Bytes} {rest : List Entry}

variable {k x : Bytes} {entries : List Entry} {skip : Option Bytes}

theorem newestOther (other : extractUserKey key ≠ k ∨ ¬ extractSequence key ≤ s) :
    Newest ((key,value) :: rest) s k x ↔ Newest rest s k x := by
  constructor
  · rintro ⟨found,member,user,seen,newest⟩
    rcases mem_cons.mp member with same | later
    · cases same
      exact (other.elim (fun h => h user) (fun h => h seen)).elim
    · exact ⟨found,later,user,seen,fun e inside => newest e (mem_cons_of_mem _ inside)⟩
  · rintro ⟨found,member,user,seen,newest⟩
    refine ⟨found,mem_cons_of_mem _ member,user,seen,fun e inside same visible => ?_⟩
    rcases mem_cons.mp inside with here | later
    · subst here
      exact (other.elim (fun h => h same) (fun h => h visible)).elim
    · exact newest e later same visible

theorem newestHead (sorted : ∀ e ∈ rest,key < e.1) (seen : extractSequence key ≤ s) :
    Newest ((key,value) :: rest) s (extractUserKey key) x ↔ x = value := by
  have older : ∀ e ∈ rest,extractUserKey e.1 = extractUserKey key → extractSequence e.1 < extractSequence key := by
    intro e member same
    rcases InternalKey.ltIff.mp (sorted e member) with below | ⟨_,newer⟩
    · rw [same] at below
      exact absurd below (lt_irrefl _)
    · exact newer
  constructor
  · rintro ⟨found,member,user,_,newest⟩
    rcases mem_cons.mp member with same | later
    · cases same
      rfl
    · have newer := newest (key,value) mem_cons_self rfl seen
      exact absurd (older _ later user) (UInt64.not_lt.mpr newer)
  · intro same
    subst same
    refine ⟨key,mem_cons_self,rfl,seen,fun e inside user _ => ?_⟩
    rcases mem_cons.mp inside with here | later
    · subst here
      exact UInt64.le_refl _
    · exact UInt64.le_of_lt (older e later user)

theorem newestMember (newest : Newest entries s k x) : ∃ e ∈ entries,extractUserKey e.1 = k := by
  obtain ⟨found,member,user,_⟩ := newest
  exact ⟨_,member,user⟩

theorem userLe {a b} (less : a < b) : numbers (extractUserKey a) ≤ numbers (extractUserKey b) := by
  rcases InternalKey.ltIff.mp less with below | ⟨same,_⟩
  · exact le_of_lt below
  · rw [same]

theorem keyBelow (sorted : ∀ e ∈ rest,key < e.1) :
    ∀ j ∈ some (extractUserKey key),∀ e ∈ rest,numbers j ≤ numbers (extractUserKey e.1) := by
  intro j member e inside
  cases Option.some.inj member
  exact userLe (sorted e inside)

theorem aboveHead (sorted : ∀ e ∈ rest,key < e.1) (different : k ≠ extractUserKey key) (newest : Newest rest s k x) :
    numbers (extractUserKey key) < numbers k := by
  obtain ⟨e,inside,user⟩ := newestMember newest
  have le := userLe (sorted e inside)
  rw [user] at le
  exact lt_of_le_of_ne le fun same => different (numbersInj same.symm)

theorem pastHead (sorted : ∀ e ∈ rest,key < e.1)
    (below : ∀ j ∈ skip,numbers j ≤ numbers (extractUserKey key)) (different : k ≠ extractUserKey key) :
    (Newest rest s k x ∧ x ≠ [] ∧ ∀ j ∈ some (extractUserKey key),numbers j < numbers k) ↔
      Newest ((key,value) :: rest) s k x ∧ x ≠ [] ∧ ∀ j ∈ skip,numbers j < numbers k := by
  rw [newestOther (Or.inl (Ne.symm different))]
  constructor
  · intro ⟨newest,nonempty,_⟩
    exact ⟨newest,nonempty,fun j member => lt_of_le_of_lt (below j member) (aboveHead sorted different newest)⟩
  · intro ⟨newest,nonempty,_⟩
    refine ⟨newest,nonempty,fun j member => ?_⟩
    cases Option.some.inj member
    exact aboveHead sorted different newest

section
variable (sorted : entries.Pairwise fun a b => a.1 < b.1)
  (below : ∀ j ∈ skip,∀ e ∈ entries,numbers j ≤ numbers (extractUserKey e.1))
include sorted below

theorem memVisible (k x : Bytes) :
    (k,x) ∈ visible s skip entries ↔ Newest entries s k x ∧ x ≠ [] ∧ ∀ j ∈ skip,numbers j < numbers k := by
  induction entries generalizing skip with
  | nil =>
    simp only [visible,not_mem_nil,false_iff]
    rintro ⟨newest,_⟩
    obtain ⟨e,member,_⟩ := newestMember newest
    cases member
  | cons entry rest ih =>
    obtain ⟨key,value⟩ := entry
    obtain ⟨first,later⟩ := pairwise_cons.mp sorted
    have belowRest : ∀ j ∈ skip,∀ e ∈ rest,numbers j ≤ numbers (extractUserKey e.1) :=
      fun j member e inside => below j member e (mem_cons_of_mem _ inside)
    have belowKey := keyBelow first
    have skipKey : ∀ j ∈ skip,numbers j ≤ numbers (extractUserKey key) :=
      fun j member => below j member (key,value) mem_cons_self
    have notAbove : ¬ ∀ j ∈ some (extractUserKey key),numbers j < numbers (extractUserKey key) :=
      fun all => lt_irrefl _ (all _ rfl)
    simp only [visible]
    split
    · rename_i seen
      split
      · rename_i deleted
        rw [ih later belowKey]
        by_cases same : k = extractUserKey key
        · subst same
          rw [newestHead first seen,deleted]
          exact ⟨fun h => absurd h.2.2 notAbove,fun h => absurd h.1 h.2.1⟩
        · exact pastHead first skipKey same
      · rename_i kept
        split
        · rename_i skipped
          obtain ⟨j,member,le⟩ := skipped
          rw [ih later belowRest]
          by_cases same : k = extractUserKey key
          · subst same
            exact ⟨fun h => absurd (h.2.2 j member) (not_lt.mpr le),fun h => absurd (h.2.2 j member) (not_lt.mpr le)⟩
          · rw [newestOther (Or.inl (Ne.symm same))]
        · rename_i fresh
          rw [mem_cons,ih later belowKey,Prod.mk.injEq]
          by_cases same : k = extractUserKey key
          · subst same
            rw [newestHead first seen]
            constructor
            · intro h
              rcases h with ⟨_,rfl⟩ | h
              · exact ⟨rfl,kept,fun j member => not_le.mp fun le => fresh ⟨j,member,le⟩⟩
              · exact absurd h.2.2 notAbove
            · exact fun h => Or.inl ⟨rfl,h.1⟩
          · rw [← pastHead first skipKey same]
            simp [same]
    · rename_i hidden
      rw [ih later belowRest,newestOther (Or.inr hidden)]

theorem visibleSorted : (visible s skip entries).Pairwise fun a b => numbers a.1 < numbers b.1 := by
  induction entries generalizing skip with
  | nil => exact List.Pairwise.nil
  | cons entry rest ih =>
    obtain ⟨first,later⟩ := pairwise_cons.mp sorted
    have belowRest : ∀ j ∈ skip,∀ e ∈ rest,numbers j ≤ numbers (extractUserKey e.1) :=
      fun j member e inside => below j member e (mem_cons_of_mem _ inside)
    have belowKey := keyBelow first
    simp only [visible]
    split
    · split
      · exact ih later belowKey
      · split
        · exact ih later belowRest
        · refine pairwise_cons.mpr ⟨fun e member => ?_,ih later belowKey⟩
          exact ((memVisible later belowKey e.1 e.2).mp member).2.2 _ rfl
    · exact ih later belowRest

end

end Snapshot

/-! ### The loop reads the snapshot off -/

namespace UserIterator
variable {σ : Type} {it : ObLsmIterator σ InternalKey Bytes}

def Standing (it : ObLsmIterator σ InternalKey Bytes) (u : UserIterator σ) : List (Bytes × Bytes) → Prop
  | [] => u.valid = false
  | (k,x) :: rest => u.valid = true ∧ ∃ key tail,Yields it ((key,x) :: tail) u.iter ∧ extractUserKey key = k ∧
      rest = visible u.seq (some k) tail

def skipOf (skipping : Bool) (u : UserIterator σ) : Option Bytes := if skipping then some u.savedKey else none

variable {u : UserIterator σ} {key : InternalKey} {entries : List Entry}

theorem skipIff {skipping : Bool} : (skipping ∧ compareView (extractUserKey key) u.savedKey ≤ 0) ↔
      ∃ k ∈ skipOf skipping u,numbers (extractUserKey key) ≤ numbers k := by
  cases skipping <;> simp [skipOf,compareViewLe]

def Ends (it : ObLsmIterator σ InternalKey Bytes) (v : UserIterator σ) :
    (Bool × UserIterator σ) ⊕ Option (UserIterator σ) → Prop
  | .inl state => Loop.Stops (findStep it) state (some v)
  | .inr result => result = some v

theorem stopsOfEnds {state v} (ends : Ends it v (findStep it state)) :
    Loop.Stops (findStep it) state (some v) := by
  cases step : findStep it state with
  | inl next => exact Loop.stopsStep step (by simpa [step,Ends] using ends)
  | inr result =>
    have same : result = some v := by simpa [step,Ends] using ends
    exact Loop.stopsNow (step.trans (congrArg Sum.inr same))

theorem whileValidRuns (skipping : Bool) (u : UserIterator σ) (yields : Yields it entries u.iter) :
    ∃ v,Ends it v (whileValid it skipping u) ∧ Standing it v (visible u.seq (skipOf skipping u) entries) := by
  induction entries generalizing skipping u with
  | nil =>
    have invalid : it.valid u.iter = false := yields
    exact ⟨{u with savedKey := [],valid := false},by simp [whileValid,invalid,Ends],rfl⟩
  | cons entry rest ih =>
    obtain ⟨key,value⟩ := entry
    obtain ⟨valid,atKey,atValue,iter,moved,later⟩ := yields
    have goes : ∀ v,Ends it v (findStep it (skipping,u)) → Ends it v (whileValid it skipping u) := by
      intro v ends
      simpa [whileValid,valid,Ends] using stopsOfEnds ends
    -- what happens when the loop moves past this entry
    have moves : ∀ again saved,findStep it (skipping,u) = moveOn it again saved u →
        visible u.seq (skipOf skipping u) ((key,value) :: rest) = visible u.seq (skipOf again {u with savedKey := saved}) rest →
        ∃ v,Ends it v (whileValid it skipping u) ∧ Standing it v (visible u.seq (skipOf skipping u) ((key,value) :: rest)) := by
      intro again saved step same
      obtain ⟨v,ends,standing⟩ := ih again {u with iter,savedKey := saved} later
      refine ⟨v,goes v ?_,same ▸ standing⟩
      rw [step]
      simpa [moveOn,moved] using ends
    by_cases seen : extractSequence key ≤ u.seq
    · by_cases deleted : value = []
      · exact moves true (extractUserKey key) (by simp [findStep,atKey,atValue,seen,deleted])
          (by simp [visible,seen,deleted,skipOf])
      · by_cases skipped : skipping ∧ compareView (extractUserKey key) u.savedKey ≤ 0
        · exact moves skipping u.savedKey (by simp [findStep,atKey,atValue,seen,deleted,skipped])
            (by rw [visible,if_pos seen,if_neg deleted,if_pos (skipIff.mp skipped)])
        · refine ⟨{u with savedKey := [],valid := true},goes _ ?_,?_⟩
          · simp [findStep,atKey,atValue,seen,deleted,skipped,Ends]
          · rw [visible,if_pos seen,if_neg deleted,if_neg (skipIff.not.mp skipped)]
            exact ⟨rfl,key,rest,⟨valid,atKey,atValue,iter,moved,later⟩,rfl,rfl⟩
    · exact moves skipping u.savedKey (by simp [findStep,atKey,atValue,seen]) (by rw [visible,if_neg seen])

theorem findRuns (skipping : Bool) (u : UserIterator σ) (valid : it.valid u.iter = true)
    (yields : Yields it entries u.iter) :
    ∃ v,FindNextUserEntry it skipping u v ∧ Standing it v (visible u.seq (skipOf skipping u) entries) := by
  obtain ⟨v,ends,standing⟩ := whileValidRuns skipping u yields
  simp only [whileValid,valid,if_true,Ends] at ends
  exact ⟨v,ends,standing⟩

theorem nextRuns {x : Bytes} {tail : List Entry} (yields : Yields it ((key,x) :: tail) u.iter) :
    ∃ v,Next it u v ∧ Standing it v (visible u.seq (some (extractUserKey key)) tail) := by
  obtain ⟨_,atKey,_,iter,moved,later⟩ := yields
  cases valid : it.valid iter with
  | false =>
    cases tail with
    | nil => exact ⟨_,Next.last atKey moved valid,rfl⟩
    | cons e rest => simp [later.1] at valid
  | true =>
    obtain ⟨v,run,standing⟩ := findRuns true {u with iter,savedKey := extractUserKey key} valid later
    exact ⟨v,Next.found atKey moved valid run,standing⟩

theorem standingVisits {out} (standing : Standing it u out) : Visits it u out := by
  induction out generalizing u with
  | nil => exact Visits.done standing
  | cons row rest ih =>
    obtain ⟨k,x⟩ := row
    obtain ⟨valid,key,tail,yields,user,left⟩ := standing
    subst user left
    obtain ⟨v,next,standing'⟩ := nextRuns yields
    exact Visits.step valid (by simp [UserIterator.key,yields.2.1]) yields.2.2.1 next (ih standing')

theorem seekRuns (yields : Yields it entries (it.seekToFirst u.iter)) :
    ∃ v,SeekToFirst it u v ∧ Visits it v (visible u.seq none entries) := by
  cases valid : it.valid (it.seekToFirst u.iter) with
  | false =>
    cases entries with
    | nil => exact ⟨_,SeekToFirst.empty valid,Visits.done rfl⟩
    | cons e rest => simp [yields.1] at valid
  | true =>
    obtain ⟨v,run,standing⟩ := findRuns false {u with iter := it.seekToFirst u.iter} valid yields
    exact ⟨v,SeekToFirst.found valid run,standingVisits standing⟩

end UserIterator

/-! ### Over the merged children -/

theorem mergedExists {K V : Type} [LinearOrder K] {entries} (distinct : (entries.map fst).Nodup) :
    ∃ merged : List (K × V),merged.Perm entries ∧ merged.Pairwise fun a b => a.1 < b.1 := by
  let le : K × V → K × V → Bool := fun a b => decide (a.1 ≤ b.1)
  have total : ∀ a b,le a b || le b a := by
    intro a b
    simpa [le] using le_total a.1 b.1
  have trans : ∀ a b c,le a b → le b c → le a c := by
    intro a b c
    simpa [le] using le_trans
  have perm := mergeSort_perm entries le
  have ordered := pairwise_mergeSort trans total entries
  have apart : (entries.mergeSort le).Pairwise fun a b => a.1 ≠ b.1 :=
    pairwise_map.mp ((perm.map fst).nodup_iff.mpr distinct)
  refine ⟨entries.mergeSort le,perm,(ordered.and apart).imp ?_⟩
  intro a b both
  exact lt_of_le_of_ne (by simpa [le] using both.1) both.2

theorem newestPerm {a b s k x} (perm : a.Perm b) : Newest a s k x ↔ Newest b s k x := by
  simp only [Newest,perm.mem_iff]

theorem distinctKeys {σ : Type} {sources : List (List Entry × σ)}
    (sorted : ∀ source ∈ sources,source.1.Pairwise fun a b => compareInternal a.1 b.1 < 0)
    (apart : sources.Pairwise fun a b => ∀ e ∈ a.1,∀ f ∈ b.1,e.1 ≠ f.1) :
    ((sources.map fst).flatten.map fst).Nodup := by
  refine pairwise_map.mpr (pairwise_flatten.mpr ⟨fun l member => ?_,pairwise_map.mpr apart⟩)
  obtain ⟨source,inside,rfl⟩ := mem_map.mp member
  exact (sorted source inside).imp fun less => ((InternalKey.compareSign _ _).mp less).ne

theorem userIteratorVisits {σ : Type} (child : ObLsmIterator σ InternalKey Bytes) (sources : List (List Entry × σ))
    (holds : ∀ source ∈ sources,Yields child source.1 (child.seekToFirst source.2))
    (sorted : ∀ source ∈ sources,source.1.Pairwise fun a b => compareInternal a.1 b.1 < 0)
    (apart : sources.Pairwise fun a b => ∀ e ∈ a.1,∀ f ∈ b.1,e.1 ≠ f.1)
    (u : UserIterator (MergingIterator σ)) (merges : u.iter.children = sources.map snd) :
    ∃ v out,u.SeekToFirst (mergingIterator child compareInternal) v ∧
      UserIterator.Visits (mergingIterator child compareInternal) v out ∧
      out.Pairwise (fun a b => compareView a.1 b.1 < 0) ∧
      ∀ k x,(k,x) ∈ out ↔ Newest (sources.map fst).flatten u.seq k x ∧ x ≠ [] := by
  obtain ⟨merged,perm,order⟩ := mergedExists (distinctKeys sorted apart)
  let moved := sources.map fun source => (source.1,child.seekToFirst source.2)
  have children : Sources child moved := by
    constructor
    · intro source member
      obtain ⟨before,inside,rfl⟩ := mem_map.mp member
      exact holds before inside
    · intro source member
      obtain ⟨before,inside,rfl⟩ := mem_map.mp member
      exact (sorted before inside).imp fun less => (InternalKey.compareSign _ _).mp less
  have lists : moved.map fst = sources.map fst := by simp [moved,Function.comp_def]
  have states : moved.map snd = u.iter.children.map child.seekToFirst := by simp [moved,merges,Function.comp_def]
  have yields : Yields (mergingIterator child compareInternal) merged
      ((mergingIterator child compareInternal).seekToFirst u.iter) := by
    have result := mergingYields InternalKey.compareSign children order (lists ▸ perm)
    rwa [states] at result
  obtain ⟨v,seek,visits⟩ := UserIterator.seekRuns yields
  have below : ∀ j ∈ (none : Option Bytes),∀ e ∈ merged,numbers j ≤ numbers (extractUserKey e.1) := by simp
  refine ⟨v,_,seek,visits,(visibleSorted order below).imp fun less => (compareViewSign _ _).1.mpr less,fun k x => ?_⟩
  rw [memVisible order below,newestPerm perm]
  simp

def internalKey (user : Bytes) (sequence : Int64) : InternalKey :=
  ⟨user ++ Bytes.ofInt64 sequence,by simp [seqSize]⟩

def deletedLater : List (List Entry × ListIterator InternalKey Bytes) :=
  [([(internalKey [97] 3,[]),(internalKey [98] 2,[121])],⟨[(internalKey [97] 3,[]),(internalKey [98] 2,[121])],[]⟩),
   ([(internalKey [97] 1,[120])],⟨[(internalKey [97] 1,[120])],[]⟩)]

theorem deletedLaterVisits : ∃ v out,
    UserIterator.SeekToFirst (mergingIterator (listIterator InternalKey Bytes) compareInternal)
      {iter := ⟨deletedLater.map snd,none⟩,seq := 2} v ∧
    UserIterator.Visits (mergingIterator (listIterator InternalKey Bytes) compareInternal) v out ∧
    out.Pairwise (fun a b => compareView a.1 b.1 < 0) ∧
    ∀ k x,(k,x) ∈ out ↔ Newest (deletedLater.map fst).flatten 2 k x ∧ x ≠ [] := by
  refine userIteratorVisits (listIterator InternalKey Bytes) deletedLater ?_ (by decide) (by decide) _ rfl
  intro source member
  have entries : source.1 = source.2.entries := by
    simp only [deletedLater,mem_cons,not_mem_nil,or_false] at member
    rcases member with rfl | rfl <;> rfl
  rw [entries]
  exact listYields ⟨source.2.entries,source.2.entries⟩

end MiniOb.Oblsm
