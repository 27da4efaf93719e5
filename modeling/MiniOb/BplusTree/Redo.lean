import MiniOb.BplusTree.Calls
import MiniOb.BplusTree.Keys
import MiniOb.BplusTree.Steps

/-! The record that a call commits, redone on the pages before the call. -/
namespace MiniOb.BplusTree
open Prog PagedTree Relation List Bytes LogEntry KeyType

variable {K : Type}

/-! ### Bytes of keys and items -/

structure KeyOps.Codec (ops : KeyOps K) : Prop where
  length : ∀ k, (ops.encode k).length = ops.keyLength
  decode : ∀ k, ops.decode (ops.encode k) = k

theorem readItemsBytes {α : Type} {item} {bytes}
    (length : ∀ a, (bytes a).length = size) (back : ∀ a, item (bytes a) = a) (list : List α) :
    readItems size item list.length (list.flatMap bytes) = list := by
  induction list with
  | nil => rfl
  | cons a rest ih =>
    rw [length_cons,flatMap_cons,readItems,take_left' (length a),drop_left' (length a),back,ih]

theorem readPageNumBytes (page : PageNum) : readPageNum (ofInt32 page) = page := by
  have := readInt32Append page []
  rw [append_nil] at this
  simp [readPageNum,this]

theorem readRidBytes (rid : RID) : readRid (ridBytes rid) = rid := by
  have := readInt32Append rid.slotNum []
  rw [append_nil] at this
  simp [readRid,ridBytes,readInt32Append,this]

variable {ops : KeyOps K}

theorem leafItemsBytes (codec : ops.Codec) (items : List (K × RID)) :
    leafItemsOf ops items.length (leafBytes ops items) = items := by
  refine readItemsBytes (fun item => ?_) (fun item => ?_) items
  · rw [length_append,codec.length]
    rfl
  · rw [take_left' (codec.length _),drop_left' (codec.length _),codec.decode,readRidBytes]

theorem internalItemsBytes (codec : ops.Codec) (items : List (K × PageNum)) :
    internalItemsOf ops items.length (internalBytes ops items) = items := by
  refine readItemsBytes (fun item => ?_) (fun item => ?_) items
  · rw [length_append,codec.length]
    rfl
  · rw [take_left' (codec.length _),drop_left' (codec.length _),codec.decode,readPageNumBytes]

theorem KeyType.keyCodec (t : KeyType) : t.keyOps.Codec := by
  have attr : ∀ a, (t.encode a).length = t.length ∧ t.decode (t.encode a) = a := by
    cases t with
    | ints =>
      intro a
      have := readInt32Append a []
      rw [append_nil] at this
      exact ⟨rfl,by simp [decode,encode,this]⟩
    | chars length =>
      intro a
      refine ⟨?_,?_⟩
      · have := a.fits
        simp only [KeyType.encode,KeyType.length,length_append,length_replicate]
        omega
      · have same := ofBytesPadded a.text a.fits
        cases a
        simp only [decode,encode]
        generalize (CharValue.ofBytes _ _) = b at same ⊢
        cases b
        simpa using same
  refine ⟨fun key => ?_,fun key => ?_⟩
  · simp only [keyOps,length_append,(attr _).1]
    rfl
  · simp only [keyOps]
    rw [take_left' (attr _).1,drop_left' (attr _).1,(attr _).2,readRidBytes]

/-! ### Bytes of entries -/

theorem LogEntry.readSizedAppend {bytes} (small : bytes.length < 2 ^ 31) (rest : Bytes) :
    readSized (sized bytes ++ rest) = .ok (bytes,rest) := by
  have positive : ¬ Int32.ofNat bytes.length < 0 := by
    rw [Int32.lt_iff_toInt_lt,Int32.toInt_ofNat_of_lt small]
    simp
  simp only [readSized,sized,append_assoc,readInt32Append,if_neg positive,natOfOfNat small,readAppend rfl]

theorem headerOfBytes (header : IndexFileHeader) (rest : Bytes) :
    IndexFileHeader.ofBytes (header.bytes ++ rest) = some (header,rest) := by
  simp [IndexFileHeader.ofBytes,IndexFileHeader.bytes,append_assoc,readInt32Append]

namespace LogEntryHandler

def vectorBytes : LogEntryHandler → Bytes
  | internalCreateNewRoot _ _ key _ => key
  | internalUpdateKey _ _ key _ => key
  | nodeInsert _ _ items _ => items
  | nodeRemove _ _ items _ => items
  | _ => []

theorem readHeaderAppend (entry : LogEntryHandler) (rest : Bytes) :
    readHeader (entry.serialize ++ rest) = .ok (entry.typeIndex,entry.page,entry.serializeBody ++ rest) := by
  have inside : ¬ (entry.typeIndex < 0 ∨ 10 ≤ entry.typeIndex) := by cases entry <;> simp only [typeIndex] <;> decide
  simp only [readHeader,serialize,append_assoc,readInt32Append,if_neg inside]

theorem deserializeAppend {entry : LogEntryHandler} (small : entry.vectorBytes.length < 2 ^ 31) (rest : Bytes) :
    deserialize entry.typeIndex entry.page (entry.serializeBody ++ rest) = .ok (entry.forRedo,rest) := by
  cases entry
  case leafInitEmpty | internalInitEmpty => rfl
  case internalCreateNewRoot | internalUpdateKey | nodeInsert | nodeRemove =>
    dsimp only [vectorBytes] at small
    simp only [typeIndex,serializeBody,deserialize,append_assoc,readInt32Append,orInternal,bind,Except.bind,
      readSizedAppend small]
    rfl
  all_goals
    simp only [typeIndex,serializeBody,deserialize,headerOfBytes,readInt32Append,orInternal]
    rfl

end LogEntryHandler

namespace LogEntry

def Fits : LogEntry → Prop
  | internalCreateNewRoot _ _ key _ => key.length < 2 ^ 31
  | internalUpdateKey _ index key _ => index < 2 ^ 31 ∧ key.length < 2 ^ 31
  | nodeInsert _ index items itemNum => index < 2 ^ 31 ∧ itemNum < 2 ^ 31 ∧ items.length < 2 ^ 31
  | nodeRemove _ index items itemNum => index < 2 ^ 31 ∧ itemNum < 2 ^ 31 ∧ items.length < 2 ^ 31
  | _ => True

theorem forRedoPage (entry : LogEntry) : entry.forRedo.page = entry.page := by cases entry <;> rfl

theorem handlerType (entry : LogEntry) : entry.handler.typeIndex = entry.typeIndex := by cases entry <;> rfl

theorem mapPage {I J : Type} (f : I → J) (entry : LogEntry I) : (entry.map f).page = entry.page := by cases entry <;> rfl

theorem handlerPage (entry : LogEntry) : entry.handler.page = entry.page := mapPage _ entry

variable {entry : LogEntry}

theorem vectorFits (fits : entry.Fits) : entry.handler.vectorBytes.length < 2 ^ 31 := by
  cases entry with
  | internalCreateNewRoot page first key child => exact fits
  | internalUpdateKey page index key old => exact fits.2
  | nodeInsert page index items itemNum => exact fits.2.2
  | nodeRemove page index items itemNum => exact fits.2.2
  | _ => exact Nat.two_pow_pos _

theorem handlerForRedo (fits : entry.Fits) : entry.handler.forRedo.map natOf = entry.forRedo := by
  cases entry with
  | internalUpdateKey page index key old => simp only [handler,map,forRedo,natOfOfNat fits.1]
  | nodeInsert page index items itemNum => simp only [handler,map,forRedo,natOfOfNat fits.1,natOfOfNat fits.2.1]
  | nodeRemove page index items itemNum => simp only [handler,map,forRedo,natOfOfNat fits.1,natOfOfNat fits.2.1]
  | _ => rfl

theorem deserializeBodyAppend (fits : entry.Fits) (rest : Bytes) :
    deserializeBody entry.typeIndex entry.page (entry.handler.serializeBody ++ rest) = .ok (entry.forRedo,rest) := by
  have back := LogEntryHandler.deserializeAppend (vectorFits fits) rest
  rw [handlerType,handlerPage] at back
  simp only [deserializeBody,back,bind,Except.bind,handlerForRedo fits]

end LogEntry

/-! ### Redo of one entry -/

structure SeesFile (s : Handler K) (V : IndexFile K × Bool) : Prop where
  faults : s.mtr.faults = []
  disk : s.disk = V.1
  needLog : s.mtr.needLog = V.2

def IndexFile.pages (D : IndexFile K) : Pages K := ⟨D.header,D.node⟩

def IndexFile.withPages (D : IndexFile K) (P : Pages K) : IndexFile K := { D with header := P.header, node := P.node }

section
variable {D E : IndexFile K} {b : Bool}

theorem redoQuiet {f} (faults : ∀ s, (f s).mtr.faults = s.mtr.faults)
    (needLog : ∀ s, (f s).mtr.needLog = s.mtr.needLog) (disk : ∀ s, (f s).disk = s.disk) :
    Takes SeesFile (update f : TreeM K Unit) (D,b) (.ok ()) (D,b) :=
  takesUpdate fun s h => ⟨(faults s).trans h.faults,(disk s).trans h.disk,(needLog s).trans h.needLog⟩

theorem redoFault : Takes SeesFile (fault : TreeM K Unit) (D,b) (.ok ()) (D,b) := by
  intro s h
  simp only [fault,h.faults]
  exact ⟨trivial,h⟩

theorem redoHold (item : MemoItem) : Takes SeesFile (hold item : TreeM K Unit) (D,b) (.ok ()) (D,b) :=
  redoQuiet (fun _ => rfl) (fun _ => rfl) fun _ => rfl

theorem redoLetGo (item : MemoItem) : Takes SeesFile (letGo item : TreeM K Unit) (D,b) (.ok ()) (D,b) :=
  redoQuiet (fun _ => rfl) (fun _ => rfl) fun _ => rfl

theorem redoLatch (item : MemoItem) : Takes SeesFile (latch item : TreeM K Unit) (D,b) (.ok ()) (D,b) :=
  takesBind (redoHold item) (redoQuiet (fun _ => rfl) (fun _ => rfl) fun _ => rfl)

theorem redoGetPage (page : PageNum) : Takes SeesFile (getPage page : TreeM K Unit) (D,b) (.ok ()) (D,b) :=
  takesBind redoFault (redoLatch _)

theorem redoMarkDirty (page : PageNum) : Takes SeesFile (markDirty page : TreeM K Unit) (D,b) (.ok ()) (D,b) :=
  redoQuiet (fun _ => rfl) (fun _ => rfl) fun _ => rfl

theorem redoReleaseAll : Takes SeesFile (releaseAll : TreeM K Unit) (D,b) (.ok ()) (D,b) :=
  takesBindAny (fun _ h => ⟨_,rfl,h⟩) fun _ => redoQuiet (fun _ => rfl) (fun _ => rfl) fun _ => rfl

theorem redoAppendLogEntry {entry : LogEntry} :
    Takes SeesFile (appendLogEntry entry : TreeM K Unit) (D,false) (.ok ()) (D,false) := by
  refine takesUpdate fun s h => ?_
  rw [if_neg (by simp [h.needLog])]
  exact h

theorem redoGetNode (page : PageNum) :
    Takes SeesFile (getNode page : TreeM K (IndexNode K)) (D,b) (.ok (D.node page)) (D,b) :=
  takesRead fun _ h => by rw [h.disk]

theorem redoSetNode (page : PageNum) (x : IndexNode K) :
    Takes SeesFile (setNode page x : TreeM K Unit) (D,b) (.ok ()) (D.withPages (D.pages.set page x),b) :=
  takesUpdate fun _ h => ⟨h.faults,by rw [h.disk]; rfl,h.needLog⟩

variable {page parent : PageNum} {entry : LogEntry} {Q P : Pages K} {entries : List LogEntry} {lsn : LSN} {fuel : Nat}

theorem redoLeafView {next items} (node : D.node page = .leaf parent next items) :
    Takes SeesFile (LeafIndexNodeHandler.view page : TreeM K _) (D,b) (.ok (parent,next,items)) (D,b) := by
  refine takesBind (redoGetNode page) ?_
  rw [node]
  exact takesPure

theorem redoInternalView {items} (node : D.node page = .internal parent items) :
    Takes SeesFile (InternalIndexNodeHandler.view page : TreeM K _) (D,b) (.ok (parent,items)) (D,b) := by
  refine takesBind (redoGetNode page) ?_
  rw [node]
  exact takesPure

theorem redoUpdateRoot (root : PageNum) : Takes SeesFile (updateRootPageNumLocked root : TreeM K Unit) (D,false) (.ok ())
    ({ D with header := { D.header with rootPage := root } },false) := by
  have fetched : Takes SeesFile (insist (getPage firstIndexPage) : TreeM K Unit) (D,false) (.ok ()) (D,false) := by
    intro s h
    obtain ⟨value,seen⟩ := redoGetPage firstIndexPage s h
    have run : getPage firstIndexPage s = (.ok (),(getPage firstIndexPage s).2) := Prod.ext value rfl
    unfold insist
    rw [run]
    exact ⟨rfl,seen⟩
  refine takesBind fetched (takesBind (redoLatch _) (takesBindAny (fun s h => ⟨_,rfl,h⟩) fun header =>
    takesBind redoAppendLogEntry (takesBind (a := ()) (T := ({ D with header := { D.header with rootPage := root } },false))
      ?_ (redoMarkDirty _))))
  exact takesUpdate fun _ h => ⟨h.faults,by rw [h.disk],h.needLog⟩

theorem redoEntryRun (codec : ops.Codec) (described : entry.Describes ops D.pages Q) :
    Takes SeesFile (redoEntry ops entry.forRedo) (D,false) (.ok ()) (D.withPages Q,false) := by
  cases entry with
  | initHeaderPage page header =>
    subst described
    refine takesBind (a := ()) (T := ({ D with header := header },false)) ?_ (redoMarkDirty _)
    exact takesUpdate fun _ h => ⟨h.faults,by rw [h.disk],h.needLog⟩
  | updateRootPage page root old =>
    subst described
    exact redoUpdateRoot root
  | setParentPage page parent old =>
    subst described
    exact takesBind (redoGetNode page) (takesBind redoAppendLogEntry (redoSetNode page _))
  | leafInitEmpty page =>
    subst described
    exact takesBind redoAppendLogEntry (redoSetNode page _)
  | leafSetNextPage page next old =>
    obtain ⟨parent,before,items,node,rfl⟩ := described
    exact takesBind (redoLeafView node) (takesBind redoAppendLogEntry (redoSetNode page _))
  | internalInitEmpty page =>
    subst described
    exact takesBind redoAppendLogEntry (redoSetNode page _)
  | internalCreateNewRoot page first key child =>
    obtain ⟨parent,items,k,node,rfl,rfl⟩ := described
    refine takesBind (redoInternalView node) (takesBind redoAppendLogEntry ?_)
    rw [codec.decode]
    exact redoSetNode page _
  | internalUpdateKey page index key old =>
    obtain ⟨parent,items,k,item,node,found,rfl,rfl⟩ := described
    refine takesBind (redoInternalView node) ?_
    dsimp only
    rw [found,codec.decode]
    exact takesBind redoAppendLogEntry (redoSetNode page _)
  | nodeInsert page index bytes num =>
    refine takesBind (redoGetNode page) ?_
    rcases described with ⟨parent,next,items,new,node,rfl,rfl,rfl⟩ | ⟨parent,items,new,node,rfl,rfl,rfl⟩
    · rw [show D.node page = _ from node,leafItemsBytes codec]
      exact redoSetNode page _
    · rw [show D.node page = _ from node,internalItemsBytes codec]
      exact redoSetNode page _
  | nodeRemove page index bytes num =>
    refine takesBind (redoGetNode page) ?_
    rcases described with ⟨parent,next,items,node,rfl⟩ | ⟨parent,items,node,rfl⟩
    · rw [show D.node page = _ from node]
      exact redoSetNode page _
    · rw [show D.node page = _ from node]
      exact redoSetNode page _

/-! ### Redo of a record -/

def Replays (ops : KeyOps K) : List LogEntry → Pages K → Pages K → Prop
  | [],P,Q => Q = P
  | entry :: rest,P,Q => ∃ M, entry.Describes ops P M ∧ Replays ops rest M Q

theorem Replays.append {M} (first : Replays ops entries P M)
    (last : entry.Describes ops M Q) : Replays ops (entries ++ [entry]) P Q := by
  induction entries generalizing P with
  | nil =>
    rw [show M = P from first] at last
    exact ⟨Q,last,rfl⟩
  | cons e rest ih =>
    obtain ⟨N,here,later⟩ := first
    exact ⟨N,here,ih later⟩

theorem Replays.described (replays : Replays ops entries P Q) :
    ∀ entry ∈ entries, ∃ M N, entry.Describes ops M N := by
  induction entries generalizing P with
  | nil => simp
  | cons e rest ih =>
    obtain ⟨N,here,later⟩ := replays
    intro entry inside
    rcases mem_cons.mp inside with rfl | tail
    · exact ⟨P,N,here⟩
    · exact ih later entry tail

theorem fromBufferRun (fits : entry.Fits) (rest : Bytes) :
    Takes SeesFile (fromBuffer (entry.serialize ++ rest)) (D,b) (.ok (entry.forRedo,rest)) (D,b) := by
  unfold fromBuffer
  rw [serialize,LogEntryHandler.readHeaderAppend,handlerType,handlerPage]
  refine takesBind takesPure (takesBind redoFault (takesBind (redoHold _) ?_))
  rw [deserializeBodyAppend fits]
  exact takesPure

theorem redoStepRun (codec : ops.Codec) (rest : Bytes)
    (described : entry.Describes ops D.pages Q) (fits : entry.Fits) (older : D.lsn entry.page < lsn) :
    Takes SeesFile (redoStep ops lsn (entry.serialize ++ rest)) (D,false) (.ok (some (rest,[entry.page])))
      (D.withPages Q,false) := by
  refine takesBind (takesAttempt (fromBufferRun fits rest)) (takesBind (takesRead fun _ h => by rw [h.disk]) ?_)
  rw [if_neg (by rw [forRedoPage]; exact not_le.mpr older),forRedoPage]
  exact takesBind (takesAttempt (redoEntryRun codec described)) takesPure

theorem redoStepSkip (rest : Bytes) (fits : entry.Fits) (newer : lsn ≤ D.lsn entry.page) :
    Takes SeesFile (redoStep ops lsn (entry.serialize ++ rest)) (D,b) (.ok (some (rest,[]))) (D,b) := by
  refine takesBind (takesAttempt (fromBufferRun fits rest)) (takesBind (takesRead fun _ h => by rw [h.disk]) ?_)
  rw [if_pos (by rw [forRedoPage]; exact newer)]
  exact takesBind (redoLetGo _) takesPure

theorem redoLoopEnd (fuel : Nat) (frames : List PageNum) :
    (redoLoop ops lsn fuel [] frames : TreeM K _) = pure (some frames) := by
  cases fuel <;> rfl

theorem redoLoopNext {buffer rest : Bytes}
    {r} {U V W} (filled : buffer ≠ [])
    (step : Takes SeesFile (redoStep ops lsn buffer) U (.ok (some (rest,pages))) V)
    (later : Takes SeesFile (redoLoop ops lsn fuel rest (frames ++ pages)) V r W) :
    Takes SeesFile (redoLoop ops lsn (fuel + 1) buffer frames) U r W := by
  rw [redoLoop,if_neg filled]
  exact takesBind step later

theorem serializeFilled (entry : LogEntry) (rest : Bytes) : entry.serialize ++ rest ≠ [] :=
  ne_nil_of_length_pos (by rw [length_append,serializeLength]; omega)

theorem redoLoopRun (codec : ops.Codec) : ∀ {entries : List LogEntry} {D : IndexFile K} {Q : Pages K},
    Replays ops entries D.pages Q → (∀ entry ∈ entries, entry.Fits) → (∀ entry ∈ entries, D.lsn entry.page < lsn) →
    ∀ {fuel : Nat} (frames : List PageNum), entries.length ≤ fuel →
    Takes SeesFile (redoLoop ops lsn fuel (entries.flatMap serialize) frames) (D,false)
      (.ok (some (frames ++ entries.map LogEntry.page))) (D.withPages Q,false) := by
  intro entries
  induction entries with
  | nil =>
    intro D Q replays _ _ fuel frames _
    rw [show Q = D.pages from replays,map_nil,append_nil,flatMap_nil,redoLoopEnd]
    exact takesPure
  | cons entry rest ih =>
    intro D Q replays fits older fuel frames enough
    rw [length_cons] at enough
    obtain ⟨fuel,rfl⟩ : ∃ f, fuel = f + 1 := ⟨fuel - 1,by omega⟩
    obtain ⟨M,described,later⟩ := replays
    rw [flatMap_cons,map_cons,append_cons]
    refine redoLoopNext (serializeFilled _ _)
      (redoStepRun codec _ described (fits entry mem_cons_self) (older entry mem_cons_self)) ?_
    exact ih (D := D.withPages M) later (fun e inside => fits e (mem_cons_of_mem _ inside))
      (fun e inside => older e (mem_cons_of_mem _ inside)) _ (by omega)

variable (ops) in
theorem redoLoopAgain (fits : ∀ entry ∈ entries, entry.Fits)
    (newer : ∀ entry ∈ entries, lsn ≤ D.lsn entry.page) (frames : List PageNum) (enough : entries.length ≤ fuel) :
    Takes SeesFile (redoLoop ops lsn fuel (entries.flatMap serialize) frames) (D,b) (.ok (some frames)) (D,b) := by
  induction entries generalizing fuel with
  | nil =>
    rw [flatMap_nil,redoLoopEnd]
    exact takesPure
  | cons entry rest ih =>
    rw [length_cons] at enough
    obtain ⟨fuel,rfl⟩ : ∃ f, fuel = f + 1 := ⟨fuel - 1,by omega⟩
    rw [flatMap_cons]
    refine redoLoopNext (serializeFilled _ _)
      (redoStepSkip _ (fits entry mem_cons_self) (newer entry mem_cons_self)) ?_
    rw [append_nil]
    exact ih (fun e inside => fits e (mem_cons_of_mem _ inside))
      (fun e inside => newer e (mem_cons_of_mem _ inside)) (by omega)

def stamp (lsn : LSN) (pages : List PageNum) (old : PageNum → LSN) : PageNum → LSN :=
  fun p => if p ∈ pages then lsn else old p

theorem stampNil (lsn : LSN) (old : PageNum → LSN) : stamp lsn [] old = old := by
  funext p
  simp [stamp]

theorem redoSetLsnAll (lsn : LSN) (pages : List PageNum) : Takes SeesFile (setLsnAll lsn pages : TreeM K Unit) (D,b) (.ok ())
    ({ D with lsn := stamp lsn pages D.lsn },b) := by
  induction pages generalizing D with
  | nil => exact takesPure
  | cons page rest ih =>
    have first : Takes SeesFile (setLsn lsn page : TreeM K Unit) (D,b) (.ok ())
        ({ D with lsn := Function.update D.lsn page lsn },b) :=
      takesUpdate fun _ h => ⟨h.faults,by rw [h.disk],h.needLog⟩
    have same : stamp lsn (page :: rest) D.lsn = stamp lsn rest (Function.update D.lsn page lsn) := by
      funext p
      by_cases later : p ∈ rest
      · simp [stamp,later]
      · by_cases here : p = page <;> simp [stamp,later,here]
    rw [same]
    exact takesBind first ih

theorem redoUnpinAll (pages : List PageNum) : Takes SeesFile (unpinAll pages : TreeM K Unit) (D,b) (.ok ()) (D,b) := by
  induction pages with
  | nil => exact takesPure
  | cons page rest ih => exact takesBind (redoLetGo _) ih

theorem redoRun (bufferPoolId : Int32) {frames}
    (loop : Takes SeesFile (redoLoop ops lsn (entries.flatMap serialize).length
      (entries.flatMap serialize) []) (D,false) (.ok (some frames)) (E,false)) :
    Takes SeesFile (redo ops lsn (payloadOf bufferPoolId entries)) (D,b) (.ok ())
      ({ E with lsn := stamp lsn frames E.lsn },true) := by
  have setNeedLog : ∀ {D : IndexFile K} {b : Bool} (c : Bool), Takes SeesFile
      (update fun s => { s with mtr := { s.mtr with needLog := c } } : TreeM K Unit) (D,b) (.ok ()) (D,c) :=
    fun c => takesUpdate fun _ h => ⟨h.faults,h.disk,rfl⟩
  unfold redo payloadOf
  rw [readInt32Append]
  refine takesBind redoFault (takesBind (setNeedLog false) (takesBind loop (takesBind (redoSetLsnAll lsn frames) ?_)))
  exact takesBind (redoUnpinAll frames) (takesBind (setNeedLog true) redoReleaseAll)

end

/-! ### The record of a call -/

section
variable {n : Nat} {s t u : Handler K}

variable {entry : LogEntry} {P : Pages K} {log : List LogRecord}

theorem weightMem {entries} (inside : entry ∈ entries) : entry.serialize.length ≤ weight entries := by
  obtain ⟨before,after,rfl⟩ := append_of_mem inside
  simp only [weight,flatMap_append,flatMap_cons,length_append]
  omega

theorem serializeCount (entries : List LogEntry) : entries.length ≤ (entries.flatMap serialize).length := by
  induction entries with
  | nil => exact Nat.zero_le _
  | cons entry rest ih =>
    rw [flatMap_cons,length_append,length_cons,serializeLength]
    omega

theorem pathReplays (path : ReflTransGen (Step ops n) s t) : Grows s t ∧ ∃ new, t.mtr.entries = s.mtr.entries ++ new ∧
    Replays ops new s.pages t.pages ∧ ∀ entry ∈ new, entry.extent ≤ n + weight t.mtr.entries + 1 := by
  induction path with
  | refl => exact ⟨Grows.refl s,[],by simp,rfl,by simp⟩
  | tail _ step ih =>
    obtain ⟨grows,new,entries,replays,bounds⟩ := ih
    cases step with
    | quiet grows' pages same => exact ⟨grows.trans grows',new,same.trans entries,pages ▸ replays,same ▸ bounds⟩
    | change grows' entry described logged bound =>
      refine ⟨grows.trans grows',new ++ [entry],by rw [logged,entries,append_assoc],replays.append described,?_⟩
      intro e inside
      rw [logged,weightAppend]
      rcases mem_append.mp inside with before | last
      · have := bounds e before
        omega
      · rw [mem_singleton.mp last]
        omega

theorem entryFits {Q} (described : entry.Describes ops P Q) (extent : entry.extent < 2 ^ 31)
    (short : entry.serialize.length < 2 ^ 31) : entry.Fits := by
  have vector : entry.handler.vectorBytes.length < 2 ^ 31 := by
    refine lt_of_le_of_lt ?_ short
    rw [serializeLength]
    cases entry <;> simp [handler,LogEntry.map,LogEntryHandler.serializeBody,LogEntryHandler.vectorBytes,sized] <;> omega
  cases entry with
  | internalCreateNewRoot page first key child => exact vector
  | internalUpdateKey page index key old => exact ⟨extent,vector⟩
  | nodeInsert page index bytes num =>
    have count : num ≤ bytes.length := by
      rcases described with ⟨_,_,_,new,-,rfl,rfl,-⟩ | ⟨_,_,new,-,rfl,rfl,-⟩
      · exact leafBytesLength ops new
      · exact internalBytesLength ops new
    exact ⟨extent,count.trans_lt vector,vector⟩
  | nodeRemove page index bytes num =>
    obtain ⟨first,second⟩ := max_lt_iff.mp (show max index num < 2 ^ 31 from extent)
    exact ⟨first,second,vector⟩
  | _ => trivial

def At (P : Pages K) (log : List LogRecord) (s : Handler K) : Prop := s.pages = P ∧ s.log = log

theorem keepsSetLsnAll (lsn : LSN) (pages : List PageNum) :
    Keeps (At P log) (setLsnAll lsn pages : TreeM K Unit) := by
  induction pages with
  | nil => exact keepsPure
  | cons page rest ih => exact keepsBind (keepsUpdate fun _ h => h) fun _ => ih

theorem keepsFaultAt : Keeps (At P log) (fault : TreeM K Unit) := by
  intro s h
  unfold fault
  split <;> exact h

theorem commitRun (u : Handler K) : (commit u).2.pages = u.pages ∧ ((commit u).2.log = u.log ∨
    ∃ bufferPoolId, (commit u).2.log = u.log ++ [.bplusTree (u.currentLsn + 1) (payloadOf bufferPoolId u.mtr.entries)] ∧
      (payloadOf bufferPoolId u.mtr.entries).length ≤ maxPayloadSize) := by
  have lsn : ∀ t, (fault u).2 = t → t.currentLsn = u.currentLsn := by
    rintro t rfl
    unfold fault
    split <;> rfl
  have failed := keepsFaultAt (K := K) u ⟨rfl,rfl⟩
  simp only [commit,bindApply,readApply]
  by_cases empty : u.mtr.entries = []
  · rw [if_pos empty]
    exact ⟨rfl,.inl rfl⟩
  · rw [if_neg empty]
    simp only [bindApply,readApply]
    rcases ran : (fault : TreeM K Unit) u with ⟨r,t⟩
    rw [ran] at failed lsn
    have same := lsn t rfl
    cases r with
    | error e => exact ⟨failed.1,.inl failed.2⟩
    | ok _ =>
      by_cases long : maxPayloadSize < (payloadOf u.disk.file.bufferPoolId u.mtr.entries).length
      · rw [if_pos long]
        exact ⟨failed.1,.inl failed.2⟩
      · rw [if_neg long]
        have tail : Keeps (At u.pages (u.log ++ [.bplusTree (u.currentLsn + 1)
            (payloadOf u.disk.file.bufferPoolId u.mtr.entries)])) (do
              setLsnAll (t.currentLsn + 1) (u.mtr.entries.map page)
              update fun s => { s with mtr := { s.mtr with entries := [] } } : TreeM K Unit) :=
          keepsBind (keepsSetLsnAll _ _) fun _ => keepsUpdate fun _ h => h
        have last := tail (appendLog (.bplusTree · (payloadOf u.disk.file.bufferPoolId u.mtr.entries)) t).2
          ⟨failed.1,by rw [← same,← failed.2]; rfl⟩
        exact ⟨last.1,.inr ⟨_,last.2,not_lt.mp long⟩⟩

def Freed (u t : Handler K) : Prop := t.pages = u.pages ∧ ∃ more, t.log = u.log ++ more ∧
  ∀ record ∈ more, ∃ lsn page, record = .deallocatePage lsn page

theorem keepsFreedDispose (page : PageNum) : Keeps (Freed u) (bufferPoolDisposePage page : TreeM K Unit) := by
  refine keepsIte (fun _ => keepsExit) fun _ => ?_
  rintro t ⟨pages,more,log,all⟩
  refine ⟨pages,more ++ [.deallocatePage (t.currentLsn + 1) page],?_,?_⟩
  · rw [← append_assoc,← log]
    rfl
  · intro record inside
    rcases mem_append.mp inside with old | last
    · exact all record old
    · exact ⟨_,_,mem_singleton.mp last⟩

theorem keepsFreedRelease : Keeps (Freed u) (release : TreeM K Unit) := by
  have disposeAll : ∀ pages, Keeps (Freed u) (disposePages pages : TreeM K Unit) := by
    intro pages
    induction pages with
    | nil => exact keepsPure
    | cons page rest ih => exact keepsBind (keepsIgnore (keepsFreedDispose page)) fun _ => ih
  exact keepsBind (keepsBind keepsRead fun _ => keepsUpdate fun _ h => h) fun _ => keepsBind keepsRead fun _ =>
    keepsBind (disposeAll _) fun _ => keepsUpdate fun _ h => h

theorem callRecord {body} (paced : Paced ops n body) (sizes : ∀ p, (s.disk.node p).size ≤ n)
    (ok : call ops body s = (.ok (),t)) : ∃ u, Reached ops n s.beginMtr u ∧ t.pages = u.pages ∧
      ∀ lsn payload, .bplusTree lsn payload ∈ t.log.drop s.log.length → lsn = u.currentLsn + 1 ∧
        ∃ bufferPoolId, payload = payloadOf bufferPoolId u.mtr.entries ∧ payload.length ≤ maxPayloadSize := by
  have reached := paced s.beginMtr s.beginMtr ⟨rfl,fun p => (sizes p).trans (Nat.le_add_right _ _),.refl⟩
  unfold call at ok
  rcases ran : body s.beginMtr with ⟨result,u⟩
  rw [ran] at ok reached
  refine ⟨u,reached,?_⟩
  dsimp only at ok
  rcases ended : finish ops result u with ⟨r,v⟩
  rw [ended] at ok
  cases r with
  | error e => cases ok
  | ok _ =>
  obtain ⟨rfl,rfl⟩ := Prod.mk.inj ok
  -- the destructors: commit, whatever it returns, then release
  have last : v = (release (ignoreRc commit u).2).2 := by
    rw [finish,bindApply] at ended
    rcases committed : ignoreRc commit u with ⟨r',w⟩
    rw [committed] at ended
    cases r' with
    | ok _ => exact (congrArg Prod.snd ended).symm
    | error e => cases ended
  have committed : (ignoreRc commit u).2 = (commit u).2 := by
    unfold ignoreRc ignore
    rcases commit u with ⟨r,v⟩
    cases r with
    | ok _ => rfl
    | error e =>
      dsimp only
      split <;> rfl
  obtain ⟨pages,log⟩ := commitRun u
  obtain ⟨pages',more,log',freed⟩ := keepsFreedRelease (u := (commit u).2) (commit u).2 ⟨rfl,[],by simp,by simp⟩
  rw [last,committed,log',pages',pages]
  refine ⟨rfl,fun lsn payload inside => ?_⟩
  obtain ⟨allocated,log₀,allocations⟩ := (pathReplays reached.path).1.log
  have start : s.beginMtr.log = s.log := rfl
  rcases log with same | ⟨bufferPoolId,same,short⟩
  · rw [same,log₀,start,append_assoc,drop_left] at inside
    rcases mem_append.mp inside with old | last
    · obtain ⟨_,_,wrong⟩ := allocations _ old
      cases wrong
    · obtain ⟨_,_,wrong⟩ := freed _ last
      cases wrong
  · rw [same,log₀,start,append_assoc,append_assoc,drop_left] at inside
    rcases mem_append.mp inside with old | later
    · obtain ⟨_,_,wrong⟩ := allocations _ old
      cases wrong
    · rcases mem_append.mp later with here | last
      · cases mem_singleton.mp here
        exact ⟨rfl,bufferPoolId,rfl,short⟩
      · obtain ⟨_,_,wrong⟩ := freed _ last
        cases wrong

end

section
variable {A : Type} {ops : KeyOps (IndexKey A)} {s t : Handler (IndexKey A)}

theorem callOfRun {call : Call A} (ok : call.run ops s = (.ok (),t)) : ∃ s', s'.disk = s.disk ∧ s'.log = s.log ∧
    s'.currentLsn = s.currentLsn ∧ BplusTree.call ops (call.body ops) s' = (.ok (),t) := by
  have made : ∀ {key : A} {rid : RID} {body : IndexKey A → TreeM (IndexKey A) Unit},
      (makeKey key rid >>= fun k => BplusTree.call ops (body k)) s = (.ok (),t) → ∃ s', s'.disk = s.disk ∧ s'.log = s.log ∧
        s'.currentLsn = s.currentLsn ∧ BplusTree.call ops (body ⟨key,rid⟩) s' = (.ok (),t) := by
    intro key rid body ran
    simp only [makeKey,bindApply,fault] at ran
    rcases faults : s.mtr.faults with _ | ⟨_ | code,rest⟩
    · rw [faults] at ran
      exact ⟨s,rfl,rfl,rfl,ran⟩
    · rw [faults] at ran
      exact ⟨{ s with mtr := { s.mtr with faults := rest } },rfl,rfl,rfl,ran⟩
    · rw [faults] at ran
      cases ran
  cases call with
  | insert userKey rid => exact made ok
  | delete userKey rid => exact made ok

theorem pacedCall {n} (call : Call A) : Paced ops n (call.body ops) := by
  cases call with
  | insert userKey rid => exact pacedInsertBody _ _
  | delete userKey rid => exact pacedDeleteBody _

theorem redoRepeatsCall (codec : ops.Codec) (call : Call A) (fit : ∀ p, (s.disk.node p).size ≤ bpPageDataSize)
    (ok : call.run ops s = (.ok (),t)) {lsn : LSN} {payload : Bytes}
    (committed : .bplusTree lsn payload ∈ t.log.drop s.log.length) {r : Handler (IndexKey A)} (before : r.pages = s.pages)
    (stamped : ∀ p, r.disk.lsn p ≤ s.currentLsn) (faults : r.mtr.faults = []) :
    ∃ first second, redo ops lsn payload r = (.ok (),first) ∧ first.disk.node = t.disk.node ∧
      first.disk.header = t.disk.header ∧ redo ops lsn payload first = (.ok (),second) ∧ second.disk = first.disk := by
  obtain ⟨s',disk,log,currentLsn,ran⟩ := callOfRun ok
  obtain ⟨u,reached,pages,record⟩ := callRecord (pacedCall call) (disk ▸ fit) ran
  obtain ⟨rfl,bufferPoolId,rfl,short⟩ := record lsn payload (by rw [log]; exact committed)
  obtain ⟨grows,new,entries,replays,bounds⟩ := pathReplays reached.path
  rw [show s'.beginMtr.mtr.entries = [] from rfl,nil_append] at entries
  rw [← entries] at replays bounds
  have length : weight u.mtr.entries + 4 ≤ maxPayloadSize := by
    rw [payloadOf,length_append,lengthOfInt32] at short
    rw [weight]
    omega
  have fits : ∀ entry ∈ u.mtr.entries, entry.Fits := by
    intro entry inside
    obtain ⟨_,_,described⟩ := replays.described entry inside
    have extent := bounds entry inside
    have size := weightMem inside
    simp only [bpPageDataSize,bpPageSize,maxPayloadSize] at extent length
    exact entryFits described (by omega) (by omega)
  have enough := serializeCount u.mtr.entries
  have start : r.disk.pages = s'.beginMtr.pages := by
    rw [show r.disk.pages = r.pages from rfl,before,Handler.pages,← disk]
    rfl
  have older : ∀ entry ∈ u.mtr.entries, r.disk.lsn entry.page < u.currentLsn + 1 := by
    intro entry _
    have := grows.lsn
    rw [show s'.beginMtr.currentLsn = s.currentLsn from currentLsn] at this
    exact Nat.lt_succ_of_le ((stamped _).trans this)
  obtain ⟨value,seen⟩ := redoRun bufferPoolId (b := r.mtr.needLog)
    (redoLoopRun codec (start ▸ replays) fits older [] enough) r ⟨faults,rfl,rfl⟩
  have newer : ∀ entry ∈ u.mtr.entries, u.currentLsn + 1 ≤ (redo ops (u.currentLsn + 1)
      (payloadOf bufferPoolId u.mtr.entries) r).2.disk.lsn entry.page := by
    intro entry inside
    rw [seen.disk]
    simp only [stamp,nil_append,if_pos (mem_map_of_mem inside),le_refl]
  obtain ⟨value',seen'⟩ := redoRun bufferPoolId (b := true)
    (redoLoopAgain ops fits newer [] enough) _ ⟨seen.faults,rfl,seen.needLog⟩
  refine ⟨_,_,Prod.ext value rfl,?_,?_,Prod.ext value' rfl,?_⟩
  · rw [seen.disk]
    exact congrArg Pages.node pages.symm
  · rw [seen.disk]
    exact congrArg Pages.header pages.symm
  · rw [seen'.disk,stampNil]

end

def newInts : Handler (IndexKey ints.Attr) := (create ints.keyOps 1 4 6 6 (emptyFile 1)).2

def insertSeven : Call ints.Attr := .insert 7 ⟨1,0⟩

def sevenRecord : Bytes := payloadOf 1 [.leafInitEmpty 2,
  .nodeInsert 2 0 (leafBytes ints.keyOps [(⟨7,⟨1,0⟩⟩,⟨1,0⟩)]) 1,.updateRootPage 1 2 (-1)]

theorem newIntsBlank (p : PageNum) : (newInts.disk.node p).size = 0 ∧ newInts.disk.lsn p = 0 := by
  have node : newInts.disk.node = Function.update (fun _ => .cleared) 1 .cleared := rfl
  have lsn : newInts.disk.lsn = Function.update (fun _ => 0) 1 0 := rfl
  rw [node,lsn]
  by_cases first : p = 1
  · subst first
    simp only [Function.update_self]
    exact ⟨rfl,trivial⟩
  · simp only [Function.update_of_ne first]
    exact ⟨rfl,trivial⟩

theorem sevenRedone : (insertSeven.run ints.keyOps newInts).2.disk.header.rootPage = 2 ∧
    ∃ first, redo ints.keyOps 3 sevenRecord newInts = (.ok (),first) ∧
      first.disk.node = (insertSeven.run ints.keyOps newInts).2.disk.node := by
  have fit : ∀ p, (newInts.disk.node p).size ≤ bpPageDataSize := fun p => (newIntsBlank p).1 ▸ Nat.zero_le _
  have stamped : ∀ p, newInts.disk.lsn p ≤ newInts.currentLsn := fun p => (newIntsBlank p).2 ▸ Nat.zero_le _
  have committed : .bplusTree 3 sevenRecord ∈
      (insertSeven.run ints.keyOps newInts).2.log.drop newInts.log.length := by decide +kernel
  obtain ⟨first,_,run,node,-⟩ := redoRepeatsCall (r := newInts) ints.keyCodec insertSeven fit
    (Prod.ext (by decide +kernel) rfl) committed rfl stamped (by decide +kernel)
  exact ⟨by decide +kernel,first,run,node⟩

end MiniOb.BplusTree
