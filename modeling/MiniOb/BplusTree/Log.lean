import MiniOb.BplusTree.Handler

/-! `bplus_tree_log_entry.cpp` and `bplus_tree_log.cpp`: the bytes of log entries, redo and
rollback of one entry, and the mini transaction that commits or rolls back a call. -/
namespace MiniOb.BplusTree
open Prog InternalIndexNodeHandler Bytes

variable {K : Type}

/-! ### Bytes of an entry -/

namespace IndexFileHeader

def bytes (header : IndexFileHeader) : Bytes :=
  ofInt32 header.rootPage ++ ofInt32 header.internalMaxSize ++
  ofInt32 header.leafMaxSize ++ ofInt32 header.attrLength ++
  ofInt32 header.keyLength ++ ofInt32 header.attrType

def ofBytes (buffer : Bytes) : Option (IndexFileHeader × Bytes) := do
  let (rootPage,buffer) ← readInt32 buffer
  let (internalMaxSize,buffer) ← readInt32 buffer
  let (leafMaxSize,buffer) ← readInt32 buffer
  let (attrLength,buffer) ← readInt32 buffer
  let (keyLength,buffer) ← readInt32 buffer
  let (attrType,buffer) ← readInt32 buffer
  some (⟨rootPage,internalMaxSize,leafMaxSize,attrLength,keyLength,attrType⟩,buffer)

end IndexFileHeader

namespace LogEntry
variable {I J : Type}

def typeIndex : LogEntry I → Int32
  | initHeaderPage _ _ => 0
  | updateRootPage _ _ _ => 1
  | setParentPage _ _ _ => 2
  | leafInitEmpty _ => 3
  | leafSetNextPage _ _ _ => 4
  | internalInitEmpty _ => 5
  | internalCreateNewRoot _ _ _ _ => 6
  | internalUpdateKey _ _ _ _ => 7
  | nodeInsert _ _ _ _ => 8
  | nodeRemove _ _ _ _ => 9

def map (f : I → J) : LogEntry I → LogEntry J
  | initHeaderPage page header => initHeaderPage page header
  | updateRootPage page root old => updateRootPage page root old
  | setParentPage page parent old => setParentPage page parent old
  | leafInitEmpty page => leafInitEmpty page
  | leafSetNextPage page next old => leafSetNextPage page next old
  | internalInitEmpty page => internalInitEmpty page
  | internalCreateNewRoot page first key child => internalCreateNewRoot page first key child
  | internalUpdateKey page index key old => internalUpdateKey page (f index) key old
  | nodeInsert page index items itemNum => nodeInsert page (f index) items (f itemNum)
  | nodeRemove page index items itemNum => nodeRemove page (f index) items (f itemNum)

/-- What redo reads of an entry; what only rollback uses comes back as `-1` or empty. -/
def forRedo : LogEntry I → LogEntry I
  | updateRootPage page root _ => updateRootPage page root (-1)
  | setParentPage page parent _ => setParentPage page parent (-1)
  | leafSetNextPage page next _ => leafSetNextPage page next (-1)
  | internalUpdateKey page index key _ => internalUpdateKey page index key []
  | entry => entry

def sized (bytes : Bytes) : Bytes := ofInt32 (Int32.ofNat bytes.length) ++ bytes

/-- A vector is constructed with the length read; a negative length ends the process. -/
def readSized (buffer : Bytes) : Except Exit (Bytes × Bytes) :=
  match readInt32 buffer with
  | none => .error (.rc .internal)
  | some (length,buffer) =>
      if length < 0 then .error .abort
      else match read (natOf length) buffer with
        | none => .error (.rc .internal)
        | some out => .ok out

def orInternal {α : Type} : Option α → Except Exit α
  | some a => .ok a
  | none => .error (.rc .internal)

def readHeader (buffer : Bytes) : Except Exit (Int32 × PageNum × Bytes) :=
  match readInt32 buffer with
  | none => .error (.rc .invalidArgument)
  | some (type,buffer) =>
      if type < 0 ∨ 10 ≤ type then .error (.rc .invalidArgument)
      else match readInt32 buffer with
        | none => .error (.rc .invalidArgument)
        | some (page,buffer) => .ok (type,page,buffer)

end LogEntry

abbrev LogEntryHandler := LogEntry Int32

namespace LogEntryHandler
open LogEntry

def serializeBody : LogEntryHandler → Bytes
  | initHeaderPage _ header => header.bytes
  | updateRootPage _ root _ => ofInt32 root
  | setParentPage _ parent _ => ofInt32 parent
  | leafInitEmpty _ => []
  | leafSetNextPage _ next _ => ofInt32 next
  | internalInitEmpty _ => []
  | internalCreateNewRoot _ first key child => ofInt32 first ++ ofInt32 child ++ sized key
  | internalUpdateKey _ index key _ => ofInt32 index ++ sized key
  | nodeInsert _ index items itemNum => ofInt32 index ++ ofInt32 itemNum ++ sized items
  | nodeRemove _ index items itemNum => ofInt32 index ++ ofInt32 itemNum ++ sized items

def serialize (entry : LogEntryHandler) : Bytes :=
  ofInt32 entry.typeIndex ++ ofInt32 entry.page ++ serializeBody entry

/-- The `deserialize` functions of the entry classes. -/
def deserialize (type : Int32) (page : PageNum) (buffer : Bytes) : Except Exit (LogEntryHandler × Bytes) :=
  if type = 0 then do
    let (header,buffer) ← orInternal (IndexFileHeader.ofBytes buffer)
    .ok (initHeaderPage page header,buffer)
  else if type = 1 then do
    let (root,buffer) ← orInternal (readInt32 buffer)
    .ok (updateRootPage page root (-1),buffer)
  else if type = 2 then do
    let (parent,buffer) ← orInternal (readInt32 buffer)
    .ok (setParentPage page parent (-1),buffer)
  else if type = 3 then .ok (leafInitEmpty page,buffer)
  else if type = 4 then do
    let (next,buffer) ← orInternal (readInt32 buffer)
    .ok (leafSetNextPage page next (-1),buffer)
  else if type = 5 then .ok (internalInitEmpty page,buffer)
  else if type = 6 then do
    let (first,buffer) ← orInternal (readInt32 buffer)
    let (child,buffer) ← orInternal (readInt32 buffer)
    let (key,buffer) ← readSized buffer
    .ok (internalCreateNewRoot page first key child,buffer)
  else if type = 7 then do
    let (index,buffer) ← orInternal (readInt32 buffer)
    let (key,buffer) ← readSized buffer
    .ok (internalUpdateKey page index key [],buffer)
  else do
    let (index,buffer) ← orInternal (readInt32 buffer)
    let (itemNum,buffer) ← orInternal (readInt32 buffer)
    let (items,buffer) ← readSized buffer
    if type = 8 then .ok (nodeInsert page index items itemNum,buffer)
    else .ok (nodeRemove page index items itemNum,buffer)

end LogEntryHandler

namespace LogEntry

def handler (entry : LogEntry) : LogEntryHandler := entry.map Int32.ofNat

def serialize (entry : LogEntry) : Bytes := entry.handler.serialize

def deserializeBody (type : Int32) (page : PageNum) (buffer : Bytes) : Except Exit (LogEntry × Bytes) := do
  let (entry,buffer) ← LogEntryHandler.deserialize type page buffer
  .ok (entry.map natOf,buffer)

end LogEntry

def liftExcept {α : Type} : Except Exit α → TreeM K α
  | .ok a => pure a
  | .error e => exit e

/-- `LogEntryHandler::from_buffer` with the pages of a buffer pool: the page of the entry is
fetched, and pinned, before its body is read. -/
def fromBuffer (buffer : Bytes) : TreeM K (LogEntry × Bytes) := do
  let (type,page,buffer) ← liftExcept (LogEntry.readHeader buffer)
  fault
  hold (.pin page)
  liftExcept (LogEntry.deserializeBody type page buffer)

/-! ### Redo -/

def readItems {α : Type} (size : Nat) (item : Bytes → α) : Nat → Bytes → List α
  | 0,_ => []
  | num+1,bytes => item (bytes.take size) :: readItems size item num (bytes.drop size)

def readRid (bytes : Bytes) : RID :=
  match readInt32 bytes with
  | none => ⟨0,0⟩
  | some (pageNum,rest) => ⟨pageNum,((readInt32 rest).map Prod.fst).getD 0⟩

def readPageNum (bytes : Bytes) : PageNum := ((readInt32 bytes).map Prod.fst).getD 0

def leafItemsOf (ops : KeyOps K) (num : Nat) (bytes : Bytes) : List (K × RID) :=
  readItems (ops.keyLength + 8)
    (fun item => (ops.decode (item.take ops.keyLength),readRid (item.drop ops.keyLength))) num bytes

def internalItemsOf (ops : KeyOps K) (num : Nat) (bytes : Bytes) : List (K × PageNum) :=
  readItems (ops.keyLength + 4)
    (fun item => (ops.decode (item.take ops.keyLength),readPageNum (item.drop ops.keyLength))) num bytes

/-- `LogEntryHandler::redo`. The item operations go through `recover_insert_items` and
`recover_remove_items` of the handler that fits the page. -/
def redoEntry (ops : KeyOps K) : LogEntry → TreeM K Unit
  | .initHeaderPage page header => do
      update fun s => { s with disk := { s.disk with header := header } }
      markDirty page
  | .updateRootPage _ root _ => updateRootPageNumLocked root
  | .setParentPage page parent _ => IndexNodeHandler.setParentPageNum page parent
  | .leafInitEmpty page => LeafIndexNodeHandler.initEmpty page
  | .leafSetNextPage page next _ => LeafIndexNodeHandler.setNextPage page next
  | .internalInitEmpty page => InternalIndexNodeHandler.initEmpty page
  | .internalCreateNewRoot page first key child =>
      createNewRoot ops page first (ops.decode key) child
  | .internalUpdateKey page index key _ =>
      setKeyAt ops page index (ops.decode key)
  | .nodeInsert page index items itemNum => do
      match ← getNode page with
      | .leaf parent next old => setNode page (.leaf parent next
          (recoverInsertItems index (leafItemsOf ops itemNum items) old))
      | .internal parent old => setNode page (.internal parent
          (recoverInsertItems index (internalItemsOf ops itemNum items) old))
  | .nodeRemove page index _ itemNum => do
      match ← getNode page with
      | .leaf parent next old =>
          setNode page (.leaf parent next (recoverRemoveItems index itemNum old))
      | .internal parent old =>
          setNode page (.internal parent (recoverRemoveItems index itemNum old))

def setLsn (lsn : LSN) (page : PageNum) : TreeM K Unit :=
  update fun s => { s with disk := { s.disk with lsn := Function.update s.disk.lsn page lsn } }

def unpinAll : List PageNum → TreeM K Unit
  | [] => pure ()
  | page :: rest => do
      letGo (.pin page)
      unpinAll rest

def setLsnAll (lsn : LSN) : List PageNum → TreeM K Unit
  | [] => pure ()
  | page :: rest => do
      setLsn lsn page
      setLsnAll lsn rest

/-- One turn of the loop of `__redo`: the rest of the buffer and the page, if it was redone. A
failing call ends the loop, and its code is not returned. -/
def redoStep (ops : KeyOps K) (lsn : LSN) (buffer : Bytes) : TreeM K (Option (Bytes × List PageNum)) := do
  match ← attempt (fromBuffer buffer) with
  | none => pure none
  | some (entry,rest) =>
      let frameLsn ← read fun s => s.disk.lsn entry.page
      if lsn ≤ frameLsn then
        letGo (.pin entry.page)
        pure (some (rest,[]))
      else match ← attempt (redoEntry ops entry) with
        | none => pure none
        | some _ => pure (some (rest,[entry.page]))

def redoLoop (ops : KeyOps K) (lsn : LSN) : Nat → Bytes → List PageNum → TreeM K (Option (List PageNum))
  | 0,buffer,frames => if buffer = [] then pure (some frames) else exit .abort
  | fuel+1,buffer,frames => if buffer = [] then pure (some frames) else do
      match ← redoStep ops lsn buffer with
      | none => pure none
      | some (rest,pages) => redoLoop ops lsn fuel rest (frames ++ pages)

def releaseAll : TreeM K Unit := do
  let point ← memoPoint
  releaseTo point

/-- `BplusTreeLogger::redo` on a record: the buffer pool id, then the entries. The tree is
opened on the buffer pool, and nothing is logged meanwhile. -/
def redo (ops : KeyOps K) (lsn : LSN) (payload : Bytes) : TreeM K Unit := do
  match readInt32 payload with
  | none => exit (.rc .ioerrRead)
  | some (_,buffer) =>
      fault
      update fun s => { s with mtr := { s.mtr with needLog := false } }
      match ← redoLoop ops lsn buffer.length buffer [] with
      | some frames =>
          setLsnAll lsn frames
          unpinAll frames
      | none => pure ()
      update fun s => { s with mtr := { s.mtr with needLog := true } }
      releaseAll

/-! ### Commit and rollback -/

def payloadOf (bufferPoolId : Int32) (entries : List LogEntry) : Bytes :=
  ofInt32 bufferPoolId ++ entries.flatMap LogEntry.serialize

def maxPayloadSize : Nat := 4 * 1024 * 1024 - 16

def commit : TreeM K Unit := do
  let entries ← read fun s => s.mtr.entries
  if entries = [] then pure ()
  else
    let bufferPoolId ← read fun s => s.disk.file.bufferPoolId
    fault
    if maxPayloadSize < (payloadOf bufferPoolId entries).length then exit (.rc .invalidArgument)
    else pure ()
    let lsn ← appendLog (.bplusTree · (payloadOf bufferPoolId entries))
    setLsnAll lsn (entries.map LogEntry.page)
    update fun s => { s with mtr := { s.mtr with entries := [] } }

/-- `LogEntryHandler::rollback`. Item operations are undone through an `IndexNodeHandler`,
whose `__item_at` is a null pointer: only a change of the size alone gets through. -/
def rollbackEntry (ops : KeyOps K) : LogEntry → TreeM K Unit
  | .initHeaderPage _ _ => pure ()
  | .updateRootPage _ _ old => updateRootPageNumLocked old
  | .setParentPage page _ old => IndexNodeHandler.setParentPageNum page old
  | .leafInitEmpty _ => pure ()
  | .leafSetNextPage page _ old => LeafIndexNodeHandler.setNextPage page old
  | .internalInitEmpty _ => pure ()
  | .internalCreateNewRoot _ _ _ _ => pure ()
  | .internalUpdateKey page index _ old =>
      setKeyAt ops page index (ops.decode old)
  | .nodeInsert page index _ itemNum => do
      let node ← getNode page
      assert (node.size ≤ index + itemNum)
      match node with
      | .leaf parent next items => setNode page (.leaf parent next (items.take (items.length - itemNum)))
      | .internal parent items => setNode page (.internal parent (items.take (items.length - itemNum)))
  | .nodeRemove page index _ itemNum => do
      let node ← getNode page
      assert (node.size ≤ index ∧ itemNum = 0)

def rollbackEntries (ops : KeyOps K) : List LogEntry → TreeM K Unit
  | [] => pure ()
  | entry :: rest => do
      ignoreRc (rollbackEntry ops entry)
      rollbackEntries ops rest

def rollback (ops : KeyOps K) : TreeM K Unit := do
  update fun s => { s with mtr := { s.mtr with needLog := false } }
  let entries ← read fun s => s.mtr.entries
  rollbackEntries ops entries.reverse
  update fun s => { s with mtr := { s.mtr with entries := [], needLog := true } }

def bufferPoolDisposePage (page : PageNum) : TreeM K Unit :=
  if page = bpHeaderPage then exit (.rc .internal)
  else do
    let _ ← appendLog (.deallocatePage · page)
    update fun s => { s with disk := { s.disk with file := s.disk.file.clearBit (natOf page) } }

def disposePages : List PageNum → TreeM K Unit
  | [] => pure ()
  | page :: rest => do
      ignoreRc (bufferPoolDisposePage page)
      disposePages rest

def release : TreeM K Unit := do
  releaseAll
  let disposed ← read fun s => s.mtr.disposed
  disposePages disposed
  update fun s => { s with mtr := { s.mtr with disposed := [] } }

def finish (ops : KeyOps K) : Except Exit Unit → TreeM K Unit
  | .ok _ => do
      ignoreRc commit
      release
  | .error (.rc _) => do
      rollback ops
      release
  | .error .abort => exit .abort

/-- A new `BplusTreeMiniTransaction`. Latches, dirty marks and the coming faults belong to the
buffer pool and stay. -/
def Handler.beginMtr (s : Handler K) : Handler K :=
  { s with mtr := { s.mtr with entries := [], needLog := true, memo := [], disposed := [] } }

/-- A call under a mini transaction. The result is what the operation returned; an abort of
the destructors replaces it. -/
def call (ops : KeyOps K) (body : TreeM K Unit) : TreeM K Unit := fun s =>
  match body s.beginMtr with
  | (result,t) => match finish ops result t with
    | (.ok _,u) => (result,u)
    | (.error e,u) => (.error e,u)

section
variable {A : Type}

def makeKey (userKey : A) (rid : RID) : TreeM (IndexKey A) (IndexKey A) := do
  fault
  pure ⟨userKey,rid⟩

def insertEntry (ops : KeyOps (IndexKey A)) (userKey : A) (rid : RID) : TreeM (IndexKey A) Unit := do
  let key ← makeKey userKey rid
  call ops (insertEntryBody ops key rid)

def deleteEntry (ops : KeyOps (IndexKey A)) (userKey : A) (rid : RID) : TreeM (IndexKey A) Unit := do
  let key ← makeKey userKey rid
  call ops (deleteEntryBody ops key)

end

/-! ### Creation -/

def sizeofRid : Nat := 8
def sizeofPageNum : Nat := 4

def internalHeaderSize : Nat := 12
def leafHeaderSize : Nat := 16

def calcInternalPageCapacity (attrLength : Nat) : Nat :=
  (bpPageDataSize - internalHeaderSize) / (attrLength + sizeofRid + sizeofPageNum)

def calcLeafPageCapacity (attrLength : Nat) : Nat :=
  (bpPageDataSize - leafHeaderSize) / (attrLength + sizeofRid + sizeofRid)

def emptyFile (bufferPoolId : Int32) : Handler K where
  disk := {
    header := ⟨bpInvalidPageNum,0,0,0,0,0⟩
    node := fun _ => .cleared
    lsn := fun _ => 0
    file := { bufferPoolId := bufferPoolId, pageCount := 1, allocatedPages := 1, bitmap := fun i => i == 0 } }
  mtr := { entries := [], needLog := true, memo := [], disposed := [], held := [], dirty := [], faults := [] }
  currentLsn := 0
  log := []

def newFileHeader (attrType attrLength internalMaxSize leafMaxSize : Int32) : IndexFileHeader where
  rootPage := bpInvalidPageNum
  internalMaxSize := if internalMaxSize < 0 then Int32.ofNat (calcInternalPageCapacity (natOf attrLength))
    else internalMaxSize
  leafMaxSize := if leafMaxSize < 0 then Int32.ofNat (calcLeafPageCapacity (natOf attrLength)) else leafMaxSize
  attrLength := attrLength
  keyLength := attrLength + 8
  attrType := attrType

def createBody (attrType attrLength internalMaxSize leafMaxSize : Int32) : TreeM K Unit := do
  let page ← memoAllocatePage
  if page = firstIndexPage then
    update fun s => { s with disk := { s.disk with
      header := newFileHeader attrType attrLength internalMaxSize leafMaxSize } }
    markDirty page
  else exit (.rc .internal)

def create (ops : KeyOps K) (attrType attrLength internalMaxSize leafMaxSize : Int32) : TreeM K Unit :=
  call ops (createBody attrType attrLength internalMaxSize leafMaxSize)

end MiniOb.BplusTree
