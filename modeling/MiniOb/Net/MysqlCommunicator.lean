import MiniOb.Common.Types

/-! Replies of the MySQL front end (`net/mysql_communicator.cpp`, `sql/executor/sql_result.cpp`): from the
result of a query to the packets handed to the writer, with the codes that the functions return. -/
namespace MiniOb.Net

def rcNames : List String :=
  ["SUCCESS","INVALID_ARGUMENT","UNIMPLEMENTED","SQL_SYNTAX","INTERNAL","NOMEM","NOTFOUND","EMPTY","FULL","EXIST",
   "NOT_EXIST","BUFFERPOOL_OPEN","BUFFERPOOL_NOBUF","BUFFERPOOL_INVALID_PAGE_NUM","RECORD_OPENNED",
   "RECORD_INVALID_RID","RECORD_INVALID_KEY","RECORD_DUPLICATE_KEY","RECORD_NOMEM","RECORD_EOF","RECORD_NOT_EXIST",
   "RECORD_INVISIBLE","SCHEMA_DB_EXIST","SCHEMA_DB_NOT_EXIST","SCHEMA_DB_NOT_OPENED","SCHEMA_TABLE_NOT_EXIST",
   "SCHEMA_TABLE_EXIST","SCHEMA_FIELD_NOT_EXIST","SCHEMA_FIELD_MISSING","SCHEMA_FIELD_TYPE_MISMATCH",
   "SCHEMA_INDEX_NAME_REPEAT","IOERR_READ","IOERR_WRITE","IOERR_ACCESS","IOERR_OPEN","IOERR_CLOSE","IOERR_SEEK",
   "IOERR_TOO_LONG","IOERR_SYNC","LOCKED_UNLOCK","LOCKED_NEED_WAIT","LOCKED_CONCURRENCY_CONFLICT","FILE_EXIST",
   "FILE_NOT_EXIST","FILE_NAME","FILE_BOUND","FILE_CREATE","FILE_OPEN","FILE_NOT_OPENED","FILE_CLOSE","FILE_REMOVE",
   "VARIABLE_NOT_EXISTS","VARIABLE_NOT_VALID","LOGBUF_FULL","LOG_FILE_FULL","LOG_ENTRY_INVALID","JSON_PARSE_FAILED",
   "JSON_MEMBER_MISSING","RANGE_ERROR","WAL_INVALID_FILENAME","INPUT_EOF","INVALID_TOKEN","UNEXPECTED_END_OF_STRING",
   "SYNTAX_ERROR","UNSUPPORTED"]

def strrc (rc : RC) : String := (rcNames[rc.ctorIdx]?).getD "unknown"

inductive Packet where
  | ok (affectedRows : Nat) (info : String)
  | eof (statusFlags : Nat)
  | err (errorCode : Nat) (errorMessage : String)
  | columnCount (metadata : Bool) (count : Nat)
  | columnDefinition (table name : String)
  | row (cells : List String)
  deriving DecidableEq, Repr

structure Chunk where
  columnNum : Nat
  rows : List (List String)
  deriving DecidableEq, Repr

/- What an operator tree answers: to `open`, to `next` (rows whose cells are read one by one) or to the
chunk form of `next`, then the first code other than SUCCESS, and to `close`. -/
structure OperatorRun where
  opens : RC := .success
  schema : List (String × String)
  tuples : List (List (Except RC String)) := []
  chunks : List Chunk := []
  ending : RC := .recordEof
  closes : RC := .success
  commits : RC := .success
  ends : ending ≠ .success := by decide

structure SessionEvent where
  returnCode : RC := .success
  stateString : String := ""
  operator : Option OperatorRun := none
  chunkIterator : Bool := false
  usedChunkMode : Bool := false
  multiOperation : Bool := false

/- `writes` are the answers of the writer's next calls; when none is left they succeed. `returnCode` is
the result's code, which the functions below overwrite. -/
structure Communicator where
  sequenceId : Int8 := 0
  deprecateEof : Bool := false
  optionalMetadata : Bool := false
  needDisconnect : Bool := true
  writes : List RC := []
  reply : List (Int8 × Packet) := []
  returnCode : RC := .success
  affectedRows : Nat := 0

abbrev Answer := RC × Communicator

def send (packet : Packet) (c : Communicator) : Answer :=
  let rest := {c with sequenceId := c.sequenceId + 1,writes := c.writes.tail}
  match c.writes.headD .success with
  | .success => (.success,{rest with reply := c.reply ++ [(c.sequenceId,packet)]})
  | rc => (rc,rest)

def writeState (event : SessionEvent) (c : Communicator) : Answer :=
  let result := strrc c.returnCode
  let text := if event.stateString = "" then result else result ++ " > " ++ event.stateString
  -- snprintf into a buffer of 2048 characters
  let buf := String.ofList (text.toList.take 2047)
  let (rc,c) := send (if c.returnCode = .success then .ok 0 buf else .err c.returnCode.ctorIdx buf) c
  (rc,{c with needDisconnect := rc ≠ .success})

def sendColumns : List (String × String) → Communicator → Answer
  | [],c => (.success,c)
  | (table,name) :: rest,c => match send (.columnDefinition table name) c with
    | (.success,c) => sendColumns rest c
    | failed => failed

def sendColumnDefinition (schema : List (String × String)) (c : Communicator) : Answer :=
  if schema = [] then (.success,c) else
  match send (.columnCount c.optionalMetadata schema.length) c with
  | (.success,c) => match sendColumns schema c with
    | (.success,c) =>
      -- a failure to send this packet is only logged
      let c := if c.deprecateEof then c else (send (.eof 0x02) c).2
      (.success,{c with needDisconnect := false})
    | (rc,c) => (rc,{c with needDisconnect := true})
  | (rc,c) => (rc,{c with needDisconnect := true})

def readCells : List (Except RC String) → List String × Option RC
  | [] => ([],none)
  | .error rc :: _ => ([],some rc)
  | .ok cell :: rest => (cell :: (readCells rest).1,(readCells rest).2)

def writeTupleResult (ending : RC) : List (List (Except RC String)) → Communicator → Answer
  | [],c => (ending,c)
  | tuple :: rest,c =>
    let c := {c with affectedRows := c.affectedRows + 1}
    if tuple = [] then writeTupleResult ending rest c else
    -- the code of a failed cell goes to the result; `rc` is then overwritten by the write of the row
    let c := {c with returnCode := (readCells tuple).2.getD c.returnCode}
    match send (.row (readCells tuple).1) c with
    | (.success,c) => writeTupleResult ending rest c
    | (rc,c) => (rc,{c with needDisconnect := true})

def writeChunkRows : List (List String) → Communicator → Answer
  | [],c => (.success,c)
  | cells :: rest,c => match send (.row cells) {c with affectedRows := c.affectedRows + 1} with
    | (.success,c) => writeChunkRows rest c
    | (rc,c) => (rc,{c with needDisconnect := true})

def writeChunkResult (ending : RC) : List Chunk → Communicator → Answer
  | [],c => (ending,c)
  | chunk :: rest,c =>
    if chunk.columnNum = 0 then writeChunkResult ending rest c else
    match writeChunkRows chunk.rows c with
    | (.success,c) => writeChunkResult ending rest c
    | failed => failed

def SessionEvent.chunkMode (event : SessionEvent) : Bool := event.chunkIterator && event.usedChunkMode

def sendResultRows (event : SessionEvent) (run : OperatorRun) (noColumnDef : Bool) (c : Communicator) : Answer :=
  let rows := if event.chunkMode then writeChunkResult run.ending run.chunks else writeTupleResult run.ending run.tuples
  let c := (rows {c with affectedRows := 0}).2
  -- `rc` of the rows is overwritten here
  let (rc,c) := if c.deprecateEof || noColumnDef then send (.ok c.affectedRows "") c else send (.eof 0x22) c
  (rc,{c with needDisconnect := false})

def closeResult (event : SessionEvent) (run : OperatorRun) : RC :=
  if run.closes = .success ∧ event.multiOperation = false then run.commits else run.closes

def writeResult (event : SessionEvent) (c : Communicator) : Answer :=
  let c := {c with needDisconnect := true,returnCode := event.returnCode}
  match event.operator with
  | none => writeState event c
  | some run =>
    if event.returnCode ≠ .success then writeState event c else
    if run.opens ≠ .success then writeState event {c with returnCode := run.opens} else
    match sendColumnDefinition run.schema c with
    | (.success,c) =>
      -- the inner `rc` hides the outer one, which stays SUCCESS: only the code of `close` is returned
      (closeResult event run,(sendResultRows event run run.schema.isEmpty c).2)
    | failed => failed

def Packet.isEnd : Packet → Bool
  | .ok _ _ => true
  | .eof _ => true
  | _ => false

def Packet.isErr : Packet → Bool
  | .err _ _ => true
  | _ => false

def OperatorRun.ReachesEnd (run : OperatorRun) (chunkMode : Bool) : Prop :=
  run.ending = .recordEof ∧ (chunkMode = false → ∀ tuple ∈ run.tuples,(readCells tuple).2 = none)

def SessionEvent.ReachedEnd (event : SessionEvent) : Prop :=
  event.returnCode = .success ∧ ∀ run,event.operator = some run → run.opens = .success ∧ run.ReachesEnd event.chunkMode

def SessionEvent.FailedAtRow (event : SessionEvent) : Prop :=
  event.returnCode = .success ∧ ∃ run,event.operator = some run ∧ run.opens = .success ∧ ¬ run.ReachesEnd event.chunkMode

def lastPacket (c : Communicator) : Option Packet := c.reply.getLast?.map Prod.snd

structure ReplyTells (event : SessionEvent) (answer : Answer) : Prop where
  endOnly : ∀ packet,lastPacket answer.2 = some packet → packet.isEnd = true → event.ReachedEnd
  failed : event.FailedAtRow → (∃ packet,lastPacket answer.2 = some packet ∧ packet.isErr = true) ∧ answer.1 ≠ .success

section Writes
variable {c : Communicator}

theorem sendWritten (packet : Packet) (writes : c.writes = []) :
    (send packet c).1 = .success ∧ (send packet c).2.writes = [] ∧ lastPacket (send packet c).2 = some packet := by
  simp [send,writes,lastPacket]

theorem sendColumnsWritten (schema : List (String × String)) (writes : c.writes = []) :
    (sendColumns schema c).1 = .success ∧ (sendColumns schema c).2.writes = [] := by
  induction schema generalizing c with
  | nil => exact ⟨rfl,writes⟩
  | cons column rest ih =>
    obtain ⟨table,name⟩ := column
    obtain ⟨sent,written,_⟩ := sendWritten (.columnDefinition table name) writes
    generalize answer : send (.columnDefinition table name) c = result at sent written
    obtain ⟨rc,next⟩ := result
    cases sent
    simp only [sendColumns,answer]
    exact ih written

theorem sendColumnDefinitionWritten (schema : List (String × String)) (writes : c.writes = []) :
    (sendColumnDefinition schema c).1 = .success ∧ (sendColumnDefinition schema c).2.writes = [] := by
  unfold sendColumnDefinition
  split
  · exact ⟨rfl,writes⟩
  · obtain ⟨sent,written,_⟩ := sendWritten (.columnCount c.optionalMetadata schema.length) writes
    generalize send (.columnCount c.optionalMetadata schema.length) c = count at sent written
    obtain ⟨rc,counted⟩ := count
    cases sent
    obtain ⟨sent,written⟩ := sendColumnsWritten schema written
    dsimp only
    generalize sendColumns schema counted = columns at sent written
    obtain ⟨rc,defined⟩ := columns
    cases sent
    refine ⟨rfl,?_⟩
    dsimp only
    split
    · exact written
    · exact (sendWritten _ written).2.1

theorem writeTupleWritten (ending : RC) (tuples : List (List (Except RC String))) (writes : c.writes = []) :
    (writeTupleResult ending tuples c).2.writes = [] := by
  induction tuples generalizing c with
  | nil => exact writes
  | cons tuple rest ih =>
    have written := (sendWritten (.row (readCells tuple).1)
      (c := {c with affectedRows := c.affectedRows + 1,returnCode := (readCells tuple).2.getD c.returnCode}) writes).2.1
    simp only [writeTupleResult]
    split
    · exact ih writes
    · generalize send (.row (readCells tuple).1)
        {c with affectedRows := c.affectedRows + 1,returnCode := (readCells tuple).2.getD c.returnCode} = answer at written
      split
      · exact ih written
      · exact written

theorem writeChunkRowsWritten (rows : List (List String)) (writes : c.writes = []) :
    (writeChunkRows rows c).2.writes = [] := by
  induction rows generalizing c with
  | nil => exact writes
  | cons cells rest ih =>
    obtain ⟨_,written,_⟩ := sendWritten (.row cells) (c := {c with affectedRows := c.affectedRows + 1}) writes
    simp only [writeChunkRows]
    generalize send (.row cells) {c with affectedRows := c.affectedRows + 1} = answer at written
    split
    · exact ih written
    · exact written

theorem writeChunkWritten (ending : RC) (chunks : List Chunk) (writes : c.writes = []) :
    (writeChunkResult ending chunks c).2.writes = [] := by
  induction chunks generalizing c with
  | nil => exact writes
  | cons chunk rest ih =>
    have written := writeChunkRowsWritten chunk.rows writes
    simp only [writeChunkResult]
    split
    · exact ih writes
    · generalize writeChunkRows chunk.rows c = answer at written
      split
      · exact ih written
      · exact written

end Writes

theorem sendResultRowsEnds (event : SessionEvent) (run : OperatorRun) (noColumnDef : Bool)
    (writes : c.writes = []) : ∃ packet,lastPacket (sendResultRows event run noColumnDef c).2 = some packet ∧ packet.isEnd = true := by
  have written : ((if event.chunkMode then writeChunkResult run.ending run.chunks else writeTupleResult run.ending run.tuples)
      {c with affectedRows := 0}).2.writes = [] := by
    split
    · exact writeChunkWritten _ _ writes
    · exact writeTupleWritten _ _ writes
  unfold sendResultRows
  dsimp only
  generalize ((if event.chunkMode then writeChunkResult run.ending run.chunks else writeTupleResult run.ending run.tuples)
    {c with affectedRows := 0}).2 = d at written
  split
  · exact ⟨_,(sendWritten _ written).2.2,rfl⟩
  · exact ⟨_,(sendWritten _ written).2.2,rfl⟩

theorem writeStateLast (event : SessionEvent) (writes : c.writes = []) :
    ∃ packet,lastPacket (writeState event c).2 = some packet ∧ (packet.isEnd = true ↔ c.returnCode = .success) := by
  unfold writeState
  dsimp only
  split
  · exact ⟨_,(sendWritten _ writes).2.2,by simpa [Packet.isEnd]⟩
  · exact ⟨_,(sendWritten _ writes).2.2,by simpa [Packet.isEnd]⟩

theorem writeResultRows (started : event.returnCode = .success)
    (present : event.operator = some run) (opened : run.opens = .success) (writes : c.writes = []) :
    ∃ packet,lastPacket (writeResult event c).2 = some packet ∧ packet.isEnd = true := by
  obtain ⟨sent,written⟩ := sendColumnDefinitionWritten run.schema
    (c := {c with needDisconnect := true,returnCode := event.returnCode}) writes
  simp only [writeResult,present,started,opened,ne_eq,not_true_eq_false,if_false] at sent written ⊢
  generalize sendColumnDefinition run.schema {c with needDisconnect := true,returnCode := .success} = columns at sent written ⊢
  obtain ⟨rc,defined⟩ := columns
  cases sent
  exact sendResultRowsEnds event run run.schema.isEmpty written

theorem writeResultRefused (writes : c.writes = [])
    (last : lastPacket (writeResult event c).2 = some packet) (isEnd : packet.isEnd = true) :
    event.returnCode = .success ∧ ∀ run,event.operator = some run → run.opens = .success := by
  have state : ∀ code d,d.writes = [] → d.returnCode = code → lastPacket (writeState event d).2 = some packet → code = .success := by
    intro code d quiet same last
    obtain ⟨sent,found,ends⟩ := writeStateLast (c := d) event quiet
    cases Option.some.inj (last.symm.trans found)
    exact same.symm.trans (ends.mp isEnd)
  unfold writeResult at last
  cases present : event.operator with
  | none =>
    simp only [present] at last
    exact ⟨state event.returnCode _ (by exact writes) rfl last,fun run found => by cases found⟩
  | some run =>
    simp only [present] at last
    split at last
    · rename_i refused
      exact absurd (state event.returnCode _ (by exact writes) rfl last) refused
    · rename_i started
      split at last
      · rename_i refused
        exact absurd (state run.opens _ (by exact writes) rfl last) refused
      · rename_i opened
        refine ⟨not_not.mp started,fun other found => ?_⟩
        cases Option.some.inj found
        exact not_not.mp opened

theorem replyTellsIff (event : SessionEvent) {c : Communicator} (writes : c.writes = []) :
    ReplyTells event (writeResult event c) ↔ ¬ event.FailedAtRow := by
  constructor
  · intro tells failed
    obtain ⟨started,run,present,opened,broken⟩ := failed
    obtain ⟨packet,last,isEnd⟩ := writeResultRows started present opened writes
    obtain ⟨_,reached⟩ := tells.endOnly packet last isEnd
    exact broken (reached run present).2
  · intro fine
    refine ⟨fun packet last isEnd => ?_,fun failed => absurd failed fine⟩
    obtain ⟨started,opened⟩ := writeResultRefused writes last isEnd
    refine ⟨started,fun run present => ⟨opened run present,?_⟩⟩
    exact not_not.mp fun broken => fine ⟨started,run,present,opened run present,broken⟩

theorem twoRowsTold :
    let event : SessionEvent := {operator := some {schema := [("t","id")],tuples := [[.ok "1"],[.ok "2"]]}}
    ReplyTells event (writeResult event {}) := by
  apply (replyTellsIff _ rfl).mpr
  rintro ⟨_,run,present,_,broken⟩
  cases Option.some.inj present
  exact broken ⟨rfl,by decide⟩

def failingScan : SessionEvent := {operator := some {schema := [("t","id")],ending := .internal}}

/- The first `next` fails with INTERNAL; the client gets EOF packets only and the caller SUCCESS. -/
theorem failureAnsweredEof : (writeResult failingScan {}).1 = .success ∧
      lastPacket (writeResult failingScan {}).2 = some (.eof 0x22) ∧ ¬ ReplyTells failingScan (writeResult failingScan {}) := by
  refine ⟨rfl,rfl,fun tells => ?_⟩
  obtain ⟨_,reached⟩ := tells.endOnly (.eof 0x22) rfl rfl
  cases (reached _ rfl).2.1

end MiniOb.Net
