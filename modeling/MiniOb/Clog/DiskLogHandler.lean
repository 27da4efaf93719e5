import MiniOb.Clog.Reading

/-! The log handler: entries wait in a buffer, and a thread writes them to the files one by one
(`log_buffer.cpp`, `disk_log_handler.cpp`). -/
namespace MiniOb.Clog
open Prog

structure LogEntryBuffer where
  currentLsn : Int
  flushedLsn : Int
  entries : List LogEntry

namespace LogEntryBuffer

def init (lsn : Int) : LogEntryBuffer := ⟨lsn,lsn,[]⟩

def append (moduleId : Int32) (payload : Bytes) (buffer : LogEntryBuffer) : Except RC Int × LogEntryBuffer :=
  if maxPayloadSize < payload.length then (.error .invalidArgument,buffer)
  else
    let lsn := buffer.currentLsn + 1
    (.ok lsn,{ buffer with currentLsn := lsn, entries := buffer.entries ++ [⟨lsn,moduleId,payload⟩] })

/-- One round of `flush`. An entry that could not be written goes back to the front; one without
a payload or a positive number fails an assertion. -/
def flushEntry (buffer : LogEntryBuffer) (writer : LogFileWriter) (dir : Directory) :
    Except Exit (RC × LogEntryBuffer × LogFileWriter × Directory) :=
  match buffer.entries with
  | [] => .ok (.success,buffer,writer,dir)
  | entry :: rest =>
    if 0 < entry.lsn ∧ entry.payload ≠ [] then
      match writer.write entry dir with
      | (.success,writer,dir) => .ok (.success,{ buffer with flushedLsn := entry.lsn, entries := rest },writer,dir)
      | (rc,writer,dir) => .ok (rc,buffer,writer,dir)
    else .error .abort

end LogEntryBuffer

structure DiskLogHandler where
  buffer : LogEntryBuffer
  manager : LogFileManager
  writer : LogFileWriter
  dir : Directory
  rc : RC

namespace DiskLogHandler

def started (maxEntryNumberPerFile lsn : Int) (listing : Directory) : DiskLogHandler where
  buffer := .init lsn
  manager := .init maxEntryNumberPerFile listing
  writer := .closed
  dir := listing
  rc := .success

def append (moduleId : Int32) (payload : Bytes) (handler : DiskLogHandler) : DiskLogHandler :=
  { handler with buffer := (handler.buffer.append moduleId payload).2 }

/-- `thread_func`, from one look at the buffer to the next: a file is opened when there is none
or the last one is full, otherwise one entry is written. -/
def threadStep (handler : DiskLogHandler) : Except Exit DiskLogHandler :=
  if handler.writer.filename = none ∨ handler.rc = .logFileFull then
    let (manager,writer,dir) := if handler.rc = .logFileFull then handler.manager.nextFile handler.writer handler.dir
      else handler.manager.lastFile handler.writer handler.dir
    .ok { handler with manager := manager, writer := writer, dir := dir, rc := .success }
  else
    match handler.buffer.flushEntry handler.writer handler.dir with
    | .ok (rc,buffer,writer,dir) => .ok { handler with buffer := buffer, writer := writer, dir := dir, rc := rc }
    | .error exit => .error exit

def iterate {σ : Type} (consumer : LogEntry → Prog σ RC Unit) (start : Int) (handler : DiskLogHandler) : Prog σ RC Unit :=
  (handler.manager.listFiles start).foldr
    (fun name rest => LogFileReader.iterate consumer start (handler.dir.content name) >>= fun _ => rest) (pure ())

def replayCallback {σ : Type} (replayer : LogEntry → Prog σ RC Unit) (entry : LogEntry) : Prog (σ × Int) RC Unit := fun s =>
  let maxLsn := if s.2 < entry.lsn then entry.lsn else s.2
  let (rc,after) := replayer entry s.1
  (rc,(after,maxLsn))

def replay {σ : Type} (replayer : LogEntry → Prog σ RC Unit) (start : Int) (handler : DiskLogHandler) :
    Prog σ RC DiskLogHandler := fun s =>
  match handler.iterate (replayCallback replayer) start (s,0) with
  | (.ok _,after) => (.ok { handler with buffer := .init after.2 },after.1)
  | (.error rc,after) => (.error rc,after.1)

end DiskLogHandler

inductive LogCall where
  | append (moduleId : Int32) (payload : Bytes)
  | thread
  deriving DecidableEq, Repr

namespace LogCall

/-- A failed assertion ends the process: nothing runs after it. -/
def run : List LogCall → DiskLogHandler → DiskLogHandler
  | [],handler => handler
  | append moduleId payload :: rest,handler => run rest (handler.append moduleId payload)
  | thread :: rest,handler => match handler.threadStep with
    | .ok next => run rest next
    | .error _ => handler

def appended : List LogCall → DiskLogHandler → List LogEntry
  | [],_ => []
  | append moduleId payload :: rest,handler =>
    (if maxPayloadSize < payload.length then [] else [⟨handler.buffer.currentLsn + 1,moduleId,payload⟩]) ++
      appended rest (handler.append moduleId payload)
  | thread :: rest,handler => match handler.threadStep with
    | .ok next => appended rest next
    | .error _ => []

end LogCall

end MiniOb.Clog
