import MiniOb.Common.Types
import MiniOb.Lib.Bytes
import MiniOb.Lib.Prog

/-! Log entries as bytes, the files they are written to, and reading them back
(`log_entry.cpp`, `log_file.cpp`). -/
namespace MiniOb.Clog
open Prog Bytes

def headerSize : Nat := 16

def maxPayloadSize : Nat := 4 * 1024 * 1024 - headerSize

structure LogHeader where
  lsn : Int
  size : Int
  moduleId : Int32
  deriving DecidableEq, Repr

structure LogEntry where
  lsn : Int
  moduleId : Int32
  payload : Bytes
  deriving DecidableEq, Repr

def LogEntry.bytes (entry : LogEntry) : Bytes :=
  ofInt64 (Int64.ofInt entry.lsn) ++
    (ofInt32 (Int32.ofInt entry.payload.length) ++ (ofInt32 entry.moduleId ++ entry.payload))

def bytesOf (entries : List LogEntry) : Bytes := entries.flatMap LogEntry.bytes

def readHeader (rest : Bytes) : Option (LogHeader × Bytes) := do
  let (lsn,rest) ← readInt64 rest
  let (size,rest) ← readInt32 rest
  let (moduleId,rest) ← readInt32 rest
  some (⟨lsn.toInt,size.toInt,moduleId⟩,rest)

theorem readHeaderSound (ok : readHeader bytes = some (header,rest)) :
    bytes = ofInt64 (Int64.ofInt header.lsn) ++
      (ofInt32 (Int32.ofInt header.size) ++ (ofInt32 header.moduleId ++ rest)) := by
  simp only [readHeader,bind,Option.bind_eq_some_iff] at ok
  obtain ⟨⟨lsn,first⟩,readLsn,⟨size,second⟩,readSize,⟨moduleId,third⟩,readModule,same⟩ := ok
  dsimp only at readSize readModule same
  cases same
  rw [readInt64Sound readLsn,readInt32Sound readSize,readInt32Sound readModule,Int64.ofInt_toInt,
    Int32.ofInt_toInt]

theorem readHeaderLength (ok : readHeader bytes = some (header,rest)) :
    bytes.length = rest.length + headerSize := by
  rw [readHeaderSound ok]
  simp only [List.length_append,lengthOfInt64,lengthOfInt32,headerSize]
  omega

theorem readHeaderNone : readHeader bytes = none ↔ bytes.length < headerSize := by
  constructor
  · intro failed
    simp only [readHeader,bind] at failed
    unfold headerSize
    cases readLsn : readInt64 bytes with
    | none =>
      have short := readInt64None readLsn
      omega
    | some first =>
      rw [readLsn,Option.bind_some] at failed
      have length := congrArg List.length (readInt64Sound readLsn)
      rw [List.length_append,lengthOfInt64] at length
      cases readSize : readInt32 first.2 with
      | none =>
        have short := readInt32None readSize
        omega
      | some second =>
        rw [readSize,Option.bind_some] at failed
        have lengthSize := congrArg List.length (readInt32Sound readSize)
        rw [List.length_append,lengthOfInt32] at lengthSize
        cases readModule : readInt32 second.2 with
        | none =>
          have short := readInt32None readModule
          omega
        | some third => simp [readModule] at failed
  · intro short
    cases found : readHeader bytes with
    | none => rfl
    | some header =>
      have length := readHeaderLength found
      omega

namespace LogFileReader
variable {σ : Type}

def readEntries (consumer : LogEntry → Prog σ RC Unit) (rest : Bytes) : Prog σ RC Unit :=
  match _found : readHeader rest with
  | none => pure ()
  | some (header,tail) =>
    if header.size < 0 ∨ (maxPayloadSize : Int) < header.size then exit .ioerrRead
    else match read header.size.toNat tail with
      -- the end of the file within a payload is an error, unlike the end within a header
      | none => exit .ioerrRead
      | some (data,_) => do
        consumer ⟨header.lsn,header.moduleId,data⟩
        readEntries consumer (tail.drop header.size.toNat)
termination_by rest.length
decreasing_by
  have length := readHeaderLength _found
  simp only [headerSize] at length
  simp only [List.length_drop]
  omega

def skipTo (start : Int) (rest : Bytes) : Except RC Bytes :=
  match _found : readHeader rest with
  | none => .ok []
  | some (header,tail) =>
    if start ≤ header.lsn then .ok rest
    else if header.size < 0 ∨ (maxPayloadSize : Int) < header.size then .error .ioerrRead
    else skipTo start (tail.drop header.size.toNat)
termination_by rest.length
decreasing_by
  have length := readHeaderLength _found
  simp only [headerSize] at length
  simp only [List.length_drop]
  omega

def iterate (consumer : LogEntry → Prog σ RC Unit) (start : Int) (content : Bytes) : Prog σ RC Unit :=
  match skipTo start content with
  | .ok rest => readEntries consumer rest
  | .error rc => exit rc

end LogFileReader

abbrev FileName := List Char

def filePrefix : FileName := ['c','l','o','g','_']
def fileSuffix : FileName := ['.','l','o','g']

def fileName (lsn : Int) : FileName := filePrefix ++ (Nat.toDigits 10 lsn.toNat ++ fileSuffix)

/-- `from_chars` into a 64-bit integer: a sign, digits, and whatever follows them. -/
def fromChars : List Char → Option Int
  | '-' :: text =>
    let digits := text.takeWhile Char.isDigit
    if digits = [] then none
    else if Nat.ofDigitChars 10 digits 0 ≤ 2 ^ 63 then some (-(Nat.ofDigitChars 10 digits 0 : Int)) else none
  | text =>
    let digits := text.takeWhile Char.isDigit
    if digits = [] then none
    else if Nat.ofDigitChars 10 digits 0 < 2 ^ 63 then some (Nat.ofDigitChars 10 digits 0 : Int) else none

def getLsnFromFilename (name : FileName) : Option Int :=
  if filePrefix <+: name ∧ fileSuffix <:+ name then
    fromChars ((name.drop filePrefix.length).take (name.length - fileSuffix.length - filePrefix.length))
  else none

abbrev Directory := List (FileName × Bytes)

namespace Directory

def create (name : FileName) (dir : Directory) : Directory :=
  if name ∈ dir.map Prod.fst then dir else dir ++ [(name,[])]

def append (name : FileName) (bytes : Bytes) (dir : Directory) : Directory :=
  dir.map fun file => if file.1 = name then (file.1,file.2 ++ bytes) else file

def content (name : FileName) (dir : Directory) : Bytes := (dir.lookup name).getD []

end Directory

def toInt32 (n : Int) : Int := (Int32.ofInt n).toInt

structure LogFileWriter where
  /-- The open file, if there is one. -/
  filename : Option FileName
  lastLsn : Int
  endLsn : Int

namespace LogFileWriter

def closed : LogFileWriter := ⟨none,0,0⟩

def openFile (name : FileName) (endLsn : Int) (writer : LogFileWriter) : LogFileWriter :=
  { writer with filename := some name, endLsn := toInt32 endLsn }

def write (entry : LogEntry) (writer : LogFileWriter) (dir : Directory) : RC × LogFileWriter × Directory :=
  if writer.endLsn < entry.lsn then (.logFileFull,writer,dir)
  else match writer.filename with
    | none => (.fileNotOpened,writer,dir)
    | some name =>
      if entry.lsn ≤ writer.lastLsn then (.invalidArgument,writer,dir)
      else (.success,{ writer with lastLsn := toInt32 entry.lsn },dir.append name entry.bytes)

end LogFileWriter

structure LogFileManager where
  maxEntryNumberPerFile : Int
  logFiles : List (Int × FileName)

namespace LogFileManager

def emplace (lsn : Int) (name : FileName) : List (Int × FileName) → List (Int × FileName)
  | [] => [(lsn,name)]
  | file :: rest =>
    if lsn < file.1 then (lsn,name) :: file :: rest
    else if lsn = file.1 then file :: rest
    else file :: emplace lsn name rest

def init (maxEntryNumberPerFile : Int) (listing : Directory) : LogFileManager where
  maxEntryNumberPerFile := maxEntryNumberPerFile
  logFiles := listing.foldl (fun files file => match getLsnFromFilename file.1 with
    | none => files
    | some lsn => emplace lsn file.1 files) []

def listFiles (start : Int) (manager : LogFileManager) : List FileName :=
  (manager.logFiles.filter fun file => start ≤ file.1 + manager.maxEntryNumberPerFile - 1).map Prod.snd

def nextFile (manager : LogFileManager) (writer : LogFileWriter) (dir : Directory) : LogFileManager × LogFileWriter × Directory :=
  let lsn := match manager.logFiles.getLast? with
    | none => 0
    | some last => last.1 + manager.maxEntryNumberPerFile
  ({ manager with logFiles := emplace lsn (fileName lsn) manager.logFiles },
    writer.openFile (fileName lsn) (lsn + manager.maxEntryNumberPerFile - 1),dir.create (fileName lsn))

def lastFile (manager : LogFileManager) (writer : LogFileWriter) (dir : Directory) : LogFileManager × LogFileWriter × Directory :=
  match manager.logFiles.getLast? with
  | none => manager.nextFile writer dir
  | some last => (manager,writer.openFile last.2 (last.1 + manager.maxEntryNumberPerFile - 1),dir.create last.2)

end LogFileManager

end MiniOb.Clog
