import Mathlib.Algebra.Group.Int.Defs
import Mathlib.Algebra.Group.Nat.Defs
import Mathlib.Data.Prod.Lex

/-! Types and return codes shared by the storage modules (`common/types.h`,
`common/sys/rc.h`, `storage/buffer/page.h`, `storage/record/record.h`). -/
namespace MiniOb

/-- The codes of `common/sys/rc.h`, in its order. -/
inductive RC where
  | success
  | invalidArgument
  | unimplemented
  | sqlSyntax
  | internal
  | nomem
  | notfound
  | empty
  | full
  | exist
  | notExist
  | bufferpoolOpen
  | bufferpoolNobuf
  | bufferpoolInvalidPageNum
  | recordOpenned
  | recordInvalidRid
  | recordInvalidKey
  | recordDuplicateKey
  | recordNomem
  | recordEof
  | recordNotExist
  | recordInvisible
  | schemaDbExist
  | schemaDbNotExist
  | schemaDbNotOpened
  | schemaTableNotExist
  | schemaTableExist
  | schemaFieldNotExist
  | schemaFieldMissing
  | schemaFieldTypeMismatch
  | schemaIndexNameRepeat
  | ioerrRead
  | ioerrWrite
  | ioerrAccess
  | ioerrOpen
  | ioerrClose
  | ioerrSeek
  | ioerrTooLong
  | ioerrSync
  | lockedUnlock
  | lockedNeedWait
  | lockedConcurrencyConflict
  | fileExist
  | fileNotExist
  | fileName
  | fileBound
  | fileCreate
  | fileOpen
  | fileNotOpened
  | fileClose
  | fileRemove
  | variableNotExists
  | variableNotValid
  | logbufFull
  | logFileFull
  | logEntryInvalid
  | jsonParseFailed
  | jsonMemberMissing
  | rangeError
  | walInvalidFilename
  | inputEof
  | invalidToken
  | unexpectedEndOfString
  | syntaxError
  | unsupported
  deriving DecidableEq, Repr

/-- How a call ends when it does not end with `RC::SUCCESS`. `abort` stands for a failed
assertion or an invalid memory access: the process dies and no caller sees a code. -/
inductive Exit where
  | rc (code : RC)
  | abort
  deriving DecidableEq, Repr

def Exit.isCode : Exit → Bool
  | .rc _ => true
  | .abort => false

abbrev PageNum := Int32
abbrev SlotNum := Int32
abbrev LSN := Nat

def natOf (n : Int32) : Nat := n.toInt.toNat

theorem natOfOfNat (small : n < 2 ^ 31) : natOf (Int32.ofNat n) = n := by
  simp [natOf,Int32.toInt_ofNat_of_lt small]

theorem natOfInj (positive : 0 < natOf a) (same : natOf a = natOf b) : a = b := by
  unfold natOf at positive same
  exact Int32.toInt_inj.mp (by omega)

def bpInvalidPageNum : PageNum := -1
def bpHeaderPage : PageNum := 0
def bpPageSize : Nat := 2 ^ 13
def bpPageDataSize : Nat := bpPageSize - 8 - 4

structure RID where
  pageNum : PageNum
  slotNum : SlotNum
  deriving DecidableEq, Repr

namespace RID

/-- `RID::compare`: differences of 32-bit integers, which wrap. -/
def compare (a b : RID) : Int :=
  let pageDiff := a.pageNum - b.pageNum
  if pageDiff ≠ 0 then pageDiff.toInt else (a.slotNum - b.slotNum).toInt

instance : LinearOrder RID :=
  LinearOrder.lift' (fun rid : RID => toLex (rid.pageNum.toInt,rid.slotNum.toInt)) (by
    intro a b same
    have parts := Prod.ext_iff.mp (toLex.injective same)
    cases a
    cases b
    simpa [Int32.toInt_inj] using parts)

def Ordinary (rid : RID) : Prop := 0 ≤ rid.pageNum.toInt ∧ 0 ≤ rid.slotNum.toInt
  deriving Decidable

def min : RID := ⟨0,0⟩
def max : RID := ⟨Int32.maxValue,Int32.maxValue⟩

end RID

theorem ridLt {a b : RID} : a < b ↔ a.pageNum.toInt < b.pageNum.toInt ∨
    a.pageNum.toInt = b.pageNum.toInt ∧ a.slotNum.toInt < b.slotNum.toInt := by
  show toLex (a.pageNum.toInt,a.slotNum.toInt) < toLex (b.pageNum.toInt,b.slotNum.toInt) ↔ _
  rw [Prod.Lex.toLex_lt_toLex]

end MiniOb
