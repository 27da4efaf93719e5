import Mathlib.Tactic.SplitIfs
import MiniOb.Common.Types

/-! What a transaction sees of a record (`MvccTrx::visit_record` and `VacuousTrx::visit_record`). -/
namespace MiniOb

inductive ReadWriteMode where
  | readOnly
  | readWrite
  deriving DecidableEq, Repr

inductive Trx where
  | vacuous
  | mvcc (trxId : Int32)
  deriving DecidableEq, Repr

namespace Trx

def visitRecord (beginXid endXid : Int32) (mode : ReadWriteMode) : Trx → RC
  | vacuous => .success
  | mvcc trxId =>
    if 0 < beginXid ∧ 0 < endXid then
      if beginXid ≤ trxId ∧ trxId ≤ endXid then .success else .recordInvisible
    else if beginXid < 0 then
      if -beginXid = trxId then .success else .recordInvisible
    else if endXid < 0 then match mode with
      | .readOnly => if -endXid ≠ trxId then .success else .recordInvisible
      | .readWrite => if -endXid ≠ trxId then .lockedConcurrencyConflict else .recordInvisible
    else .success

theorem visitResults (trx : Trx) (beginXid endXid : Int32) (mode : ReadWriteMode) :
    trx.visitRecord beginXid endXid mode = .success ∨ trx.visitRecord beginXid endXid mode = .recordInvisible ∨
    trx.visitRecord beginXid endXid mode = .lockedConcurrencyConflict := by
  cases trx with
  | vacuous => exact .inl rfl
  | mvcc trxId =>
    cases mode <;> simp only [visitRecord] <;> split_ifs <;> simp

end Trx
end MiniOb
