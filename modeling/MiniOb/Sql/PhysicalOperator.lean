import MiniOb.Common.Types
import MiniOb.Lib.Prog

/-! Operators of a physical plan as their parents see them (`sql/operator/physical_operator.h`). -/
namespace MiniOb.Sql

structure PhysicalOperator (τ σ row : Type) where
  openOp : Option τ → Prog σ Exit Unit
  next : Prog σ Exit Unit
  close : Prog σ Exit Unit
  currentTuple : σ → Option row

/-- An operator that delivers `rows` each time it is opened. `pending` are the states in which a
list of rows is still to come; after the end of data only `close` is promised to work. -/
structure Delivers {τ σ row : Type} (op : PhysicalOperator τ σ row) (rows : List row) where
  closed : σ → Prop
  pending : List row → σ → Prop
  ended : σ → Prop
  opens : ∀ trx s, closed s → ∃ t, op.openOp trx s = (.ok (),t) ∧ pending rows t
  moves : ∀ x rest s, pending (x :: rest) s →
    ∃ t, op.next s = (.ok (),t) ∧ pending rest t ∧ op.currentTuple t = some x
  ends : ∀ s, pending [] s → ∃ t, op.next s = (.error (.rc .recordEof),t) ∧ ended t
  closes : ∀ s, ended s ∨ (∃ rest, pending rest s) → ∃ t, op.close s = (.ok (),t) ∧ closed t

structure RowList (row : Type) where
  rows : List row
  rest : Option (List row) := none
  current : Option row := none
  deriving DecidableEq, Repr

def rowList (row : Type) : PhysicalOperator Unit (RowList row) row where
  openOp _ s := (.ok (),{s with rest := some s.rows})
  next s := match s.rest with
    | some (x :: rest) => (.ok (),{s with rest := some rest,current := some x})
    | some [] => (.error (.rc .recordEof),s)
    | none => (.error (.rc .internal),s)
  close s := (.ok (),{s with rest := none})
  currentTuple := RowList.current

def rowListDelivers {row : Type} (rows : List row) : Delivers (rowList row) rows where
  closed s := s.rows = rows
  pending rest s := s.rows = rows ∧ s.rest = some rest
  ended s := s.rows = rows
  opens := by
    intro _ s same
    exact ⟨_,rfl,same,congrArg some same⟩
  moves := by
    intro x rest s ⟨same,left⟩
    exact ⟨{s with rest := some rest,current := some x},by simp [rowList,left],⟨same,rfl⟩,rfl⟩
  ends := by
    intro s ⟨same,left⟩
    exact ⟨s,by simp [rowList,left],same⟩
  closes := by
    intro s state
    rcases state with same | ⟨_,same,_⟩ <;> exact ⟨_,rfl,same⟩

end MiniOb.Sql
