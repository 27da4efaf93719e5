import Mathlib.Data.List.Lex
import Mathlib.Data.Prod.Lex
import MiniOb.Lib.Bytes

/-! Internal keys of the LSM tree: a user key followed by an eight-byte sequence number, and their comparator
(`oblsm/util/ob_coding.h`, `oblsm/util/ob_comparator.cpp`). -/
namespace MiniOb.Oblsm
open Bytes List

def seqSize : Nat := 8

structure InternalKey where
  bytes : Bytes
  sized : seqSize ≤ bytes.length
  deriving DecidableEq

def extractUserKey (key : InternalKey) : Bytes := key.bytes.take (key.bytes.length - seqSize)

def extractSequence (key : InternalKey) : UInt64 :=
  ((readInt64 (key.bytes.drop (key.bytes.length - seqSize))).map fun read => read.1.toUInt64).getD 0

def compareView : Bytes → Bytes → Int
  | [],[] => 0
  | [],_ :: _ => -1
  | _ :: _,[] => 1
  | a :: as,b :: bs => if a < b then -1 else if b < a then 1 else compareView as bs

def compareInternal (a b : InternalKey) : Int :=
  let r := compareView (extractUserKey a) (extractUserKey b)
  if r = 0 then
    if extractSequence b < extractSequence a then -1
    else if extractSequence a < extractSequence b then 1
    else r
  else r

def numbers (bytes : Bytes) : List Nat := bytes.map UInt8.toNat

theorem numbersInj (same : numbers a = numbers b) : a = b :=
  map_injective_iff.mpr (fun _ _ h => UInt8.toNat_inj.mp h) same

theorem compareViewSign (a b : Bytes) :
    (compareView a b < 0 ↔ numbers a < numbers b) ∧ (compareView a b = 0 ↔ a = b) := by
  induction a generalizing b with
  | nil => cases b <;> simp [compareView,numbers]
  | cons x xs ih =>
    cases b with
    | nil => simp [compareView,numbers]
    | cons y ys =>
      obtain ⟨less,same⟩ := ih ys
      simp only [compareView,numbers,map_cons,cons_lt_cons_iff,cons.injEq]
      rcases lt_trichotomy x.toNat y.toNat with below | equal | above
      · have distinct : x ≠ y := fun h => absurd (h ▸ below) (lt_irrefl _)
        simp [UInt8.lt_iff_toNat_lt,below,distinct]
      · cases UInt8.toNat_inj.mp equal
        simpa [numbers,UInt8.lt_iff_toNat_lt] using And.intro less same
      · have distinct : x ≠ y := fun h => absurd (h ▸ above) (lt_irrefl _)
        simp [UInt8.lt_iff_toNat_lt,above,distinct,not_lt.mpr (le_of_lt above),ne_of_gt above]

theorem compareViewLe (a b : Bytes) : compareView a b ≤ 0 ↔ numbers a ≤ numbers b := by
  obtain ⟨less,same⟩ := compareViewSign a b
  rw [le_iff_lt_or_eq,le_iff_lt_or_eq,less,same]
  constructor
  · rintro (below | rfl)
    · exact .inl below
    · exact .inr rfl
  · rintro (below | equal)
    · exact .inl below
    · exact .inr (numbersInj equal)

namespace InternalKey

theorem ext' (user : extractUserKey a = extractUserKey b)
    (sequence : extractSequence a = extractSequence b) : a = b := by
  have parts : ∀ k : InternalKey,∃ n,k.bytes = extractUserKey k ++ ofInt64 n ∧ extractSequence k = n.toUInt64 := by
    intro k
    have size : (k.bytes.drop (k.bytes.length - seqSize)).length = 8 := by
      have sized := k.sized
      simp only [seqSize] at sized
      simp only [length_drop,seqSize]
      omega
    cases read : readInt64 (k.bytes.drop (k.bytes.length - seqSize)) with
    | none =>
      have short := readInt64None read
      omega
    | some pair =>
      obtain ⟨n,rest⟩ := pair
      have whole := readInt64Sound read
      have empty : rest = [] := by
        rw [whole,length_append,lengthOfInt64] at size
        exact length_eq_zero_iff.mp (by omega)
      rw [empty,append_nil] at whole
      refine ⟨n,?_,by simp [extractSequence,read]⟩
      rw [← whole,extractUserKey,take_append_drop]
  obtain ⟨m,bytesA,readA⟩ := parts a
  obtain ⟨n,bytesB,readB⟩ := parts b
  have number : m = n := congrArg Int64.ofUInt64 (readA.symm.trans (sequence.trans readB))
  have bytes : a.bytes = b.bytes := by rw [bytesA,bytesB,user,number]
  cases a
  cases b
  cases bytes
  rfl

instance : LinearOrder InternalKey :=
  LinearOrder.lift' (fun key : InternalKey =>
    toLex (numbers (extractUserKey key),OrderDual.toDual (extractSequence key).toNat)) (by
    intro a b same
    have parts := Prod.ext_iff.mp (toLex.injective same)
    exact ext' (numbersInj parts.1) (UInt64.toNat_inj.mp (OrderDual.toDual.injective parts.2)))

theorem ltIff : a < b ↔ numbers (extractUserKey a) < numbers (extractUserKey b) ∨
    extractUserKey a = extractUserKey b ∧ extractSequence b < extractSequence a := by
  have unfolded : a < b ↔ toLex (numbers (extractUserKey a),OrderDual.toDual (extractSequence a).toNat) <
      toLex (numbers (extractUserKey b),OrderDual.toDual (extractSequence b).toNat) := Iff.rfl
  rw [unfolded,Prod.Lex.toLex_lt_toLex]
  constructor
  · rintro (below | ⟨same,newer⟩)
    · exact .inl below
    · exact .inr ⟨numbersInj same,UInt64.lt_iff_toNat_lt.mpr newer⟩
  · rintro (below | ⟨same,newer⟩)
    · exact .inl below
    · exact .inr ⟨congrArg numbers same,UInt64.lt_iff_toNat_lt.mp newer⟩

theorem compareSign (a b : InternalKey) : compareInternal a b < 0 ↔ a < b := by
  obtain ⟨less,same⟩ := compareViewSign (extractUserKey a) (extractUserKey b)
  rw [ltIff]
  unfold compareInternal
  dsimp only
  split
  · rename_i equal
    have user := same.mp equal
    have level : ¬ numbers (extractUserKey a) < numbers (extractUserKey b) := by rw [user]; exact lt_irrefl _
    split
    · rename_i newer
      simp [user,newer]
    · rename_i older
      split <;> simp [level,older,equal]
  · rename_i different
    have user : extractUserKey a ≠ extractUserKey b := fun h => different (same.mpr h)
    simp [less,user]

end InternalKey
end MiniOb.Oblsm
