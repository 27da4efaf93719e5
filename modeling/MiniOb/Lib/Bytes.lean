import Mathlib.Order.Defs.LinearOrder

/-! Fixed-width integers as bytes, least significant byte first, and reading a prefix
of a byte string. -/
namespace MiniOb
open UInt8 (ofNat toNat_ofNat')
open List

abbrev Bytes := List UInt8

namespace Bytes

def ofInt32 (n : Int32) : Bytes :=
  let b := n.toBitVec.toNat
  [ofNat b,ofNat (b / 256),ofNat (b / 65536),ofNat (b / 16777216)]

def readInt32 : Bytes → Option (Int32 × Bytes)
  | a :: b :: c :: d :: rest =>
      some (Int32.ofBitVec (BitVec.ofNat 32 (a.toNat + 256 * b.toNat + 65536 * c.toNat + 16777216 * d.toNat)),rest)
  | _ => none

def read (n : Nat) (bytes : Bytes) : Option (Bytes × Bytes) :=
  if n ≤ bytes.length then some (bytes.take n,bytes.drop n) else none

@[simp] theorem lengthOfInt32 (n : Int32) : (ofInt32 n).length = 4 := rfl

theorem int32FromBytes (n : Int32) :
    Int32.ofBitVec (BitVec.ofNat 32 (n.toBitVec.toNat % 256 + 256 * (n.toBitVec.toNat / 256 % 256) +
      65536 * (n.toBitVec.toNat / 65536 % 256) + 16777216 * (n.toBitVec.toNat / 16777216 % 256))) = n := by
  have digits : n.toBitVec.toNat % 256 + 256 * (n.toBitVec.toNat / 256 % 256) +
      65536 * (n.toBitVec.toNat / 65536 % 256) + 16777216 * (n.toBitVec.toNat / 16777216 % 256) =
      n.toBitVec.toNat := by omega
  rw [digits,BitVec.ofNat_toNat,BitVec.setWidth_eq]
  rfl

theorem readInt32Append (n : Int32) (rest : Bytes) : readInt32 (ofInt32 n ++ rest) = some (n,rest) := by
  simp only [ofInt32,cons_append,nil_append,readInt32,toNat_ofNat']
  rw [int32FromBytes n]

theorem readAppend (size : bytes.length = n) (rest : Bytes) :
    read n (bytes ++ rest) = some (bytes,rest) := by
  subst size
  simp [read]

theorem readInt32None (failed : readInt32 bytes = none) : bytes.length < 4 := by
  rcases bytes with - | ⟨a,- | ⟨b,- | ⟨c,- | ⟨d,rest⟩⟩⟩⟩ <;> simp [readInt32] at failed ⊢

theorem readInt32Sound (ok : readInt32 bytes = some (n,rest)) : bytes = ofInt32 n ++ rest := by
  match bytes,ok with
  | a :: b :: c :: d :: tail,ok =>
    obtain ⟨rfl,rfl⟩ := ok
    have boundA := a.toNat_lt
    have boundB := b.toNat_lt
    have boundC := c.toNat_lt
    have boundD := d.toNat_lt
    have value : (a.toNat + 256 * b.toNat + 65536 * c.toNat + 16777216 * d.toNat) % 2 ^ 32 =
        a.toNat + 256 * b.toNat + 65536 * c.toNat + 16777216 * d.toNat := Nat.mod_eq_of_lt (by omega)
    simp only [ofInt32,Int32.toBitVec_ofBitVec,BitVec.toNat_ofNat,value,cons_append,nil_append,cons.injEq,and_true]
    refine ⟨?_,?_,?_,?_⟩ <;> apply UInt8.toNat_inj.mp <;> rw [toNat_ofNat'] <;> omega

def ofInt64 (n : Int64) : Bytes :=
  let b := n.toBitVec.toNat
  [ofNat b,ofNat (b / 256),ofNat (b / 65536),ofNat (b / 16777216),
    ofNat (b / 4294967296),ofNat (b / 1099511627776),ofNat (b / 281474976710656),
    ofNat (b / 72057594037927936)]

def readInt64 : Bytes → Option (Int64 × Bytes)
  | a :: b :: c :: d :: e :: f :: g :: h :: rest =>
      some (Int64.ofBitVec (BitVec.ofNat 64
        (a.toNat + 256 * b.toNat + 65536 * c.toNat + 16777216 * d.toNat + 4294967296 * e.toNat +
          1099511627776 * f.toNat + 281474976710656 * g.toNat + 72057594037927936 * h.toNat)),rest)
  | _ => none

@[simp] theorem lengthOfInt64 (n : Int64) : (ofInt64 n).length = 8 := rfl

theorem readInt64Append (n : Int64) (rest : Bytes) : readInt64 (ofInt64 n ++ rest) = some (n,rest) := by
  simp only [ofInt64,cons_append,nil_append,readInt64,toNat_ofNat',Option.some.injEq,Prod.mk.injEq,and_true]
  apply Int64.toBitVec_inj.mp
  apply BitVec.eq_of_toNat_eq
  rw [Int64.toBitVec_ofBitVec,BitVec.toNat_ofNat]
  omega

theorem readInt64None (failed : readInt64 bytes = none) : bytes.length < 8 := by
  rcases bytes with - | ⟨a,- | ⟨b,- | ⟨c,- | ⟨d,- | ⟨e,- | ⟨f,- | ⟨g,- | ⟨h,rest⟩⟩⟩⟩⟩⟩⟩⟩ <;> simp [readInt64] at failed ⊢

theorem readInt64Sound (ok : readInt64 bytes = some (n,rest)) : bytes = ofInt64 n ++ rest := by
  match bytes,ok with
  | a :: b :: c :: d :: e :: f :: g :: h :: tail,ok =>
    obtain ⟨rfl,rfl⟩ := ok
    have boundA := a.toNat_lt
    have boundB := b.toNat_lt
    have boundC := c.toNat_lt
    have boundD := d.toNat_lt
    have boundE := e.toNat_lt
    have boundF := f.toNat_lt
    have boundG := g.toNat_lt
    have boundH := h.toNat_lt
    simp only [ofInt64,Int64.toBitVec_ofBitVec,BitVec.toNat_ofNat,cons_append,nil_append,cons.injEq,and_true]
    refine ⟨?_,?_,?_,?_,?_,?_,?_,?_⟩ <;> apply UInt8.toNat_inj.mp <;> rw [toNat_ofNat'] <;> omega

def readMany {α : Type} (one : Bytes → Option (α × Bytes)) : Nat → Bytes → Option (List α × Bytes)
  | 0,bytes => some ([],bytes)
  | n+1,bytes => do
    let (a,rest) ← one bytes
    let (list,rest) ← readMany one n rest
    some (a :: list,rest)

theorem readManyAppend
    (back : ∀ a ∈ list,∀ rest,one (bytes a ++ rest) = some (a,rest)) (rest : Bytes) :
    readMany one list.length (list.flatMap bytes ++ rest) = some (list,rest) := by
  induction list with
  | nil => rfl
  | cons a list ih =>
    have first := back a (by simp)
    have later := ih fun b inside => back b (by simp [inside])
    simp only [length_cons,flatMap_cons,append_assoc,readMany,first,later,Option.bind_eq_bind,Option.bind_some]

end Bytes
end MiniOb
