import MiniOb.Lib.Bytes
import Mathlib.Data.List.Find
import Mathlib.Data.List.Range

/-! The bitmap of the pages of a file and of the records of a page (`bitmap.cpp`). -/
namespace MiniOb
open List

structure Bitmap where
  bitmap : Nat → UInt8
  size : Nat

namespace Bitmap

def findFirstZero (byte : UInt8) (start : Nat) : Option Nat :=
  (range' start (8 - start)).find? fun i => !byte.toNat.testBit i

def findFirstSetted (byte : UInt8) (start : Nat) : Option Nat :=
  (range' start (8 - start)).find? fun i => byte.toNat.testBit i

def bytes (size : Nat) : Nat := if size % 8 = 0 then size / 8 else size / 8 + 1

def getBit (index : Nat) (bits : Bitmap) : Bool := (bits.bitmap (index / 8)).toNat.testBit (index % 8)

def searchBytes (skip : UInt8) (find : UInt8 → Nat → Option Nat) (bits : Bitmap) : List Nat → Nat → Option Nat
  | [],_ => none
  | iter :: rest,startInByte =>
    match (if bits.bitmap iter ≠ skip then find (bits.bitmap iter) startInByte else none) with
    | some index => some (iter * 8 + index)
    | none => searchBytes skip find bits rest 0

/-- None where the source answers -1. -/
def next (skip : UInt8) (find : UInt8 → Nat → Option Nat) (start : Nat) (bits : Bitmap) : Option Nat :=
  (bits.searchBytes skip find (range' (start / 8) (bytes bits.size - start / 8)) (start % 8)).filter (· < bits.size)

def nextUnsettedBit : Nat → Bitmap → Option Nat := next 255 findFirstZero

def nextSettedBit : Nat → Bitmap → Option Nat := next 0 findFirstSetted

/-! Both search the bits one by one. -/

variable {bits : Bitmap} {skip : UInt8} {find : UInt8 → Nat → Option Nat} {wanted : Bool → Bool}

structure Finds (skip : UInt8) (find : UInt8 → Nat → Option Nat) (wanted : Bool → Bool) : Prop where
  byte : ∀ byte start, find byte start = (range' start (8 - start)).find? fun i => wanted (byte.toNat.testBit i)
  skipped : ∀ i < 8, wanted (skip.toNat.testBit i) = false

theorem findsZero : Finds 255 findFirstZero (!·) := ⟨fun _ _ => rfl,by decide⟩

theorem findsSetted : Finds 0 findFirstSetted id := ⟨fun _ _ => rfl,by decide⟩

theorem Finds.inByte (finds : Finds skip find wanted) (byte : UInt8) (start : Nat) :
    (if byte ≠ skip then find byte start else none) = (range' start (8 - start)).find? fun i => wanted (byte.toNat.testBit i) := by
  split
  · exact finds.byte byte start
  · rename_i same
    rw [not_not.mp same,eq_comm,find?_eq_none]
    intro i inside
    rw [finds.skipped i (by have := mem_range'_1.mp inside; omega)]
    exact Bool.false_ne_true

theorem findInByte (iter start : Nat) :
    ((range' start (8 - start)).find? fun i => wanted ((bits.bitmap iter).toNat.testBit i)).map (iter * 8 + ·) =
      (range' (iter * 8 + start) (8 - start)).find? fun i => wanted (bits.getBit i) := by
  rw [← map_add_range',find?_map]
  congr 1
  refine find?_congr fun i inside => ?_
  have less := mem_range'_1.mp inside
  show wanted _ = wanted (bits.getBit (iter * 8 + i))
  rw [getBit,show (iter * 8 + i) / 8 = iter by omega,show (iter * 8 + i) % 8 = i by omega]

theorem Finds.search (finds : Finds skip find wanted) (count first start : Nat) (less : start < 8) :
    bits.searchBytes skip find (range' first count) start =
      (range' (first * 8 + start) (count * 8 - start)).find? fun i => wanted (bits.getBit i) := by
  induction count generalizing first start with
  | zero => simp [searchBytes]
  | succ count ih =>
    have parts : range' (first * 8 + start) ((count + 1) * 8 - start) =
        range' (first * 8 + start) (8 - start) ++ range' ((first + 1) * 8 + 0) (count * 8 - 0) := by
      rw [show (first + 1) * 8 + 0 = first * 8 + start + 1 * (8 - start) by omega,range'_append]
      congr 1
      omega
    rw [range'_succ,searchBytes,finds.inByte,parts,find?_append,← findInByte,ih (first + 1) 0 (by omega)]
    cases (range' start (8 - start)).find? fun i => wanted ((bits.bitmap first).toNat.testBit i) with
    | some index => rfl
    | none => rfl

theorem Finds.next (finds : Finds skip find wanted) (start : Nat) :
    bits.next skip find start = (range' start (bits.size - start)).find? fun i => wanted (bits.getBit i) := by
  have rounded : bits.size ≤ bytes bits.size * 8 := by
    unfold bytes
    split <;> omega
  unfold Bitmap.next
  rw [finds.search _ _ _ (Nat.mod_lt _ (by decide)),show start / 8 * 8 + start % 8 = start by omega]
  have parts : range' start ((bytes bits.size - start / 8) * 8 - start % 8) =
      range' start (bits.size - start) ++
        range' (start + (bits.size - start)) ((bytes bits.size - start / 8) * 8 - start % 8 - (bits.size - start)) := by
    rw [show start + (bits.size - start) = start + 1 * (bits.size - start) by omega,range'_append]
    congr 1
    omega
  rw [parts,find?_append]
  cases found : (range' start (bits.size - start)).find? fun i => wanted (bits.getBit i) with
  | some i =>
    have less := mem_range'_1.mp (mem_of_find?_eq_some found)
    rw [Option.some_or,Option.filter_some_pos (by simpa using (by omega : i < bits.size))]
  | none =>
    rw [Option.none_or,Option.filter_eq_none_iff]
    intro i later
    have above := mem_range'_1.mp (mem_of_find?_eq_some later)
    simp only [decide_eq_true_eq]
    omega

theorem nextUnsettedBitFind (start : Nat) :
    bits.nextUnsettedBit start = (range' start (bits.size - start)).find? fun i => !bits.getBit i := findsZero.next start

theorem nextSettedBitFind (start : Nat) :
    bits.nextSettedBit start = (range' start (bits.size - start)).find? fun i => bits.getBit i := findsSetted.next start

def setted (start : Nat) (bits : Bitmap) : List Nat := (range' start (bits.size - start)).filter fun i => bits.getBit i

theorem filterFind (wanted : Nat → Bool) (start count : Nat) :
    (range' start count).filter wanted = match (range' start count).find? wanted with
      | some i => i :: (range' (i + 1) (start + count - (i + 1))).filter wanted
      | none => [] := by
  induction count generalizing start with
  | zero => rfl
  | succ count ih =>
    rw [range'_succ]
    cases here : wanted start with
    | true =>
      rw [filter_cons_of_pos here,find?_cons_of_pos here]
      dsimp only
      rw [show start + (count + 1) - (start + 1) = count by omega]
    | false =>
      rw [filter_cons_of_neg (by simp [here]),find?_cons_of_neg (by simp [here]),ih,
        show start + 1 + count = start + (count + 1) by omega]

theorem settedNext (start : Nat) : bits.setted start = match bits.nextSettedBit start with
      | some i => i :: bits.setted (i + 1)
      | none => [] := by
  rw [setted,filterFind,nextSettedBitFind]
  cases found : (range' start (bits.size - start)).find? fun i => bits.getBit i with
  | none => rfl
  | some i =>
    have inside := mem_range'_1.mp (mem_of_find?_eq_some found)
    dsimp only
    rw [show start + (bits.size - start) - (i + 1) = bits.size - (i + 1) by omega]
    rfl

/- The least index not below `start` whose bit is wanted. -/
def IsNext (wanted : Bool → Bool) (start : Nat) (bits : Bitmap) : Option Nat → Prop
  | some i => start ≤ i ∧ i < bits.size ∧ wanted (bits.getBit i) ∧ ∀ j, start ≤ j → j < i → ¬wanted (bits.getBit j)
  | none => ∀ j, start ≤ j → j < bits.size → ¬wanted (bits.getBit j)

theorem Finds.isNext (finds : Finds skip find wanted) (start : Nat) : IsNext wanted start bits (bits.next skip find start) := by
  rw [finds.next]
  cases found : (range' start (bits.size - start)).find? fun i => wanted (bits.getBit i) with
  | some i =>
    obtain ⟨set,inside,before⟩ := find?_range'_eq_some.mp found
    have := mem_range'_1.mp inside
    exact ⟨by omega,by omega,set,fun j first below => by simpa using before j first below⟩
  | none => exact fun j first below => find?_eq_none.mp found j (mem_range'_1.mpr (by omega))

end Bitmap

/-! The iterator over the allocated pages of a file (`disk_buffer_pool.cpp`). -/

structure BufferPoolIterator where
  bitmap : Bitmap
  currentPageNum : Int

namespace BufferPoolIterator

def init (bits : Bitmap) (startPage : Int) : BufferPoolIterator := ⟨bits,if startPage ≤ 0 then -1 else startPage - 1⟩

def hasNext (pages : BufferPoolIterator) : Bool := (pages.bitmap.nextSettedBit (pages.currentPageNum + 1).toNat).isSome

def next (pages : BufferPoolIterator) : Option Nat × BufferPoolIterator :=
  match pages.bitmap.nextSettedBit (pages.currentPageNum + 1).toNat with
  | some page => (some page,{ pages with currentPageNum := page })
  | none => (none,pages)

/- What `while (has_next()) next()` visits. -/
inductive Visits : BufferPoolIterator → List Nat → Prop where
  | done (last : hasNext s = false) : Visits s []
  | page (more : hasNext s = true) (visited : next s = (some page,t)) (later : Visits t rest) : Visits s (page :: rest)

theorem visitsIff (bits : Bitmap) (start : Nat) (current : Int) (before : current + 1 = start) (pages : List Nat) :
    Visits ⟨bits,current⟩ pages ↔ pages = bits.setted start := by
  have here : (current + 1).toNat = start := by omega
  induction pages generalizing start current with
  | nil =>
    rw [Bitmap.settedNext]
    constructor
    · rintro ⟨last⟩
      rw [hasNext,here,Option.isSome_eq_false_iff,Option.isNone_iff_eq_none] at last
      rw [last]
    · intro none
      refine .done ?_
      rw [hasNext,here]
      cases found : bits.nextSettedBit start with
      | none => rfl
      | some page => simp [found] at none
  | cons page rest ih =>
    rw [Bitmap.settedNext]
    constructor
    · rintro (_ | ⟨more,visited,later⟩)
      rw [next,here] at visited
      cases found : bits.nextSettedBit start with
      | none => simp [found] at visited
      | some page =>
        simp only [found,Prod.mk.injEq,Option.some.injEq] at visited
        obtain ⟨rfl,rfl⟩ := visited
        rw [(ih (page + 1) page rfl (by omega)).mp later]
    · intro same
      cases found : bits.nextSettedBit start with
      | none => simp [found] at same
      | some page =>
        simp only [found,cons.injEq] at same
        obtain ⟨rfl,rfl⟩ := same
        have later := (ih (page + 1) page rfl (by omega)).mpr rfl
        exact .page (by simp [hasNext,here,found]) (by simp [next,here,found]) later

theorem bitsFoundPagesVisited (bits : Bitmap) :
    (∀ start, bits.IsNext id start (bits.nextSettedBit start) ∧ bits.IsNext (!·) start (bits.nextUnsettedBit start)) ∧
    ∀ startPage, ∃ pages, (∀ visited, Visits (init bits startPage) visited ↔ visited = pages) ∧ pages.Pairwise (· < ·) ∧
      ∀ page : Nat, page ∈ pages ↔ startPage ≤ page ∧ page < bits.size ∧ bits.getBit page := by
  refine ⟨fun start => ⟨Bitmap.findsSetted.isNext start,Bitmap.findsZero.isNext start⟩,fun startPage => ?_⟩
  refine ⟨bits.setted startPage.toNat,visitsIff _ _ _ (by split <;> omega),?_,fun page => ?_⟩
  · exact Pairwise.filter _ (pairwise_lt_range' (s := startPage.toNat) (n := bits.size - startPage.toNat))
  · rw [Bitmap.setted,mem_filter,mem_range'_1,← and_assoc]
    refine and_congr ?_ Iff.rfl
    omega

end BufferPoolIterator
end MiniOb
