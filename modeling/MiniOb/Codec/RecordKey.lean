import Mathlib.Data.List.TakeWhile
import MiniOb.Codec.OrderedInteger

/-! `Codec` and `LsmRecordScanner`: the keys of a table's rows in the LSM tree, and the scan of one table. -/
namespace MiniOb.OrderedCode
open List Oblsm Lexicographic

def tablePrefix : Bytes := [0x74]
def rowkeyPrefix : Bytes := [0x72]

def encodeWithoutRid (tableId : Int64) : Bytes := appendString tablePrefix ++ appendInt64 tableId

def encode (tableId : Int64) (rid : UInt64) : Bytes :=
  appendString tablePrefix ++ appendInt64 tableId ++ appendString rowkeyPrefix ++ appendUInt64 rid

def decode (encodedKey : Bytes) : Option Int64 := do
  let (_,sp) ← parseString .increasing encodedKey
  let (tableId,_) ← parseInt64 .increasing sp
  pure tableId

/-- `lsmIter` holds what the iterator has still to give: keys and values in key order. -/
structure LsmRecordScanner where
  tableId : Int64
  lsmIter : List (Bytes × Bytes)

/-- `seek` leaves the iterator at the first key that is not below its argument. -/
def openScan (tableId : Int64) (stored : List (Bytes × Bytes)) : LsmRecordScanner :=
  ⟨tableId,stored.dropWhile fun e => compareView e.1 (encodeWithoutRid tableId) < 0⟩

def LsmRecordScanner.next (scanner : LsmRecordScanner) : Option ((Bytes × Bytes) × LsmRecordScanner) :=
  match scanner.lsmIter with
  | [] => none
  | e :: rest =>
      if (decode e.1).getD 0 ≠ scanner.tableId then none
      else some (e,{scanner with lsmIter := rest})

def LsmRecordScanner.visits : Nat → LsmRecordScanner → List (Bytes × Bytes)
  | 0,_ => []
  | calls + 1,scanner =>
      match scanner.next with
      | none => []
      | some (e,scanner) => e :: scanner.visits calls

section
variable {t t' : Int64} {r r' : UInt64}

theorem directedIncreasing (s : Bytes) : directed .increasing s = s := by
  simp [directed,Direction.byte]

theorem appendInt64Length (x : Int64) : (appendInt64 x).length ≤ 10 := by
  obtain ⟨code,coded,isCode⟩ := appendInt64Coded x
  have size := coded.size.2
  rw [isCode]
  split
  · rwa [invert,length_map]
  · exact size

theorem decodeEncode (t : Int64) (r : UInt64) : decode (encode t r) = some t := by
  have table := appendInt64Length t
  have row := (shiftedOutLength (n := 8) r.toNat_lt).1
  have short : (appendString tablePrefix ++ (appendInt64 t ++ (appendString rowkeyPrefix ++ appendUInt64 r))).length < 2 ^ 31 := by
    simp [appendString,tablePrefix,rowkeyPrefix,appendUInt64]
    omega
  have string : parseString .increasing _ = _ :=
    parseStringIff.mpr (by rw [Int32.toInt_ofNat_of_lt short,length_append]; omega)
  have number := parseInt64Append .increasing t (appendString rowkeyPrefix ++ appendUInt64 r)
  rw [directedIncreasing] at string number
  simp [decode,encode,string,number]

theorem encodeNumbers : numbers (encode t r) = numbers (appendString tablePrefix) ++
    (numbers (appendInt64 t) ++ (numbers (appendString rowkeyPrefix) ++ numbers (appendUInt64 r))) := by
  simp [encode,numbers]

theorem encodeLt : numbers (encode t r) < numbers (encode t' r') ↔ t < t' ∨ t = t' ∧ r < r' := by
  rw [encodeNumbers,encodeNumbers,stringOrdered.ltIff,int64Ordered.ltIff,stringOrdered.ltIff,uint64Ordered.codeLt]
  simp

theorem encodeLtWithoutRid : numbers (encode t r) < numbers (encodeWithoutRid t') ↔ t < t' := by
  have whole : numbers (encodeWithoutRid t') = numbers (appendString tablePrefix) ++ (numbers (appendInt64 t') ++ []) := by
    simp [encodeWithoutRid,numbers]
  rw [encodeNumbers,whole,stringOrdered.ltIff,int64Ordered.ltIff]
  simp

theorem encodeInj (same : encode t r = encode t' r') : t = t' ∧ r = r' := by
  replace same := congrArg numbers same
  rw [encodeNumbers,encodeNumbers] at same
  obtain ⟨sameTable,rows⟩ := int64Ordered.unique (append_cancel_left same)
  have sameRow := uint64Ordered.unique (s := []) (t := []) (by simpa using append_cancel_left rows)
  exact ⟨sameTable,sameRow.1⟩

theorem splitClosed {α : Type*} {p : α → Bool} {l : List α} (closed : l.Pairwise fun a b => p b → p a) :
    l.takeWhile p = l.filter p ∧ l.dropWhile p = l.filter (!p ·) := by
  induction l with
  | nil => exact ⟨rfl,rfl⟩
  | cons a l ih =>
    obtain ⟨first,later⟩ := pairwise_cons.mp closed
    by_cases here : p a
    · simp [here,ih later]
    · have none : ∀ b ∈ l, p b = false := fun b inside => Bool.eq_false_iff.mpr fun there => here (first b inside there)
      have all : l.filter (!p ·) = l := filter_eq_self.mpr fun b inside => by simp [none b inside]
      simp [here,all]
      exact none

theorem visitsTakeWhile (scanner : LsmRecordScanner) (calls : Nat) (enough : scanner.lsmIter.length ≤ calls) :
    scanner.visits calls = scanner.lsmIter.takeWhile fun e => (decode e.1).getD 0 = scanner.tableId := by
  obtain ⟨table,rest⟩ := scanner
  induction rest generalizing calls with
  | nil => cases calls <;> rfl
  | cons e rest ih =>
    obtain _ | calls := calls
    · cases enough
    by_cases own : (decode e.1).getD 0 = table
    · simp [LsmRecordScanner.visits,LsmRecordScanner.next,own,ih calls (Nat.le_of_succ_le_succ enough)]
    · simp [LsmRecordScanner.visits,LsmRecordScanner.next,own]

/- The keys of one table stand together from `encodeWithoutRid` on. -/
def Together (stored : List (Bytes × Bytes)) (table : Int64) : Prop :=
  let own := stored.filter fun e => decode e.1 = some table
  (∃ before after, stored = before ++ (own ++ after) ∧ (∀ e ∈ before, compareView e.1 (encodeWithoutRid table) < 0) ∧
    ∀ e ∈ own ++ after, ¬ compareView e.1 (encodeWithoutRid table) < 0) ∧
  ∀ calls ≥ stored.length, (openScan table stored).visits calls = own

theorem tableRun {stored : List (Bytes × Bytes)} (coded : ∀ e ∈ stored, ∃ t r, e.1 = encode t r)
    (sorted : stored.Pairwise fun a b => compareView a.1 b.1 < 0) (table : Int64) : Together stored table := by
  unfold Together
  intro own
  have tableOf : ∀ e ∈ stored, ∃ t, decode e.1 = some t ∧ (compareView e.1 (encodeWithoutRid table) < 0 ↔ t.toInt < table.toInt) := by
    intro e inside
    obtain ⟨t,r,is⟩ := coded e inside
    rw [is,(compareViewSign _ _).1,encodeLtWithoutRid,Int64.lt_iff_toInt_lt]
    exact ⟨t,decodeEncode t r,Iff.rfl⟩
  have ordered : stored.Pairwise fun a b => ∀ t t', decode a.1 = some t → decode b.1 = some t' → t.toInt ≤ t'.toInt := by
    refine sorted.imp_of_mem fun {a b} inA inB less => ?_
    obtain ⟨t,r,isA⟩ := coded a inA
    obtain ⟨t',r',isB⟩ := coded b inB
    rw [isA,isB,(compareViewSign _ _).1,encodeLt,Int64.lt_iff_toInt_lt] at less
    rw [isA,isB,decodeEncode,decodeEncode]
    rintro _ _ ⟨⟩ ⟨⟩
    rcases less with below | ⟨rfl,-⟩
    · exact below.le
    · exact le_refl _
  let below := fun e : Bytes × Bytes => decide (compareView e.1 (encodeWithoutRid table) < 0)
  let mine := fun e : Bytes × Bytes => decide ((decode e.1).getD 0 = table)
  have rest : stored.dropWhile below = stored.filter (!below ·) := by
    refine (splitClosed (ordered.imp_of_mem fun {a b} inA inB atMost => ?_)).2
    obtain ⟨t,isA,lessA⟩ := tableOf a inA
    obtain ⟨t',isB,lessB⟩ := tableOf b inB
    have := atMost t t' isA isB
    simp only [below,decide_eq_true_eq,lessA,lessB]
    omega
  have run : (stored.dropWhile below).takeWhile mine = own := by
    rw [rest,(splitClosed (p := mine) ((ordered.filter _).imp_of_mem fun {a b} inA inB atMost => ?_)).1,filter_filter]
    · refine filter_congr fun e inside => ?_
      obtain ⟨t,is,less⟩ := tableOf e inside
      simp only [below,mine,less,is,Option.getD_some,Option.some.injEq]
      by_cases same : t = table <;> simp [same]
    · obtain ⟨inA,above⟩ := mem_filter.mp inA
      obtain ⟨t,isA,lessA⟩ := tableOf a inA
      obtain ⟨t',isB,-⟩ := tableOf b (mem_filter.mp inB).1
      have := atMost t t' isA isB
      simp only [below,mine,lessA,isA,isB,Option.getD_some,decide_eq_true_eq,Bool.not_eq_true',decide_eq_false_iff_not] at above ⊢
      rintro rfl
      exact Int64.toInt_inj.mp (by omega)
  refine ⟨⟨stored.takeWhile below,(stored.dropWhile below).dropWhile mine,?_,?_,?_⟩,fun calls enough => ?_⟩
  · rw [← run,takeWhile_append_dropWhile,takeWhile_append_dropWhile]
  · intro e inside
    simpa [below] using mem_takeWhile_imp inside
  · intro e inside
    rw [← run,takeWhile_append_dropWhile,rest] at inside
    simpa [below] using (mem_filter.mp inside).2
  · rw [visitsTakeWhile _ _ ((dropWhile_sublist _).length_le.trans enough)]
    exact run

end
end MiniOb.OrderedCode
