import Mathlib.Data.FinEnum
import Mathlib.Tactic.IntervalCases
import MiniOb.Codec.OrderedString

/-! `OrderedCode`: integers written so that the bytes sort as the numbers do (`storage/common/codec.h`). -/
namespace MiniOb.OrderedCode
open List Oblsm Lexicographic

/-- The loop that shifts a number out byte by byte; the last bytes are written first. -/
def shiftedOut : Nat → Nat → Bytes
  | 0,_ => []
  | n + 1,x => if x = 0 then [] else shiftedOut n (x / 256) ++ [UInt8.ofNat x]

def appendUInt64 (x : UInt64) : Bytes :=
  let buf := shiftedOut 8 x.toNat
  UInt8.ofNat buf.length :: buf

def parseUInt64 (dir : Direction) : Bytes → Option (UInt64 × Bytes)
  | [] => none
  | c :: s =>
      let n := (c ^^^ dir.byte).toNat
      if 8 < n ∨ (Int32.ofNat (s.length + 1)).toInt < 1 + n then none
      else some (UInt64.ofNat ((s.take n).foldl (fun x c => x * 256 + (c ^^^ dir.byte).toNat) 0),s.drop n)

def msb (n : Nat) : UInt8 := [0x00,0x80,0xc0,0xe0,0xf0,0xf8,0xfc,0xfe].getD n 0x00

/-- The bytes of a number from 64 on, with as many leading ones as there are bytes in all. -/
def marked (buf : Bytes) : Bytes :=
  let lfb : Bool := 7 < buf.length + 1
  let n := if lfb then buf.length + 1 - 7 else buf.length + 1
  let (n,buf) := if (buf.headD 0x00).toNat < 1 <<< (8 - n) then (n - 1,buf) else (n,0x00 :: buf)
  let buf := (buf.headD 0x00 ||| msb n) :: buf.tail
  if lfb then 0xff :: buf else buf

def appendInt64 (x : Int64) : Bytes :=
  if -64 ≤ x ∧ x < 64 then [(x ^^^ 0x80).toInt8.toUInt8]
  else if x < 0 then invert (marked (shiftedOut 8 (~~~x).toInt.toNat))
  else marked (shiftedOut 8 x.toInt.toNat)

def leadingOnes : Nat → UInt8 → UInt8 → Nat → UInt8 × Nat
  | 0,_,c,n => (c,n)
  | fuel + 1,mask,c,n => if c &&& mask = 0 then (c,n) else leadingOnes fuel (mask >>> 1) (c &&& ~~~mask) (n + 1)

def parseDigits (dir : UInt8) (s : Bytes) : UInt8 × Nat → Option (Int64 × Bytes)
  | (c,n) =>
      if s.length < n then none
      else some (Int64.ofNat ((s.tail.take (n - 1)).foldl (fun x c => x * 256 + (c ^^^ dir).toNat) c.toNat),s.drop n)

def parseMarked (dir : UInt8) (s : Bytes) : Option (Int64 × Bytes) :=
  let c := s.headD 0x00 ^^^ dir
  if c = 0xff then
    if s.length = 1 then none
    else
      let c := s.tail.headD 0x00 ^^^ dir
      if 0xc0 < c then none else parseDigits dir s.tail (leadingOnes 8 0x80 c 7)
  else parseDigits dir s (leadingOnes 8 0x80 c 0)

def parseInt64 (dir : Direction) (s : Bytes) : Option (Int64 × Bytes) :=
  let c := s.headD 0x00 ^^^ dir.byte
  if s = [] then none
  else if 0x40 ≤ c ∧ c < 0xc0 then some ((c ^^^ 0x80).toInt8.toInt64,s.drop 1)
  else if c &&& 0x80 = 0 then (parseMarked (~~~dir.byte) s).map fun (x,rest) => (~~~x,rest)
  else parseMarked dir.byte s

/-! ### The digits of a code -/

section
variable {code code' buf : Bytes} {x y y' n : Nat}

theorem small (bytes : Bytes) : ∀ d ∈ numbers bytes, d < 256 := by
  intro d inside
  obtain ⟨c,-,rfl⟩ := mem_map.mp inside
  exact c.toNat_lt

theorem lengthNumbers (bytes : Bytes) : (numbers bytes).length = bytes.length := length_map ..

theorem shiftedOutValue (fits : x < 256 ^ n) : value 256 (numbers (shiftedOut n x)) = x := by
  induction n generalizing x with
  | zero => simp_all [shiftedOut,numbers,value]
  | succ n ih =>
    by_cases none : x = 0
    · simp [shiftedOut,none,numbers,value]
    · have upper := ih (x := x / 256) (by omega)
      simp only [numbers] at upper
      simp [shiftedOut,none,numbers,valueAppend,upper,value]
      omega

theorem shiftedOutLength (fits : x < 256 ^ n) : (shiftedOut n x).length ≤ n ∧ (x ≠ 0 → 256 ^ (shiftedOut n x).length ≤ 256 * x) := by
  induction n generalizing x with
  | zero => simp_all [shiftedOut]
  | succ n ih =>
    by_cases none : x = 0
    · simp [shiftedOut,none]
    · obtain ⟨short,least⟩ := ih (x := x / 256) (by omega)
      simp only [shiftedOut,none,if_false,length_append,length_singleton]
      refine ⟨by omega,fun _ => ?_⟩
      by_cases last : x / 256 = 0
      · have : shiftedOut n (x / 256) = [] := by cases n <;> simp [shiftedOut,last]
        rw [this]
        simp
        omega
      · have := least last
        rw [pow_succ]
        omega

theorem foldMasked (mask : UInt8) (buf : Bytes) (x : Nat) :
    (buf.map (· ^^^ mask)).foldl (fun x c => x * 256 + (c ^^^ mask).toNat) x = x * 256 ^ buf.length + value 256 (numbers buf) := by
  induction buf generalizing x with
  | nil => simp [numbers,value]
  | cons c buf ih =>
    rw [map_cons,foldl_cons,ih,xor_cancel_right,length_cons,pow_succ]
    simp only [numbers,map_cons,value,length_map]
    ring

/-! ### Unsigned integers -/

theorem appendUInt64Lt {x y : UInt64} (less : x < y) (s t : List Nat) :
    numbers (appendUInt64 x) ++ s < numbers (appendUInt64 y) ++ t := by
  have less := UInt64.lt_iff_toNat_lt.mp less
  have valueX := shiftedOutValue (n := 8) x.toNat_lt
  have valueY := shiftedOutValue (n := 8) y.toNat_lt
  obtain ⟨shortX,leastX⟩ := shiftedOutLength (n := 8) x.toNat_lt
  obtain ⟨shortY,leastY⟩ := shiftedOutLength (n := 8) y.toNat_lt
  have empty : x.toNat = 0 → shiftedOut 8 x.toNat = [] := fun none => by rw [none]; rfl
  simp only [appendUInt64]
  generalize shiftedOut 8 x.toNat = a at *
  generalize shiftedOut 8 y.toNat = b at *
  have most := valueLt (small b)
  rw [valueY,lengthNumbers] at most
  have order : a.length ≤ b.length := by
    by_contra more
    have some : x.toNat ≠ 0 := fun none => more (by simp [empty none])
    have power : 256 ^ (b.length + 1) ≤ 256 ^ a.length := Nat.pow_le_pow_right (by decide) (by omega)
    have least := leastX some
    rw [pow_succ] at power
    omega
  have first : ∀ buf : Bytes, buf.length ≤ 8 → (UInt8.ofNat buf.length).toNat = buf.length := fun buf short =>
    UInt8.toNat_ofNat_of_lt' (by change _ < 256; omega)
  simp only [numbers,map_cons,cons_append,cons_lt_cons_iff,first a shortX,first b shortY]
  rcases Nat.lt_or_eq_of_le order with shorter | same
  · exact .inl shorter
  · refine .inr ⟨same,ltOfGap (small b) ?_ s t⟩
    rw [lengthNumbers,length_map,same,valueY,← numbers,valueX]
    exact Nat.mul_le_mul_right _ less

theorem parseUInt64Iff (dir : Direction) (x : UInt64) (rest : Bytes) :
    parseUInt64 dir (directed dir (appendUInt64 x) ++ rest) = some (x,rest) ↔
      ((appendUInt64 x).length : Int) ≤ (Int32.ofNat (appendUInt64 x ++ rest).length).toInt := by
  have value := shiftedOutValue (n := 8) x.toNat_lt
  obtain ⟨short,-⟩ := shiftedOutLength (n := 8) x.toNat_lt
  simp only [appendUInt64,directed,map_cons,cons_append,parseUInt64,xor_cancel_right,length_cons,length_append,length_map]
  generalize shiftedOut 8 x.toNat = buf at *
  have taken : (buf.map (· ^^^ dir.byte) ++ rest).take buf.length = buf.map (· ^^^ dir.byte) := take_left' (length_map ..)
  have left : (buf.map (· ^^^ dir.byte) ++ rest).drop buf.length = rest := drop_left' (length_map ..)
  rw [UInt8.toNat_ofNat_of_lt' (show buf.length < 256 by omega),taken,left,foldMasked,value]
  split
  · rename_i refused
    simp only [reduceCtorEq,false_iff]
    push_cast
    omega
  · rename_i fits
    simp only [Nat.zero_mul,Nat.zero_add,UInt64.ofNat_toNat,true_iff]
    push_cast
    omega

/-! ### Signed integers -/

/-- The code of a number not below zero: the value, under as many ones as the code has bytes. -/
structure Coded (code : Bytes) (y : Nat) : Prop where
  size : 1 ≤ code.length ∧ code.length ≤ 10
  value : value 256 (numbers code) = y + (2 ^ code.length - 1) * 2 ^ (7 * code.length)
  most : y < 2 ^ (7 * code.length - 1)
  least : code.length = 1 ∨ 2 ^ (7 * code.length - 8) ≤ y

theorem orMsb : ∀ d : UInt8, ∀ n < 8, d.toNat < 2 ^ (7 - n) → (d ||| msb n).toNat = d.toNat + (256 - 2 ^ (8 - n)) := by
  decide +kernel

theorem markedCoded (long : 64 ≤ y) (fits : y < 2 ^ 63) : Coded (marked (shiftedOut 8 y)) y := by
  have same := shiftedOutValue (n := 8) (x := y) (by omega)
  obtain ⟨short,least⟩ := shiftedOutLength (n := 8) (x := y) (by omega)
  replace least := least (by omega)
  generalize shiftedOut 8 y = buf at *
  obtain _ | ⟨d,t⟩ := buf
  · simp [numbers,Lexicographic.value] at same
    omega
  have below := valueLt (small t)
  have first := d.toNat_lt
  have ones := orMsb d ((t.length + 1) % 7) (by omega)
  rw [lengthNumbers] at below
  simp only [numbers,map_cons,Lexicographic.value,length_map,length_cons] at same short least below
  have size : t.length < 8 := by omega
  generalize count : t.length = m at *
  interval_cases m
  all_goals
    rcases Nat.lt_or_ge d.toNat (1 <<< (7 - (t.length + 1) % 7)) with low | low <;> norm_num [count] at low
    · replace ones := ones low
      norm_num [marked,count,low]
      norm_num at ones same least below
      constructor <;> simp [numbers,Lexicographic.value,count,ones]
      case value => linarith
      all_goals generalize Lexicographic.value 256 (map UInt8.toNat t) = v at *; omega
    · norm_num [marked,count,not_lt.mpr low]
      norm_num at same least below
      constructor <;> simp [numbers,Lexicographic.value,count,msb]
      all_goals generalize Lexicographic.value 256 (map UInt8.toNat t) = v at *; omega

theorem Coded.gap (coded : Coded code y) (coded' : Coded code' y') (less : y < y') :
    (Lexicographic.value 256 (numbers code) + 1) * 256 ^ code'.length ≤
      Lexicographic.value 256 (numbers code') * 256 ^ code.length := by
  obtain ⟨⟨one,ten⟩,same,most,least⟩ := coded
  obtain ⟨⟨one',ten'⟩,same',most',least'⟩ := coded'
  rw [same,same']
  generalize code.length = a at *
  generalize code'.length = b at *
  interval_cases a <;> interval_cases b <;> norm_num at * <;> linarith

theorem Coded.half (coded : Coded code y) : 256 ^ code.length ≤ 2 * Lexicographic.value 256 (numbers code) := by
  obtain ⟨⟨one,ten⟩,same,-,-⟩ := coded
  rw [same]
  generalize code.length = a at *
  interval_cases a <;> norm_num <;> omega

theorem singleCoded {b : UInt8} (same : b.toNat = y + 128) (low : y < 64) : Coded [b] y :=
  ⟨by simp,by simp [numbers,Lexicographic.value,same],low,.inl rfl⟩

theorem invertByte : ∀ c : UInt8, (c ^^^ 0xff).toNat + c.toNat = 255 := by
  decide +kernel

theorem invertValue (code : Bytes) :
    Lexicographic.value 256 (numbers (invert code)) + Lexicographic.value 256 (numbers code) + 1 = 256 ^ code.length := by
  induction code with
  | nil => rfl
  | cons c code ih =>
    have here := invertByte c
    simp only [numbers,invert,map_cons,Lexicographic.value,length_map,length_cons,pow_succ] at ih ⊢
    nlinarith

def magnitude (x : Int64) : Nat := if x < 0 then (~~~x).toInt.toNat else x.toInt.toNat

theorem signed (x : Int64) : (x < 0 ∧ x.toInt = -1 - magnitude x ∨ ¬ x < 0 ∧ x.toInt = magnitude x) ∧ magnitude x < 2 ^ 63 ∧
    (-64 ≤ x ∧ x < 64 ↔ magnitude x < 64) := by
  have least := x.le_toInt
  have most := x.toInt_lt
  have near : -64 ≤ x ∧ x < 64 ↔ -64 ≤ x.toInt ∧ x.toInt < 64 := and_congr Int64.le_iff_toInt_le Int64.lt_iff_toInt_lt
  rw [near]
  by_cases neg : x < 0
  · have below : x.toInt < 0 := Int64.lt_iff_toInt_lt.mp neg
    rw [magnitude,if_pos neg,Int64.toInt_not,Int.bmod_eq_of_le (by omega) (by omega)]
    exact ⟨.inl ⟨neg,by omega⟩,by omega,by omega⟩
  · have above : 0 ≤ x.toInt := not_lt.mp fun less => neg (Int64.lt_iff_toInt_lt.mpr less)
    rw [magnitude,if_neg neg]
    exact ⟨.inr ⟨neg,by omega⟩,by omega,by omega⟩

theorem smallByte {x : Int64} (short : -64 ≤ x ∧ x < 64) :
    ((x ^^^ 0x80).toInt8.toUInt8.toNat : Int) = x.toInt + 128 ∧ ((x ^^^ 0x80).toInt8.toUInt8 ^^^ 0x80).toInt8.toInt64 = x := by
  have all : ∀ n < 128, let x := Int64.ofInt (Int.ofNat n - 64)
      (x ^^^ 0x80).toInt8.toUInt8.toNat = n + 64 ∧ ((x ^^^ 0x80).toInt8.toUInt8 ^^^ 0x80).toInt8.toInt64 = x := by
    decide +kernel
  rw [Int64.le_iff_toInt_le,Int64.lt_iff_toInt_lt] at short
  have near : -64 ≤ x.toInt ∧ x.toInt < 64 := short
  have here := all (x.toInt + 64).toNat (by omega)
  rw [show Int.ofNat (x.toInt + 64).toNat - 64 = x.toInt by simp; omega,Int64.ofInt_toInt] at here
  exact ⟨by rw [here.1]; omega,here.2⟩

theorem appendInt64Coded (x : Int64) : ∃ code, Coded code (magnitude x) ∧ appendInt64 x = if x < 0 then invert code else code := by
  obtain ⟨sign,fits,near⟩ := signed x
  by_cases short : -64 ≤ x ∧ x < 64
  · obtain ⟨byte,-⟩ := smallByte short
    rw [appendInt64,if_pos short]
    rw [near] at short
    generalize (x ^^^ 0x80).toInt8.toUInt8 = b at *
    rcases sign with ⟨neg,is⟩ | ⟨neg,is⟩
    · have flipped := invertByte b
      exact ⟨[b ^^^ 0xff],singleCoded (by omega) short,by simp [neg,invert]⟩
    · exact ⟨[b],singleCoded (by omega) short,by rw [if_neg neg]⟩
  · rw [appendInt64,if_neg short]
    rw [near,not_lt] at short
    refine ⟨_,markedCoded short fits,?_⟩
    rw [magnitude]
    split <;> rfl

theorem appendInt64Lt {x y : Int64} (less : x < y) (s t : List Nat) :
    numbers (appendInt64 x) ++ s < numbers (appendInt64 y) ++ t := by
  refine ltOfGap (small _) ?_ s t
  obtain ⟨code,coded,isX⟩ := appendInt64Coded x
  obtain ⟨code',coded',isY⟩ := appendInt64Coded y
  have less := Int64.lt_iff_toInt_lt.mp less
  have whole := invertValue code
  have whole' := invertValue code'
  have half := coded.half
  have half' := coded'.half
  have size : ∀ bytes : Bytes, (invert bytes).length = bytes.length := fun _ => length_map _
  rw [isX,isY,lengthNumbers,lengthNumbers]
  rcases (signed x).1 with ⟨negX,x'⟩ | ⟨negX,x'⟩ <;> rcases (signed y).1 with ⟨negY,y'⟩ | ⟨negY,y'⟩
  · have gap := coded'.gap coded (by omega)
    rw [if_pos negX,if_pos negY,size,size]
    nlinarith
  · rw [if_pos negX,if_neg negY,size]
    nlinarith
  · omega
  · rw [if_neg negX,if_neg negY]
    exact coded.gap coded' (by omega)

theorem onesCounted : ∀ c : UInt8, ∀ n < 8, 256 - 2 ^ (8 - n) ≤ c.toNat → c.toNat < 256 - 2 ^ (7 - n) → ∀ k ∈ [0,7],
    leadingOnes 8 0x80 c k = (UInt8.ofNat (c.toNat - (256 - 2 ^ (8 - n))),k + n) := by
  decide +kernel

theorem parseDigitsMasked (mask c : UInt8) {d : Nat} (low : d < 256) (t rest : Bytes) :
    parseDigits mask (c :: (t.map (· ^^^ mask) ++ rest)) (UInt8.ofNat d,t.length + 1) =
      some (Int64.ofNat (d * 256 ^ t.length + Lexicographic.value 256 (numbers t)),rest) := by
  have taken : (t.map (· ^^^ mask) ++ rest).take t.length = t.map (· ^^^ mask) := take_left' (length_map ..)
  have left : (t.map (· ^^^ mask) ++ rest).drop t.length = rest := drop_left' (length_map ..)
  rw [parseDigits,if_neg (by simp),tail_cons,Nat.add_sub_cancel,taken,foldMasked,drop_succ_cons,left,
    UInt8.toNat_ofNat_of_lt' low]

theorem firstByte {m c v : Nat} (some : 1 ≤ m) (short : m < 7) (below : v < 256 ^ m)
    (same : c * 256 ^ m + v = y + (2 ^ (m + 1) - 1) * 2 ^ (7 * (m + 1))) (most : y < 2 ^ (7 * (m + 1) - 1)) :
    c ≠ 255 ∧ 256 - 2 ^ (8 - (m + 1)) ≤ c ∧ c < 256 - 2 ^ (7 - (m + 1)) ∧
      (c - (256 - 2 ^ (8 - (m + 1)))) * 256 ^ m + v = y := by
  interval_cases m <;> norm_num at * <;> omega

theorem secondByte {m b c v : Nat} (long : 6 ≤ m) (ten : m ≤ 8) (byte : b < 256) (byte' : c < 256) (below : v < 256 ^ m) (fits : y < 2 ^ 63)
    (same : b * 256 ^ (m + 1) + (c * 256 ^ m + v) = y + (2 ^ (m + 1 + 1) - 1) * 2 ^ (7 * (m + 1 + 1)))
    (most : y < 2 ^ (7 * (m + 1 + 1) - 1)) :
    b = 255 ∧ c ≤ 192 ∧ 256 - 2 ^ (8 - (m - 6)) ≤ c ∧ c < 256 - 2 ^ (7 - (m - 6)) ∧
      (c - (256 - 2 ^ (8 - (m - 6)))) * 256 ^ m + v = y := by
  interval_cases m <;> norm_num at * <;> omega

theorem parseMarkedCoded (mask : UInt8) (coded : Coded code y) (long : code.length ≠ 1) (fits : y < 2 ^ 63) (rest : Bytes) :
    parseMarked mask (code.map (· ^^^ mask) ++ rest) = some (Int64.ofNat y,rest) := by
  obtain ⟨⟨one,ten⟩,same,most,-⟩ := coded
  obtain _ | ⟨c,t⟩ := code
  · cases one
  have below := valueLt (small t)
  rw [lengthNumbers] at below
  simp only [parseMarked,map_cons,cons_append,headD_cons,xor_cancel_right]
  by_cases short : t.length < 7
  · simp only [numbers,map_cons,Lexicographic.value,length_map,length_cons] at *
    obtain ⟨notAll,least,less,value⟩ := firstByte (m := t.length) (by omega) short below same most
    have counted := onesCounted c (t.length + 1) (by omega) least less 0 (by simp)
    rw [if_neg fun same => notAll (congrArg UInt8.toNat same),counted,Nat.zero_add,
      parseDigitsMasked _ _ (by have := c.toNat_lt; omega),numbers,value]
  · obtain _ | ⟨d,t⟩ := t
    · exact absurd (Nat.zero_lt_succ 6) short
    have below' := valueLt (small t)
    rw [lengthNumbers] at below'
    simp only [numbers,map_cons,Lexicographic.value,length_map,length_cons] at *
    obtain ⟨all,lowest,least,less,value⟩ :=
      secondByte (m := t.length) (by omega) (by omega) c.toNat_lt d.toNat_lt below' fits same most
    obtain rfl : c = 0xff := UInt8.toNat_inj.mp all
    have counted := onesCounted d (t.length - 6) (by omega) least less 7 (by simp)
    have count : 7 + (t.length - 6) = t.length + 1 := by omega
    simp only [if_true,tail_cons,headD_cons,xor_cancel_right,length_cons,cons_append]
    rw [if_neg (by simp),if_neg (by rw [UInt8.not_lt,UInt8.le_iff_toNat_le]; exact lowest),counted,count,
      parseDigitsMasked _ _ (by have := d.toNat_lt; omega),numbers,value]

theorem Coded.head (coded : Coded code y) (long : code.length ≠ 1) : ∃ c t, code = c :: t ∧ 192 ≤ c.toNat := by
  obtain ⟨⟨one,ten⟩,same,-,-⟩ := coded
  obtain _ | ⟨c,t⟩ := code
  · cases one
  refine ⟨c,t,rfl,?_⟩
  have below := valueLt (small t)
  rw [lengthNumbers] at below
  simp only [numbers,map_cons,Lexicographic.value,length_map,length_cons] at *
  have atMost : t.length ≤ 9 := by omega
  generalize Lexicographic.value 256 (map UInt8.toNat t) = v at *
  generalize t.length = m at *
  interval_cases m <;> norm_num at * <;> omega

theorem topBit : ∀ c : UInt8, c &&& 0x80 = 0 ↔ c.toNat < 128 := by
  decide +kernel

theorem ofMagnitude (x : Int64) : Int64.ofNat (magnitude x) = if x < 0 then ~~~x else x := by
  obtain ⟨sign,fits,-⟩ := signed x
  have most := x.toInt_lt
  apply Int64.toInt_inj.mp
  rw [Int64.toInt_ofNat_of_lt fits]
  rcases sign with ⟨neg,is⟩ | ⟨neg,is⟩
  · rw [if_pos neg,Int64.toInt_not,Int.bmod_eq_of_le (by omega) (by omega)]
    omega
  · rw [if_neg neg,is]

theorem parseInt64Append (dir : Direction) (x : Int64) (rest : Bytes) :
    parseInt64 dir (directed dir (appendInt64 x) ++ rest) = some (x,rest) := by
  obtain ⟨sign,fits,near⟩ := signed x
  by_cases short : -64 ≤ x ∧ x < 64
  · obtain ⟨byte,back⟩ := smallByte short
    rw [appendInt64,if_pos short]
    rw [near] at short
    generalize (x ^^^ 0x80).toInt8.toUInt8 = b at *
    have inside : 0x40 ≤ b ∧ b < 0xc0 := by
      rw [UInt8.le_iff_toNat_le,UInt8.lt_iff_toNat_lt]
      exact ⟨show 64 ≤ _ by omega,show _ < 192 by omega⟩
    simp only [parseInt64,directed,map_cons,map_nil,cons_append,nil_append,headD_cons,xor_cancel_right,drop_one,tail_cons]
    rw [if_neg (cons_ne_nil _ _),if_pos inside,back]
  · have given := ofMagnitude x
    obtain ⟨code,coded,isCode⟩ := appendInt64Coded x
    have long : code.length ≠ 1 := by
      intro one
      have most := coded.most
      rw [one] at most
      exact short (near.mpr most)
    obtain ⟨c,t,rfl,high⟩ := coded.head long
    by_cases neg : x < 0
    · have mask : ∀ d : UInt8, d ^^^ 0xff ^^^ dir.byte = d ^^^ ~~~dir.byte := by
        intro d
        rw [UInt8.xor_assoc]
        cases dir <;> rfl
      have encoded : directed dir (invert (c :: t)) = (c :: t).map (· ^^^ ~~~dir.byte) := by
        simp [directed,invert,mask]
      have low : (c ^^^ 0xff).toNat < 64 := by
        have := invertByte c
        omega
      have outside : ¬ (0x40 ≤ c ^^^ 0xff ∧ c ^^^ 0xff < 0xc0) := fun inside => not_lt.mpr (UInt8.le_iff_toNat_le.mp inside.1) low
      have parsed := parseMarkedCoded (~~~dir.byte) coded long fits rest
      rw [isCode,if_pos neg,encoded,parseInt64,parsed,map_cons,cons_append,headD_cons,← mask,xor_cancel_right,if_neg (cons_ne_nil _ _),
        if_neg outside,if_pos ((topBit _).mpr (by omega)),given,if_pos neg]
      simp
    · have outside : ¬ (0x40 ≤ c ∧ c < 0xc0) := fun inside => not_lt.mpr high (UInt8.lt_iff_toNat_lt.mp inside.2)
      have parsed := parseMarkedCoded dir.byte coded long fits rest
      rw [isCode,if_neg neg,directed,parseInt64,parsed,map_cons,cons_append,headD_cons,xor_cancel_right,if_neg (cons_ne_nil _ _),
        if_neg outside,if_neg fun clear => absurd ((topBit _).mp clear) (by omega),given,if_neg neg]

theorem int64Ordered : Ordered (fun x y : Int64 => x < y) fun x => numbers (appendInt64 x) := by
  refine ⟨fun x y => ?_,appendInt64Lt⟩
  rw [Int64.lt_iff_toInt_lt,Int64.lt_iff_toInt_lt,← Int64.toInt_inj]
  exact lt_trichotomy ..

theorem uint64Ordered : Ordered (fun x y : UInt64 => x < y) fun x => numbers (appendUInt64 x) := by
  refine ⟨fun x y => ?_,appendUInt64Lt⟩
  rw [UInt64.lt_iff_toNat_lt,UInt64.lt_iff_toNat_lt,← UInt64.toNat_inj]
  exact lt_trichotomy ..

theorem integersOrdered (dir : Direction) (i j : Int64) (x y : UInt64) (rest : Bytes) :
    parseInt64 dir (directed dir (appendInt64 i) ++ rest) = some (i,rest) ∧
    (parseUInt64 dir (directed dir (appendUInt64 x) ++ rest) = some (x,rest) ↔
      ((appendUInt64 x).length : Int) ≤ (Int32.ofNat (appendUInt64 x ++ rest).length).toInt) ∧
    (compareView (appendInt64 i) (appendInt64 j) < 0 ↔ i < j) ∧
    (compareView (appendUInt64 x) (appendUInt64 y) < 0 ↔ x < y) := by
  simp only [(compareViewSign _ _).1]
  exact ⟨parseInt64Append dir i rest,parseUInt64Iff dir x rest,int64Ordered.codeLt,uint64Ordered.codeLt⟩

theorem longSpanOfZeroRefused :
    parseUInt64 .increasing (directed .increasing (appendUInt64 0) ++ replicate (2 ^ 31 - 1) 0x00) ≠
      some (0,replicate (2 ^ 31 - 1) 0x00) := by
  rw [Ne,parseUInt64Iff,length_append,length_replicate]
  decide

end
end MiniOb.OrderedCode
