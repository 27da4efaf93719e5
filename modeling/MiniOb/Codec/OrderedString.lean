import Mathlib.Data.LawfulXor.Basic
import Mathlib.Data.List.Infix
import MiniOb.Common.Types
import MiniOb.Lib.Lexicographic
import MiniOb.Oblsm.InternalKey

/-! `OrderedCode`: byte strings written so that the bytes sort as the strings do (`storage/common/codec.h`). -/
namespace MiniOb.OrderedCode
open List Oblsm Lexicographic

inductive Direction where
  | increasing
  | decreasing
  deriving DecidableEq

def Direction.byte : Direction → UInt8
  | increasing => 0x00
  | decreasing => 0xff

def invert (s : Bytes) : Bytes := s.map (· ^^^ 0xff)

/-- A zero byte is followed by `ff` and a byte `ff` by a zero, which are `lit00` and `litff`. -/
def appendString : Bytes → Bytes
  | [] => [0x00,0x01]
  | 0x00 :: x => 0x00 :: 0xff :: appendString x
  | 0xff :: x => 0xff :: 0x00 :: appendString x
  | c :: x => c :: appendString x

def appendInfinity : Bytes := [0xff,0xff]

/-- The loop of `parse`: `run` are the bytes from `l` to `i`, and the last argument those from `i` on. -/
def parseLoop (dir : Direction) (buf run : Bytes) : Bytes → Option (Bytes × Bytes)
  | [] => none
  | c :: s =>
      if c ^^^ dir.byte = 0x00 then match s with
        | [] => none
        | d :: s =>
            if d ^^^ dir.byte = 0x01 then some (if dir = .decreasing then invert (buf ++ run) else buf ++ run,s)
            else if d ^^^ dir.byte = 0xff then parseLoop dir (buf ++ run ++ [0x00 ^^^ dir.byte]) [] s
            else none
      else if c ^^^ dir.byte = 0xff then match s with
        | [] => none
        | d :: s => if d ^^^ dir.byte = 0x00 then parseLoop dir (buf ++ run ++ [0xff ^^^ dir.byte]) [] s else none
      else parseLoop dir buf (run ++ [c]) s

/-- The index is an `int` and is compared with the size of the span as an `int`. -/
def parseString (dir : Direction) (s : Bytes) : Option (Bytes × Bytes) :=
  let size := (Int32.ofNat s.length).toInt.toNat
  (parseLoop dir [] [] (s.take size)).map fun (x,rest) => (x,rest ++ s.drop size)

def parseInfinity (dir : Direction) : Bytes → Option Bytes
  | c :: d :: s => if c ^^^ dir.byte = 0xff ∧ d ^^^ dir.byte = 0xff then some s else none
  | _ => none

structure StringOrInfinity where
  s : Bytes
  inf : Bool
  deriving DecidableEq

def appendStringOrInfinity (x : StringOrInfinity) : Except RC Bytes :=
  if x.inf then if x.s = [] then .ok appendInfinity else .error .invalidArgument
  else .ok (appendString x.s)

/-- A failure of `parse` into an infinity is a return code, so the handler of exceptions never runs. -/
def parseStringOrInfinity (dir : Direction) (dst : StringOrInfinity) (s : Bytes) : RC × StringOrInfinity × Bytes :=
  match parseInfinity dir s with
  | some rest => (.success,{ dst with inf := true },rest)
  | none => (.invalidArgument,{ dst with inf := true },s)

/-! ### Reading back -/

section
variable {dir : Direction} {x y buf run rest : Bytes}

def directed (dir : Direction) (s : Bytes) : Bytes := s.map (· ^^^ dir.byte)

theorem finished : (if dir = .decreasing then invert x else x) = directed dir x := by
  cases dir <;> simp [directed,invert,Direction.byte]

theorem parseLoopAppend (buf run) : parseLoop dir buf run (directed dir (appendString x) ++ rest) =
    some (directed dir (buf ++ run) ++ x,rest) := by
  induction x using appendString.induct generalizing buf run with
  | case1 => simp [appendString,directed,parseLoop,finished]
  | case2 x ih =>
    have next := ih (buf ++ run ++ [0x00 ^^^ dir.byte]) []
    simpa [appendString,directed,parseLoop] using next
  | case3 x ih =>
    have next := ih (buf ++ run ++ [0xff ^^^ dir.byte]) []
    simpa [appendString,directed,parseLoop] using next
  | case4 c x notZero notLast ih =>
    have next := ih buf (run ++ [c ^^^ dir.byte])
    rw [appendString.eq_4 _ _ notZero notLast,directed,map_cons,cons_append]
    unfold parseLoop
    rw [xor_cancel_right,if_neg notZero,if_neg notLast]
    simpa [directed] using next

/-- The terminator stands at the end of a code only, so no beginning of it is read as a string. -/
theorem parseLoopCut (buf run) (short : k < (appendString x).length) :
    parseLoop dir buf run ((directed dir (appendString x)).take k) = none := by
  induction x using appendString.induct generalizing buf run k with
  | case1 =>
    obtain rfl | rfl : k = 0 ∨ k = 1 := by simp [appendString] at short; omega
    · rfl
    · simp [appendString,directed,parseLoop]
  | case2 x ih =>
    obtain _ | _ | k := k
    · rfl
    · simp [appendString,directed,parseLoop]
    · have next := ih (buf ++ run ++ [0x00 ^^^ dir.byte]) [] (k := k) (by simpa [appendString] using short)
      simpa [appendString,directed,parseLoop] using next
  | case3 x ih =>
    obtain _ | _ | k := k
    · rfl
    · simp [appendString,directed,parseLoop]
    · have next := ih (buf ++ run ++ [0xff ^^^ dir.byte]) [] (k := k) (by simpa [appendString] using short)
      simpa [appendString,directed,parseLoop] using next
  | case4 c x notZero notLast ih =>
    rw [appendString.eq_4 _ _ notZero notLast] at short ⊢
    obtain _ | k := k
    · rfl
    · rw [directed,map_cons,take_succ_cons]
      unfold parseLoop
      rw [xor_cancel_right,if_neg notZero,if_neg notLast]
      exact ih buf (run ++ [c ^^^ dir.byte]) (by simpa using short)

theorem appendPos (x) : 0 < (appendString x).length := by
  cases x using appendString.induct <;> simp_all [appendString]

theorem parseStringIff : parseString dir (directed dir (appendString x) ++ rest) = some (x,rest) ↔
    ((appendString x).length : Int) ≤ (Int32.ofNat (appendString x ++ rest).length).toInt := by
  have whole : (directed dir (appendString x)).length = (appendString x).length := by simp [directed]
  have some := appendPos x
  rw [parseString,length_append,whole,← length_append]
  generalize (Int32.ofNat (appendString x ++ rest).length).toInt = size
  rcases Nat.lt_or_ge size.toNat (appendString x).length with short | enough
  · refine iff_of_false ?_ (by omega)
    rw [take_append_of_le_length (by omega),parseLoopCut _ _ short]
    simp
  · refine iff_of_true ?_ (by omega)
    rw [take_append,drop_append,take_of_length_le (by omega),drop_eq_nil_of_le (by omega),parseLoopAppend]
    simp [directed]

/-! ### The order -/

theorem appendHead (c : UInt8) : ∃ tail, ∀ x, appendString (c :: x) = c :: (tail ++ appendString x) := by
  by_cases zero : c = 0x00
  · exact ⟨[0xff],fun _ => by rw [zero]; rfl⟩
  by_cases last : c = 0xff
  · exact ⟨[0x00],fun _ => by rw [last]; rfl⟩
  · exact ⟨[],fun _ => appendString.eq_4 _ _ zero last⟩

theorem appendLt (less : numbers x < numbers y) (s t : List Nat) :
    numbers (appendString x) ++ s < numbers (appendString y) ++ t := by
  induction x generalizing y with
  | nil =>
    obtain _ | ⟨d,y⟩ := y
    · exact absurd less (lt_irrefl _)
    by_cases zero : d = 0x00
    · simp [zero,appendString,numbers,cons_lt_cons_iff]
    · obtain ⟨tail,coded⟩ := appendHead d
      have above : 0 < d.toNat := Nat.pos_of_ne_zero fun none => zero (UInt8.toNat_inj.mp none)
      simp [coded,appendString,numbers,cons_lt_cons_iff,above]
  | cons c x ih =>
    obtain _ | ⟨d,y⟩ := y
    · exact absurd less (not_lt_nil _)
    obtain ⟨tail,coded⟩ := appendHead c
    rcases cons_lt_cons_iff.mp less with below | ⟨same,later⟩
    · obtain ⟨tail',coded'⟩ := appendHead d
      simp [coded,coded',numbers,cons_lt_cons_iff,below]
    · cases UInt8.toNat_inj.mp same
      rw [coded,coded]
      simp only [numbers,map_cons,map_append,cons_append,append_assoc]
      exact cons_lt_cons_iff.mpr (.inr ⟨rfl,append_left_lt (ih later)⟩)

theorem stringOrdered : Ordered (fun x y : Bytes => numbers x < numbers y) fun x => numbers (appendString x) :=
  ⟨fun x y => (lt_trichotomy (numbers x) (numbers y)).imp_right (Or.imp_left numbersInj),appendLt⟩

theorem appendPrefix (begins : appendString x <+: appendString y) : x = y := by
  obtain ⟨rest,whole⟩ := begins
  have coded : numbers (appendString x) ++ numbers rest = numbers (appendString y) ++ [] := by
    rw [← whole,append_nil,numbers,numbers,numbers,map_append]
  exact (stringOrdered.unique coded).1

theorem appendLtInfinity : numbers (appendString x) < numbers appendInfinity := by
  obtain _ | ⟨c,x⟩ := x
  · decide
  by_cases last : c = 0xff
  · simp [last,appendString,appendInfinity,numbers,cons_lt_cons_iff]
  · obtain ⟨tail,coded⟩ := appendHead c
    have below : c.toNat < 255 := lt_of_le_of_ne (Nat.le_of_lt_succ c.toNat_lt) fun same => last (UInt8.toNat_inj.mp same)
    simp [coded,appendInfinity,numbers,cons_lt_cons_iff,below]

theorem stringsOrdered (dir : Direction) (x y rest : Bytes) :
    (parseString dir (directed dir (appendString x) ++ rest) = some (x,rest) ↔
      ((appendString x).length : Int) ≤ (Int32.ofNat (appendString x ++ rest).length).toInt) ∧
    (appendString x <+: appendString y → x = y) ∧
    (compareView (appendString x) (appendString y) < 0 ↔ compareView x y < 0) ∧
    compareView (appendString x) appendInfinity < 0 := by
  simp only [(compareViewSign _ _).1]
  exact ⟨parseStringIff,appendPrefix,stringOrdered.codeLt,appendLtInfinity⟩

theorem zeroByteParsed : parseString .decreasing [0xff,0x00,0xff,0xfe,0x07] = some ([0x00],[0x07]) :=
  (stringsOrdered .decreasing [0x00] [] [0x07]).1.mpr (by decide)

theorem longSpanRefused : parseString .increasing (directed .increasing (appendString []) ++ replicate (2 ^ 31) 0x00) = none := by
  have size : (Int32.ofNat (directed .increasing (appendString []) ++ replicate (2 ^ 31) 0x00).length).toInt.toNat = 0 := by
    rw [length_append,length_replicate]
    rfl
  rw [parseString,size,take_zero]
  rfl

theorem stringOrInfinityParsedIff {x : StringOrInfinity} {code} (accepted : appendStringOrInfinity x = .ok code)
    (dir : Direction) (dst : StringOrInfinity) (rest : Bytes) :
    parseStringOrInfinity dir dst (directed dir code ++ rest) = (.success,x,rest) ↔ x.inf = true ∧ dst.s = [] := by
  constructor
  · intro parsed
    unfold parseStringOrInfinity at parsed
    split at parsed
    · cases parsed
      refine ⟨rfl,by_contra fun some => ?_⟩
      simp [appendStringOrInfinity,some] at accepted
    · cases parsed
  · rintro ⟨infinite,fresh⟩
    obtain ⟨s,inf⟩ := x
    cases infinite
    by_cases none : s = []
    · obtain rfl : appendInfinity = code := by simpa [appendStringOrInfinity,none] using accepted
      simp [parseStringOrInfinity,parseInfinity,directed,appendInfinity,fresh,none]
    · simp [appendStringOrInfinity,none] at accepted

theorem infinityParsed : appendStringOrInfinity ⟨[],true⟩ = .ok [0xff,0xff] ∧
    parseStringOrInfinity .increasing ⟨[],false⟩ [0xff,0xff,0x07] = (.success,⟨[],true⟩,[0x07]) :=
  ⟨rfl,(stringOrInfinityParsedIff (x := ⟨[],true⟩) rfl .increasing ⟨[],false⟩ [0x07]).mpr ⟨rfl,rfl⟩⟩

theorem stringRefused : appendStringOrInfinity ⟨[0x61],false⟩ = .ok [0x61,0x00,0x01] ∧
    (parseStringOrInfinity .increasing ⟨[],false⟩ [0x61,0x00,0x01]).1 = .invalidArgument :=
  ⟨rfl,rfl⟩

end
end MiniOb.OrderedCode
