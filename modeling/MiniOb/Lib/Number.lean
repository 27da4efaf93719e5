import Mathlib.Algebra.Order.Field.Basic
import Mathlib.Data.Rat.Defs
import Mathlib.Algebra.Order.Ring.Rat
import MiniOb.Lib.Sorting

/-! Floating-point numbers: the operations of a format, whatever its rounding, and numbers read without rounding. -/
namespace MiniOb

/-- What does not compare is not a number; the numbers are ordered. -/
structure Arithmetic (F : Type) where
  ofRat : Rat → F
  neg : F → F
  sqrt : F → F
  add : F → F → F
  sub : F → F → F
  mul : F → F → F
  div : F → F → F
  less : F → F → Bool
  isNan : F → Bool
  lessNan : ∀ a b, isNan a = true ∨ isNan b = true → less a b = false
  ordered : ∀ list : List F, (∀ x ∈ list, isNan x = false) → Sorting.StrictWeakOn list less

def Arithmetic.atMost (ops : Arithmetic F) (a b : F) : Bool := !ops.isNan a && !ops.isNan b && !ops.less b a

/-- Rationals, two infinities and not-a-number, with one zero. -/
inductive Number where
  | finite (q : Rat)
  | infinite (negative : Bool)
  | nan
  deriving DecidableEq, Repr

namespace Number

def isNegative : Number → Bool
  | finite q => q < 0
  | infinite negative => negative
  | nan => false

def neg : Number → Number
  | finite q => finite (-q)
  | infinite negative => infinite !negative
  | nan => nan

def add : Number → Number → Number
  | finite a,finite b => finite (a + b)
  | infinite a,infinite b => if a = b then infinite a else nan
  | infinite a,finite _ => infinite a
  | finite _,infinite b => infinite b
  | _,_ => nan

def sub (x y : Number) : Number := add x (neg y)

def mul : Number → Number → Number
  | finite a,finite b => finite (a * b)
  | nan,_ => nan
  | _,nan => nan
  | x,y => if x = finite 0 ∨ y = finite 0 then nan else infinite (x.isNegative != y.isNegative)

def div : Number → Number → Number
  | finite a,finite b => if b = 0 then if a = 0 then nan else infinite (a < 0) else finite (a / b)
  | infinite a,finite b => infinite (a != decide (b < 0))
  | finite _,infinite _ => finite 0
  | _,_ => nan

def less : Number → Number → Bool
  | finite a,finite b => a < b
  | infinite a,infinite b => a && !b
  | infinite a,finite _ => a
  | finite _,infinite b => !b
  | _,_ => false

def equal : Number → Number → Bool
  | finite a,finite b => a = b
  | infinite a,infinite b => a = b
  | _,_ => false

@[simp] theorem addFinite (a b : Rat) : add (finite a) (finite b) = finite (a + b) := rfl

@[simp] theorem subFinite (a b : Rat) : sub (finite a) (finite b) = finite (a - b) := by
  simp [sub,neg,sub_eq_add_neg]

@[simp] theorem mulFinite (a b : Rat) : mul (finite a) (finite b) = finite (a * b) := rfl

theorem divFinite (a : Rat) (nonzero : b ≠ 0) : div (finite a) (finite b) = finite (a / b) := by
  simp [div,nonzero]

@[simp] theorem lessFinite (a b : Rat) : less (finite a) (finite b) = decide (a < b) := rfl

@[simp] theorem equalFinite (a b : Rat) : equal (finite a) (finite b) = decide (a = b) := rfl

theorem lessOrdered {list : List Number} (numbers : ∀ x ∈ list, x ≠ nan) : Sorting.StrictWeakOn list less := by
  refine Sorting.strictWeakOf (fun a b => less b a = false) (fun a inA b inB => ?_) (fun a inA b inB c inC => ?_)
    fun a _ b _ => by rw [Bool.not_eq_false]
  · have := numbers a inA
    have := numbers b inB
    cases a <;> cases b <;> grind [less]
  · have := numbers a inA
    have := numbers b inB
    have := numbers c inC
    cases a <;> cases b <;> cases c <;> grind [less]

/-- Nothing here depends on the square root. -/
def arithmetic (sqrt : Number → Number) : Arithmetic Number where
  ofRat := finite
  neg := neg
  sqrt := sqrt
  add := add
  sub := sub
  mul := mul
  div := div
  less := less
  isNan x := x = nan
  lessNan a b out := by cases a <;> cases b <;> simp_all [less]
  ordered list numbers := lessOrdered fun x inside => by simpa using numbers x inside

end Number

end MiniOb
