/-!
# Arithmetic within 64-bit bounds

Every value of an expression is an `Int` that lies in the signed 64-bit range. An operation computes
the exact integer first and then refuses a result outside the range, so nothing ever wraps around.
-/

namespace DiceNotation

/-- The least value an expression can have. -/
def minInt : Int := -9223372036854775808

/-- The greatest value an expression can have. -/
def maxInt : Int := 9223372036854775807

/-- The greatest number of dice, of repetitions and of ways to reach an outcome. -/
def maxCount : Nat := 18446744073709551615

/-- The values an expression can have. -/
def InRange (x : Int) : Prop := minInt ≤ x ∧ x ≤ maxInt

instance (x : Int) : Decidable (InRange x) := inferInstanceAs (Decidable (_ ∧ _))

/-- Why a single operation on integers has no result. -/
inductive ArithmeticError where
  | divisionByZero | overflow
  deriving DecidableEq, Repr

/-- An exact result, refused when it is out of range. -/
def checked (x : Int) : Except ArithmeticError Int :=
  if InRange x then .ok x else .error .overflow

theorem checked_eq_ok_iff {x y : Int} : checked x = .ok y ↔ InRange x ∧ y = x := by
  unfold checked
  split
  · next h => simp [h, eq_comm]
  · next h => simp [h]

theorem checked_of_inRange {x : Int} (h : InRange x) : checked x = .ok x := if_pos h

/-- The integer of the opposite sign; only that of `minInt` is out of range. -/
def negate (x : Int) : Except ArithmeticError Int := checked (-x)

inductive BinaryOp where
  | add | sub | mul | div
  deriving DecidableEq, Repr

namespace BinaryOp

/-- How strongly the operator binds its operands; a higher number binds tighter. -/
def precedence : BinaryOp → Nat
  | add | sub => 1
  | mul | div => 2

def symbol : BinaryOp → String
  | add => "+"
  | sub => "-"
  | mul => "*"
  | div => "/"

/-- The value over the unbounded integers; a quotient is cut off toward zero. -/
def exact : BinaryOp → Int → Int → Int
  | add, l, r => l + r
  | sub, l, r => l - r
  | mul, l, r => l * r
  | div, l, r => l.tdiv r

/-- A zero divisor is refused before the range of the result is looked at. -/
def apply (op : BinaryOp) (l r : Int) : Except ArithmeticError Int :=
  if op = div ∧ r = 0 then .error .divisionByZero else checked (op.exact l r)

end BinaryOp

end DiceNotation
