import DiceNotation.Arithmetic

/-!
# Sources of faces

A roller answers requests for an integer between two bounds, both included. It is asked for nothing
else, so an evaluation can be run on real chance or on a list of faces written down beforehand.
-/

namespace DiceNotation

/-- Why a roll of an expression has no result. -/
inductive RollError where
  | invalidRange (low high : Int)
  | divisionByZero
  | rerollLoopExceeded (limit : Nat)
  | explodeLoopExceeded (limit : Nat)
  | tooManyRolls (limit : Nat)
  | overflow
  deriving DecidableEq, Repr

namespace RollError

def ofArithmetic : ArithmeticError → RollError
  | .divisionByZero => divisionByZero
  | .overflow => overflow

def message : RollError → String
  | invalidRange low high =>
    "invalid roll range: " ++ toString low ++ " is greater than " ++ toString high
  | divisionByZero => "cannot divide by zero"
  | rerollLoopExceeded limit => "reroll did not settle after " ++ toString limit ++ " attempts"
  | explodeLoopExceeded limit =>
    "exploding dice chained more than " ++ toString limit ++ " times"
  | tooManyRolls limit => "too many dice rolled (limit is " ++ toString limit ++ ")"
  | overflow => "integer overflow"

end RollError

class Roller (ρ : Type) where
  /-- The answer to a request for an integer from `low` to `high`, and the roller afterwards. -/
  roll : ρ → (low high : Int) → Except RollError Int × ρ

end DiceNotation
