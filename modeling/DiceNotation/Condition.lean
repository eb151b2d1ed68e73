import DiceNotation.Arithmetic

/-!
# Conditions on a face

Rerolls, explosions and success counts all ask the same kind of question of one die: how its face
compares with a fixed number.
-/

namespace DiceNotation

inductive Comparison where
  | equal | less | greater | lessEqual | greaterEqual
  deriving DecidableEq, Repr

namespace Comparison

def symbol : Comparison → String
  | equal => "="
  | less => "<"
  | greater => ">"
  | lessEqual => "<="
  | greaterEqual => ">="

/-- Whether `x` stands in the named relation to `y`. -/
def holds : Comparison → Int → Int → Bool
  | equal, x, y => x == y
  | less, x, y => x < y
  | greater, x, y => y < x
  | lessEqual, x, y => x ≤ y
  | greaterEqual, x, y => y ≤ x

end Comparison

structure Condition where
  comparison : Comparison
  bound : Int
  deriving DecidableEq, Repr

namespace Condition

/-- The condition a bare number stands for. -/
def equalTo (x : Int) : Condition := ⟨.equal, x⟩

def holds (c : Condition) (face : Int) : Bool := c.comparison.holds face c.bound

/-- The sign of equality is left out, since a bare number already means it. -/
def render (c : Condition) : String :=
  match c.comparison with
  | .equal => toString c.bound
  | comparison => comparison.symbol ++ toString c.bound

end Condition

end DiceNotation
