import DiceNotation.Die
import DiceNotation.Expr

/-!
# The dice of a group

A pool holds every die that one group has rolled, in the order of the rolls. This module has the
operations that need no further roll: selections, clamps, counting successes and adding up.
-/

namespace DiceNotation

structure Pool where
  index : Nat
  sides : Sides
  dice : List Die
  /-- The condition for a success, once successes are counted. -/
  successes : Option Condition
  deriving DecidableEq, Repr

namespace Rank

/-- Whether a value may stand before another in the ranking. -/
def before : Rank → Int → Int → Bool
  | highest, x, y => y ≤ x
  | lowest, x, y => x ≤ y

end Rank

namespace Pool

/-- The dice in play with their positions, in the order of the rolls. -/
def keptDice (dice : List Die) : List (Die × Nat) :=
  dice.zipIdx.filter fun d => d.1.isKept

def keptPositions (p : Pool) : List Nat := (keptDice p.dice).map (·.2)

/-- The positions of the dice in play from the best ranked on; of equal values the earlier roll comes
first. -/
def ranking (rank : Rank) (dice : List Die) : List Nat :=
  ((keptDice dice).mergeSort fun a b => rank.before a.1.value b.1.value).map (·.2)

/-- Takes the dice at the given positions out of play. -/
def dropAt (positions : List Nat) (dice : List Die) : List Die :=
  (positions.foldl (fun dice i => dice.modify i Die.drop) dice.toArray).toList

def select (s : Selection) (p : Pool) : Pool :=
  let ranked := ranking s.rank p.dice
  let discarded :=
    match s.action with
    | .keep => ranked.drop s.count
    | .drop => ranked.take s.count
  { p with dice := dropAt discarded p.dice }

/-- Clamps touch the dice in play only. -/
def clamp (c : Clamp) (p : Pool) : Pool :=
  { p with dice := p.dice.map fun d => if d.isKept then { d with value := c.apply d.value } else d }

/-- Only the last condition counts. -/
def countSuccesses (c : Condition) (p : Pool) : Pool := { p with successes := some c }

/-- Marks every die as a success or not, if successes are counted. -/
def markSuccesses (p : Pool) : Pool :=
  match p.successes with
  | none => p
  | some c => { p with dice := p.dice.map fun d => { d with success := some (c.holds d.value) } }

/-- Adds up the dice in the order of the rolls; no partial sum may leave the range. -/
def sumFrom (start : Int) (dice : List Die) : Except ArithmeticError Int :=
  dice.foldlM (fun sum d => checked (sum + d.worth)) start

/-- What the pool is worth as its dice stand. -/
def subtotal (p : Pool) : Except ArithmeticError Int := sumFrom 0 p.dice

end Pool

end DiceNotation
