/-!
# Limits

Bounds on the work that one evaluation or one distribution may take.
-/

namespace DiceNotation

structure Limits where
  /-- Dice rolled by one evaluation and dice in one group of a distribution; `none` for no bound. -/
  maxRolls : Option Nat
  /-- Rerolls of one die, and the length of a chain of explosions. -/
  maxIterations : Nat
  /-- Outcomes held in one table while a distribution is worked out. -/
  maxOutcomes : Nat
  deriving DecidableEq, Repr

/-- The limits that hold where none are given. -/
def Limits.usual : Limits := ⟨some 10000, 100, 1000000⟩

end DiceNotation
