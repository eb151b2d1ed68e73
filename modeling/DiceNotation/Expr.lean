import DiceNotation.Modifier

/-!
# Dice expressions

An expression is built from literals and groups of dice by negation and the four binary operators.
The number of dice in a group and the number of sides of a die are at least one and bounded; both
facts are part of the types, so an evaluation never meets a die without a face.
-/

namespace DiceNotation

/-- The greatest number of sides a die can have. -/
def maxSides : Nat := 4294967295

/-- The number of sides of a die. -/
structure Sides where
  toNat : Nat
  pos : 0 < toNat
  le_max : toNat ≤ maxSides
  deriving DecidableEq, Repr

namespace Sides

/-- The side count `n`, provided that a die can have that many. -/
def ofInt? (n : Int) : Option Sides :=
  if h : 0 < n.toNat ∧ n.toNat ≤ maxSides then some ⟨n.toNat, h.1, h.2⟩ else none

/-- The sides of a die whose notation leaves them out. -/
def usual : Sides := ⟨6, by decide, by decide⟩

/-- The sides of a die written with a percent sign. -/
def percentile : Sides := ⟨100, by decide, by decide⟩

/-- The greatest face, as a value. -/
def top (s : Sides) : Int := s.toNat

end Sides

/-- The number of dice in a group. -/
structure DiceCount where
  toNat : Nat
  pos : 0 < toNat
  le_max : toNat ≤ maxCount
  deriving DecidableEq, Repr

namespace DiceCount

/-- The count `n`, provided that a group can have that many dice. -/
def ofInt? (n : Int) : Option DiceCount :=
  if h : 0 < n.toNat ∧ n.toNat ≤ maxCount then some ⟨n.toNat, h.1, h.2⟩ else none

/-- The count of a group whose notation leaves it out. -/
def one : DiceCount := ⟨1, by decide, by decide⟩

end DiceCount

/-- Dice of one kind with what is done to them after the roll, first modifier first. -/
structure DiceGroup where
  count : DiceCount
  sides : Sides
  modifiers : List Modifier
  deriving DecidableEq, Repr

inductive Expr where
  | literal (value : Int)
  | dice (group : DiceGroup)
  | negate (operand : Expr)
  | binary (op : BinaryOp) (left right : Expr)
  deriving DecidableEq, Repr

namespace Expr

/-- Negation binds tighter than every binary operator. -/
def negationPrecedence : Nat := 3

/-- Literals and dice bind tightest, then negation, then the binary operators. -/
def precedence : Expr → Nat
  | literal _ | dice _ => negationPrecedence + 1
  | negate _ => negationPrecedence
  | binary op _ _ => op.precedence

/-- How many groups of dice the expression holds. -/
def diceGroups : Expr → Nat
  | literal _ => 0
  | dice _ => 1
  | negate e => e.diceGroups
  | binary _ l r => l.diceGroups + r.diceGroups

end Expr

end DiceNotation
