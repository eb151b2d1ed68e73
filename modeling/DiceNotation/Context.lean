import DiceNotation.Expr
import DiceNotation.Limits
import DiceNotation.Roller

/-!
# The context of an evaluation

A context holds the roller and counts the dice and groups rolled so far. Every die is rolled through
`Context.rollOne`, which asks the limit first.

Actions may fail halfway, and what they did before the failure stays done: a `Run` therefore has a
value also when it failed.
-/

namespace DiceNotation

structure Context (ρ : Type) where
  limits : Limits
  /-- Dice rolled so far. -/
  rolls : Nat
  /-- Groups begun so far. -/
  groups : Nat
  roller : ρ

/-- What an action left behind and the failure that cut it short, if one did. -/
structure Run (ρ α : Type) where
  value : α
  failure : Option RollError
  context : Context ρ

/-- The same run with another value. -/
def Run.map {ρ α β : Type} (f : α → β) (r : Run ρ α) : Run ρ β :=
  ⟨f r.value, r.failure, r.context⟩

namespace Context

variable {ρ : Type}

/-- A context in which nothing has been rolled. -/
def start (limits : Limits) (roller : ρ) : Context ρ := ⟨limits, 0, 0, roller⟩

/-- The objection to rolling `n` more dice. -/
def refusal? (c : Context ρ) (n : Nat) : Option RollError :=
  match c.limits.maxRolls with
  | none => none
  | some max => if max < c.rolls + n then some (.tooManyRolls max) else none

/-- Rolls one die; the roll counts even if the roller has no answer. -/
def rollOne [Roller ρ] (sides : Sides) (c : Context ρ) : Except RollError Int × Context ρ :=
  match c.refusal? 1 with
  | some e => (.error e, c)
  | none =>
    let (answer, roller) := Roller.roll c.roller 1 sides.top
    (answer, { c with rolls := c.rolls + 1, roller })

end Context

end DiceNotation
