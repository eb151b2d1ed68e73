import DiceNotation.Pool.Modify

/-!
# Evaluation of expressions

`Expr.roll` walks an expression from left to right and rolls its dice on the way. Besides the value it
returns the trace, which holds every die in the order of the rolls. `Expr.evaluate` does the same with
the counts of a context set back to zero; the roller goes on from where it is.
-/

namespace DiceNotation

variable {ρ : Type} [Roller ρ]

/-- The value of an expression and every die rolled for it. -/
structure Evaluated where
  value : Int
  trace : List Die
  deriving DecidableEq, Repr

namespace DiceGroup

/-- Rolls the dice, carries out the modifiers and adds up. The group takes its index even if it then
fails. -/
def roll (g : DiceGroup) (c : Context ρ) : Except RollError Evaluated × Context ρ :=
  match Pool.roll c.groups g.count.toNat g.sides { c with groups := c.groups + 1 } with
  | (.error e, c) => (.error e, c)
  | (.ok pool, c) =>
    let r := pool.modifyAll g.modifiers c
    match r.failure with
    | some e => (.error e, r.context)
    | none =>
      let pool := r.value.markSuccesses
      match pool.subtotal with
      | .error e => (.error (.ofArithmetic e), r.context)
      | .ok value => (.ok ⟨value, pool.dice⟩, r.context)

end DiceGroup

namespace Expr

/-- Evaluates on, with the counts as they stand. -/
def roll : Expr → Context ρ → Except RollError Evaluated × Context ρ
  | literal x, c => (.ok ⟨x, []⟩, c)
  | dice g, c => g.roll c
  | negate e, c =>
    match e.roll c with
    | (.error e, c) => (.error e, c)
    | (.ok operand, c) =>
      match DiceNotation.negate operand.value with
      | .error e => (.error (.ofArithmetic e), c)
      | .ok value => (.ok { operand with value }, c)
  | binary op l r, c =>
    match l.roll c with
    | (.error e, c) => (.error e, c)
    | (.ok left, c) =>
      match r.roll c with
      | (.error e, c) => (.error e, c)
      | (.ok right, c) =>
        match op.apply left.value right.value with
        | .error e => (.error (.ofArithmetic e), c)
        | .ok value => (.ok ⟨value, left.trace ++ right.trace⟩, c)

/-- Evaluates a whole expression. Group indices and the roll count start again at zero. -/
def evaluate (e : Expr) (c : Context ρ) : Except RollError Evaluated × Context ρ :=
  e.roll { c with rolls := 0, groups := 0 }

end Expr

end DiceNotation
