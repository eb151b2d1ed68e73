import DiceNotation.Context
import DiceNotation.Die

/-!
# Rolling dice of one kind

The dice of a group differ only in their faces, so a group index and a number of sides are all that is
needed to roll one more. The loops hold the dice they have rolled with the last one first.
-/

namespace DiceNotation

variable {ρ : Type} [Roller ρ]

/-- The kind of dice a pool rolls: the index of its group and the sides. -/
structure DieKind where
  group : Nat
  sides : Sides
  deriving DecidableEq, Repr

namespace DieKind

/-- Rolls one die of the kind. -/
def roll (k : DieKind) (source : Source) (c : Context ρ) : Run ρ (List Die) :=
  match c.rollOne k.sides with
  | (.ok face, c) => ⟨[.fresh k.group face source], none, c⟩
  | (.error e, c) => ⟨[], some e, c⟩

/-- Rolls `n` dice after those in `rolled`, which holds the last one first. -/
def rollFrom (k : DieKind) (rolled : List Die) : Nat → Context ρ → Run ρ (List Die)
  | 0, c => ⟨rolled.reverse, none, c⟩
  | n + 1, c =>
    match c.rollOne k.sides with
    | (.ok face, c) => rollFrom k (.fresh k.group face .initial :: rolled) n c
    | (.error e, c) => ⟨rolled.reverse, some e, c⟩

/-- Rerolls until a die no longer meets the condition. After the first roll, `left` more are allowed.
Every replaced die is in `rolled`, the last one first. -/
def rerollFrom (k : DieKind) (condition : Condition) (limit : Nat) (rolled : List Die) :
    Nat → Context ρ → Run ρ (List Die)
  | left, c =>
    match c.rollOne k.sides with
    | (.error e, c) => ⟨rolled.reverse, some e, c⟩
    | (.ok face, c) =>
      let die := Die.fresh k.group face .reroll
      if condition.holds face then
        match left with
        | 0 => ⟨(die :: rolled).reverse, some (.rerollLoopExceeded limit), c⟩
        | left + 1 => rerollFrom k condition limit (die.replace :: rolled) left c
      else ⟨(die :: rolled).reverse, none, c⟩

/-- The dice that take the place of one die. One reroll is always made. -/
def reroll (k : DieKind) (repeats : Repeats) (condition : Condition) (c : Context ρ) :
    Run ρ (List Die) :=
  match repeats with
  | .once => k.roll .reroll c
  | .recursive =>
    let limit := c.limits.maxIterations
    k.rerollFrom condition limit [] (limit - 1) c

end DieKind

end DiceNotation
