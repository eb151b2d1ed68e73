import DiceNotation.Condition

/-!
# Modifiers of a group of dice

A modifier is carried out after the dice of a group have been rolled. Modifiers fall into five kinds:
selections choose which dice stay in play, rerolls and explosions roll further dice, clamps change
values, and success counting changes what the group is worth.
-/

namespace DiceNotation

/-- Which end of the ranking by value comes first. -/
inductive Rank where
  | highest | lowest
  deriving DecidableEq, Repr

/-- What happens to the dice at the front of the ranking. -/
inductive Action where
  | keep | drop
  deriving DecidableEq, Repr

/-- Keeps or drops the first `count` dice of a ranking. -/
structure Selection where
  action : Action
  rank : Rank
  count : Nat
  deriving DecidableEq, Repr

/-- How often a reroll or an explosion may follow from one die. -/
inductive Repeats where
  | once | recursive
  deriving DecidableEq, Repr

/-- A bound that values are moved to when they are beyond it. -/
inductive Clamp where
  | minimum (bound : Int)
  | maximum (bound : Int)
  deriving DecidableEq, Repr

inductive Modifier where
  | select (selection : Selection)
  | reroll (repeats : Repeats) (condition : Condition)
  | explode (repeats : Repeats) (condition : Condition)
  | clamp (clamp : Clamp)
  | countSuccesses (condition : Condition)
  deriving DecidableEq, Repr

namespace Selection

def keyword (s : Selection) : String :=
  match s.action, s.rank with
  | .keep, .highest => "kh"
  | .keep, .lowest => "kl"
  | .drop, .highest => "dh"
  | .drop, .lowest => "dl"

def render (s : Selection) : String := s.keyword ++ toString s.count

end Selection

namespace Clamp

def apply : Clamp → Int → Int
  | minimum bound, x => max x bound
  | maximum bound, x => min x bound

def render : Clamp → String
  | minimum bound => "mi" ++ toString bound
  | maximum bound => "ma" ++ toString bound

end Clamp

namespace Modifier

/-- Whether the modifier does nothing but choose among the dice. -/
def isSelection : Modifier → Bool
  | select _ => true
  | _ => false

/-- The notation of the modifier, with every argument written out. -/
def render : Modifier → String
  | select s => s.render
  | reroll .once c => "r" ++ c.render
  | reroll .recursive c => "rr" ++ c.render
  | explode .recursive c => "!" ++ c.render
  | explode .once c => "!o" ++ c.render
  | clamp c => c.render
  | countSuccesses c => "cs" ++ c.render

end Modifier

end DiceNotation
