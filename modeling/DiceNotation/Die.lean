import DiceNotation.Arithmetic

/-!
# Rolled dice

A die keeps the face it rolled for good. What becomes of it afterwards is written beside the face: a
value changed by clamps, whether it is still in play, and whether it gave rise to another roll.
-/

namespace DiceNotation

/-- Whether a die is in play, or what took it out. -/
inductive Status where
  | kept | dropped | rerolled
  deriving DecidableEq, Repr

/-- What a die was rolled for. -/
inductive Source where
  | initial | reroll | explosion
  deriving DecidableEq, Repr

namespace Status

def name : Status → String
  | kept => "kept"
  | dropped => "dropped"
  | rerolled => "rerolled"

end Status

namespace Source

def name : Source → String
  | initial => "initial"
  | reroll => "reroll"
  | explosion => "explosion"

end Source

structure Die where
  /-- The group that rolled the die, counted from the left of the expression. -/
  group : Nat
  rolled : Int
  value : Int
  status : Status
  source : Source
  exploded : Bool
  /-- Whether the die is a success, in groups that count them. -/
  success : Option Bool
  deriving DecidableEq, Repr

namespace Die

/-- A die that has just been rolled. -/
def fresh (group : Nat) (rolled : Int) (source : Source) : Die :=
  ⟨group, rolled, rolled, .kept, source, false, none⟩

def isKept (d : Die) : Bool := d.status == .kept

/-- What the die adds to its group: nothing once it is out of play, and a success counts one. -/
def worth (d : Die) : Int :=
  if d.isKept then
    match d.success with
    | none => d.value
    | some true => 1
    | some false => 0
  else 0

def drop (d : Die) : Die := { d with status := .dropped }

def replace (d : Die) : Die := { d with status := .rerolled }

def explode (d : Die) : Die := { d with exploded := true }

end Die

end DiceNotation
