import DiceNotation.Expr.Printer
import DiceNotation.RollResult

/-!
# Breakdowns

A breakdown is the notation of an expression in which every group of dice is followed by its rolls in
brackets. A die is written as the face it rolled and the value it was clamped to, with a mark for each
thing that happened to it. Styles differ in how they write a face and the total.
-/

namespace DiceNotation

structure Style where
  /-- The text of a die's face before any marks. -/
  face : Die → Sides → String
  total : Int → String

namespace Style

/-- The rolled face, and the value where it differs. -/
def plain : Style where
  face d _ :=
    if d.value = d.rolled then toString d.value else toString d.rolled ++ "->" ++ toString d.value
  total := toString

/-- A rolled one and a rolled greatest face are bold, never a clamped value. -/
def markdown : Style where
  face d sides :=
    let rolled :=
      if d.rolled = 1 ∨ d.rolled = sides.top then "**" ++ toString d.rolled ++ "**"
      else toString d.rolled
    if d.value = d.rolled then rolled else rolled ++ "->" ++ toString d.value
  total x := "\x60" ++ toString x ++ "\x60"

/-- A die with its marks: `!` exploded, `s` a success that counts, struck out when dropped, `r` when
rerolled. -/
def die (style : Style) (d : Die) (sides : Sides) : String :=
  let marked :=
    style.face d sides ++ (if d.exploded then "!" else "") ++
      (if d.isKept && d.success == some true then "s" else "")
  match d.status with
  | .kept => marked
  | .dropped => "~~" ++ marked ++ "~~"
  | .rerolled => marked ++ "r"

/-- A group with its dice in brackets. -/
def group (style : Style) (g : DiceGroup) (dice : List Die) : String :=
  g.render ++ " [" ++ String.intercalate ", " (dice.map fun d => style.die d g.sides) ++ "]"

/-- The breakdown of an expression whose first group has the given index, and the index of the group
that comes next. -/
def breakdownFrom (style : Style) (groups : List GroupRolls) : Expr → Nat → String × Nat
  | .literal x, next => (toString x, next)
  | .dice g, next =>
    let dice :=
      match GroupRolls.find? groups next with
      | none => []
      | some g => g.rolls.toList
    (style.group g dice, next + 1)
  | .negate e, next =>
    let (operand, next) := style.breakdownFrom groups e next
    ("-" ++ e.parenthesize operand Expr.negationPrecedence, next)
  | .binary op l r, next =>
    let (left, next) := style.breakdownFrom groups l next
    let (right, next) := style.breakdownFrom groups r next
    (l.parenthesize left op.precedence ++ " " ++ op.symbol ++ " " ++
      r.parenthesize right (op.precedence + 1), next)

def breakdown (style : Style) (e : Expr) (groups : List GroupRolls) : String :=
  (style.breakdownFrom groups e 0).1

/-- The breakdown and the total as one line. -/
def line (style : Style) (e : Expr) (r : RollResult) : String :=
  style.breakdown e r.groups ++ " = " ++ style.total r.total

end Style

end DiceNotation
