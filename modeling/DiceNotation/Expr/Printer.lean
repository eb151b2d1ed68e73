import DiceNotation.Expr

/-!
# The notation of an expression

`Expr.render` writes an expression with no more parentheses than its shape needs: an operand is
wrapped exactly when it binds less tightly than its place requires.
-/

namespace DiceNotation

namespace DiceGroup

/-- Count and sides are always written, even where the reader would supply them. -/
def render (g : DiceGroup) : String :=
  toString g.count.toNat ++ "d" ++ toString g.sides.toNat ++ String.join (g.modifiers.map Modifier.render)

end DiceGroup

namespace Expr

/-- Wraps the text of an operand that binds less tightly than `least`. -/
def parenthesize (operand : Expr) (text : String) (least : Nat) : String :=
  if operand.precedence < least then "(" ++ text ++ ")" else text

/-- A right operand has to bind tighter than its operator, since operators group to the left. -/
def render : Expr → String
  | literal x => toString x
  | dice g => g.render
  | negate e => "-" ++ parenthesize e e.render negationPrecedence
  | binary op l r =>
    parenthesize l l.render op.precedence ++ " " ++ op.symbol ++ " " ++
      parenthesize r r.render (op.precedence + 1)

end Expr

end DiceNotation
