import DiceNotation.Distribution
import DiceNotation.Expr.Parser
import DiceNotation.Roller
import DiceNotation.Token.Lexer

/-!
# Errors of the whole program

Everything that can go wrong between a text and its result. `Expr.parse` is the way from a text to an
expression.
-/

namespace DiceNotation

inductive Error where
  | lex (error : LexError)
  | parse (error : ParseError)
  | roll (error : RollError)
  | distribution (error : DistributionError)
  deriving DecidableEq, Repr

namespace Error

def message : Error → String
  | lex e => e.message
  | parse e => e.message
  | roll e => e.message
  | distribution e => e.message

/-- The byte of the text at which reading failed; later errors have no place in the text. -/
def position? : Error → Option Nat
  | lex e => some e.position
  | parse e => some e.position
  | roll _ | distribution _ => none

end Error

/-- The expression that a text denotes. -/
def Expr.parse (text : String) : Except Error Expr :=
  match Token.scan text with
  | .error e => .error (.lex e)
  | .ok tokens => (Expr.ofTokens tokens).mapError Error.parse

end DiceNotation
