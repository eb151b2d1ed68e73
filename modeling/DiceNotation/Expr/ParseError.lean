import DiceNotation.Token

/-!
# Errors of the reader

An error names the token at which no expression is possible any more.
-/

namespace DiceNotation

inductive ParseErrorKind where
  | unexpectedToken (expected : List TokenKind)
  | invalidDice
  | modifierWithoutDice
  deriving DecidableEq, Repr

structure ParseError where
  kind : ParseErrorKind
  position : Nat
  found : String
  deriving DecidableEq, Repr

namespace ParseErrorKind

/-- Joins names as an English list of alternatives. -/
def alternatives : List String → String
  | [] => ""
  | [a] => a
  | [a, b] => a ++ " or " ++ b
  | names => go names
where
  go : List String → String
    | [] => ""
    | [last] => "or " ++ last
    | name :: rest => name ++ ", " ++ go rest

def message : ParseErrorKind → String
  | unexpectedToken expected =>
    "unexpected token; expected " ++ alternatives (expected.map TokenKind.label)
  | invalidDice => "dice need a count and a number of sides of at least 1"
  | modifierWithoutDice => "modifiers can only follow dice"

end ParseErrorKind

namespace ParseError

/-- The error of the given kind at a token. -/
def atToken (token : Token) (kind : ParseErrorKind) : ParseError :=
  ⟨kind, token.start, token.kind.describe⟩

def message (e : ParseError) : String :=
  "error at position " ++ toString e.position ++ " (found " ++ e.found ++ "): " ++ e.kind.message

end ParseError

end DiceNotation
