import DiceNotation.Modifier

/-!
# Tokens of the notation

A token is one lexeme together with the bytes it occupies in the text. The last token of a text
stands for its end and is empty.
-/

namespace DiceNotation

/-- What the dice that meet a condition give rise to. -/
inductive Trigger where
  | reroll (repeats : Repeats)
  | explode (repeats : Repeats)
  | countSuccesses
  deriving DecidableEq, Repr

/-- The words that start a modifier. `keep` is the short spelling of keeping the highest. -/
inductive Keyword where
  | keep
  | select (action : Action) (rank : Rank)
  | minimum
  | maximum
  | trigger (trigger : Trigger)
  deriving DecidableEq, Repr

namespace Trigger

def text : Trigger → String
  | reroll .once => "r"
  | reroll .recursive => "rr"
  | explode .recursive => "!"
  | explode .once => "!o"
  | countSuccesses => "cs"

/-- The modifier that the word and its condition make up. -/
def modifier : Trigger → Condition → Modifier
  | reroll repeats, c => .reroll repeats c
  | explode repeats, c => .explode repeats c
  | countSuccesses, c => .countSuccesses c

end Trigger

namespace Keyword

def text : Keyword → String
  | keep => "k"
  | select .keep .highest => "kh"
  | select .keep .lowest => "kl"
  | select .drop .highest => "dh"
  | select .drop .lowest => "dl"
  | minimum => "mi"
  | maximum => "ma"
  | trigger t => t.text

end Keyword

inductive TokenKind where
  | number (value : Int)
  | dice
  | percent
  | openParen
  | closeParen
  | operator (op : BinaryOp)
  | keyword (word : Keyword)
  | comparison (comparison : Comparison)
  | endOfInput
  deriving DecidableEq, Repr

namespace TokenKind

/-- Stands for every number where a message lists what could have come. -/
def anyNumber : TokenKind := number 0

/-- The name of the token's class in messages. -/
def label : TokenKind → String
  | number _ => "<number>"
  | dice => "'d'"
  | percent => "'%'"
  | openParen => "'('"
  | closeParen => "')'"
  | operator op => "'" ++ op.symbol ++ "'"
  | keyword _ => "<modifier>"
  | comparison _ => "<comparison>"
  | endOfInput => "end of input"

/-- The name of this very token in messages: its number, keyword or sign where the class has many. -/
def describe : TokenKind → String
  | number n => toString n
  | keyword word => "'" ++ word.text ++ "'"
  | comparison c => "'" ++ c.symbol ++ "'"
  | kind => kind.label

/-- The binary operator that the token can be between two operands. -/
def binaryOp? : TokenKind → Option BinaryOp
  | operator op => some op
  | _ => none

end TokenKind

/-- A kind of token and the bytes from `start` up to but without `stop` that spell it. -/
structure Token where
  kind : TokenKind
  start : Nat
  stop : Nat
  deriving DecidableEq, Repr

end DiceNotation
