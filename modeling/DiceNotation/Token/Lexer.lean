import DiceNotation.Text.Quoted
import DiceNotation.Token

/-!
# From text to tokens

`Token.scan` reads a text from left to right. At each place it skips a blank or takes the longest
lexeme that starts there; the first place where neither is possible ends the scan with an error. All
blanks and lexemes are ASCII, so a lexeme has as many bytes as characters.
-/

namespace DiceNotation

inductive LexError where
  | unexpectedChar (position : Nat) (found : Char)
  | numberTooLarge (position : Nat) (digits : String)
  deriving DecidableEq, Repr

namespace LexError

/-- The byte at which the text stops making sense. -/
def position : LexError → Nat
  | unexpectedChar position _ | numberTooLarge position _ => position

def message : LexError → String
  | unexpectedChar position found =>
    "error at position " ++ toString position ++ ": unexpected character " ++ Text.quotedChar found
  | numberTooLarge position digits =>
    "error at position " ++ toString position ++ ": number \"" ++ digits ++ "\" is too large"

end LexError

namespace Token

/-- The characters that may stand between lexemes. -/
def isBlank (c : Char) : Bool :=
  c == ' ' || c == '\t' || c == '\r' || c == '\n' || c == '\x0c'

/-- The lexemes with a fixed spelling. A spelling stands before every other one it begins with. -/
def spellings : List (String × TokenKind) :=
  [("kh", .keyword (.select .keep .highest)),
   ("kl", .keyword (.select .keep .lowest)),
   ("k", .keyword .keep),
   ("dh", .keyword (.select .drop .highest)),
   ("dl", .keyword (.select .drop .lowest)),
   ("d", .dice),
   ("D", .dice),
   ("rr", .keyword (.trigger (.reroll .recursive))),
   ("r", .keyword (.trigger (.reroll .once))),
   ("!o", .keyword (.trigger (.explode .once))),
   ("!", .keyword (.trigger (.explode .recursive))),
   ("mi", .keyword .minimum),
   ("ma", .keyword .maximum),
   ("cs", .keyword (.trigger .countSuccesses)),
   ("=", .comparison .equal),
   ("<=", .comparison .lessEqual),
   ("<", .comparison .less),
   (">=", .comparison .greaterEqual),
   (">", .comparison .greater),
   ("%", .percent),
   ("(", .openParen),
   (")", .closeParen),
   ("+", .operator .add),
   ("-", .operator .sub),
   ("*", .operator .mul),
   ("/", .operator .div)]

/-- The same lexemes, spelled as lists of characters. -/
def fixedLexemes : List (List Char × TokenKind) :=
  spellings.map fun s => (s.1.toList, s.2)

/-- The number that a run of decimal digits denotes. -/
def decimalValue (digits : List Char) : Nat :=
  digits.foldl (fun n c => 10 * n + (c.toNat - '0'.toNat)) 0

/-- The longest lexeme at the front of the text and its length. -/
def longestLexeme? (text : List Char) : Option (TokenKind × Nat) :=
  match text.takeWhile Char.isDigit with
  | [] => (fixedLexemes.find? fun l => l.1.isPrefixOf text).map fun l => (l.2, l.1.length)
  | digits => some (.number (decimalValue digits), digits.length)

/-- Whether the lexeme has a value that an expression can hold. -/
def hasValue : TokenKind → Bool
  | .number n => n ≤ maxInt
  | _ => true

/-- Scans on from a byte position. The next `skip` characters belong to the lexeme taken last, and
`taken` holds the tokens so far, the last one first. -/
def scanFrom (position skip : Nat) (taken : List Token) : List Char → Except LexError (List Token)
  | [] => .ok (⟨.endOfInput, position, position⟩ :: taken).reverse
  | c :: rest =>
    match skip with
    | skip + 1 => scanFrom (position + c.utf8Size) skip taken rest
    | 0 =>
      if isBlank c then scanFrom (position + c.utf8Size) 0 taken rest
      else
        match longestLexeme? (c :: rest) with
        | none => .error (.unexpectedChar position c)
        | some (kind, length) =>
          if hasValue kind then
            scanFrom (position + c.utf8Size) (length - 1)
              (⟨kind, position, position + length⟩ :: taken) rest
          else .error (.numberTooLarge position (String.ofList ((c :: rest).take length)))

/-- The tokens of a text; the last one, and no other, stands for the end of the input. -/
def scan (text : String) : Except LexError (List Token) := scanFrom 0 0 [] text.toList

end Token

end DiceNotation
