import DiceNotation.Text.Unprintable

/-!
# Quoted characters

How a message shows a single character: between single quotes, with a backslash before the quote and
the backslash, short names for the four common controls, and the code of every character that would
leave no mark.
-/

namespace DiceNotation.Text

/-- The digits of `n` to the base sixteen, in lower case and without padding. -/
def hex (n : Nat) : String := String.ofList (Nat.toDigits 16 n)

/-- The character as it stands between the quotes. -/
def escaped (c : Char) : String :=
  match c with
  | '\x00' => "\\0"
  | '\t' => "\\t"
  | '\r' => "\\r"
  | '\n' => "\\n"
  | '\'' => "\\'"
  | '\\' => "\\\\"
  | c => if isUnprintable c then "\\u\x7b" ++ hex c.toNat ++ "\x7d" else String.singleton c

def quotedChar (c : Char) : String := "'" ++ escaped c ++ "'"

end DiceNotation.Text
