/-!
# Reading JSON

The parts of a JSON text, each read from the front of a list of characters and returned with what
follows it. A value that is of no interest is checked for its form and skipped, whatever its depth.
-/

namespace DiceNotation.Json.Reader

def isBlank (c : Char) : Bool := c == ' ' || c == '\n' || c == '\t' || c == '\r'

def skipBlanks (input : List Char) : List Char := input.dropWhile isBlank

/-- The rest of the input behind a sign, which blanks may precede. -/
def afterSign? (sign : Char) (input : List Char) : Option (List Char) :=
  match skipBlanks input with
  | [] => none
  | c :: rest => if c = sign then some rest else none

/-- Part of a string: a character, or a UTF-16 code unit written as an escape. -/
inductive Piece where
  | char (c : Char)
  | unit (code : Nat)
  deriving DecidableEq, Repr

def hexDigit? (c : Char) : Option Nat :=
  if c.isDigit then some (c.toNat - '0'.toNat)
  else if 'a' ≤ c ∧ c ≤ 'f' then some (c.toNat - 'a'.toNat + 10)
  else if 'A' ≤ c ∧ c ≤ 'F' then some (c.toNat - 'A'.toNat + 10)
  else none

def codeUnit? (a b c d : Char) : Option Nat := do
  let a ← hexDigit? a
  let b ← hexDigit? b
  let c ← hexDigit? c
  let d ← hexDigit? d
  return ((a * 16 + b) * 16 + c) * 16 + d

/-- What a backslash and one further character stand for. -/
def shortEscape? : Char → Option Char
  | '"' => some '"'
  | '\\' => some '\\'
  | '/' => some '/'
  | 'b' => some '\x08'
  | 'f' => some '\x0c'
  | 'n' => some '\n'
  | 'r' => some '\r'
  | 't' => some '\t'
  | _ => none

/-- A string whose opening quote has been read. The pieces so far are in `pieces`, the last first. -/
def stringFrom? (pieces : List Piece) : List Char → Option (List Piece × List Char)
  | [] => none
  | '"' :: rest => some (pieces.reverse, rest)
  | '\\' :: 'u' :: a :: b :: c :: d :: rest =>
    match codeUnit? a b c d with
    | none => none
    | some code => stringFrom? (.unit code :: pieces) rest
  | '\\' :: c :: rest =>
    match shortEscape? c with
    | none => none
    | some c => stringFrom? (.char c :: pieces) rest
  | c :: rest => if c.toNat < 32 then none else stringFrom? (.char c :: pieces) rest

def isLeading (code : Nat) : Bool := 0xd800 ≤ code && code ≤ 0xdbff

def isTrailing (code : Nat) : Bool := 0xdc00 ≤ code && code ≤ 0xdfff

/-- The text of a string, in which surrogates come in pairs. -/
def text? : List Piece → Option (List Char)
  | [] => some []
  | .char c :: rest => (text? rest).map (c :: ·)
  | .unit high :: .unit low :: rest =>
    if isLeading high then
      if isTrailing low then
        (text? rest).map (Char.ofNat (0x10000 + (high - 0xd800) * 0x400 + (low - 0xdc00)) :: ·)
      else none
    else if isTrailing high then none
    else (text? (.unit low :: rest)).map (Char.ofNat high :: ·)
  | .unit code :: rest =>
    if isLeading code || isTrailing code then none else (text? rest).map (Char.ofNat code :: ·)

/-- At least one decimal digit, and what follows the digits. -/
def digits? (input : List Char) : Option (List Char × List Char) :=
  match input.takeWhile Char.isDigit with
  | [] => none
  | digits => some (digits, input.dropWhile Char.isDigit)

/-- The digits of an integer: a zero stands alone. -/
def integer? (input : List Char) : Option (List Char × List Char) :=
  match digits? input with
  | some ('0' :: _ :: _, _) => none
  | result => result

/-- Skips a fraction, if there is one. -/
def skipFraction? : List Char → Option (List Char)
  | '.' :: rest => (digits? rest).map (·.2)
  | input => some input

/-- Skips an exponent, if there is one. -/
def skipExponent? : List Char → Option (List Char)
  | c :: rest =>
    if c = 'e' ∨ c = 'E' then
      match rest with
      | '+' :: rest | '-' :: rest => (digits? rest).map (·.2)
      | rest => (digits? rest).map (·.2)
    else some (c :: rest)
  | [] => some []

/-- Skips a number. -/
def skipNumber? (input : List Char) : Option (List Char) := do
  let unsigned :=
    match input with
    | '-' :: rest => rest
    | input => input
  let (_, rest) ← integer? unsigned
  let rest ← skipFraction? rest
  skipExponent? rest

/-- A number without sign, fraction and exponent. -/
def natural? (input : List Char) : Option (Nat × List Char) := do
  let (digits, rest) ← integer? (skipBlanks input)
  if (← skipExponent? (← skipFraction? rest)).length = rest.length then
    return (digits.foldl (fun n c => 10 * n + (c.toNat - '0'.toNat)) 0, rest)
  else none

mutual

/-- Skips a value; `fuel` bounds the number of steps and is never short if it is twice the length of
the input. -/
def skipValue? : Nat → List Char → Option (List Char)
  | 0, _ => none
  | fuel + 1, input =>
    match skipBlanks input with
    | 'n' :: 'u' :: 'l' :: 'l' :: rest => some rest
    | 't' :: 'r' :: 'u' :: 'e' :: rest => some rest
    | 'f' :: 'a' :: 'l' :: 's' :: 'e' :: rest => some rest
    | '"' :: rest => (stringFrom? [] rest).map (·.2)
    | '[' :: rest =>
      match afterSign? ']' rest with
      | some rest => some rest
      | none => skipItems? fuel rest
    | '\x7b' :: rest =>
      match afterSign? '\x7d' rest with
      | some rest => some rest
      | none => skipMembers? fuel rest
    | rest => skipNumber? rest

/-- Skips the items of an array and its closing bracket. -/
def skipItems? : Nat → List Char → Option (List Char)
  | 0, _ => none
  | fuel + 1, input =>
    match skipValue? fuel input with
    | none => none
    | some rest =>
      match afterSign? ',' rest with
      | some rest => skipItems? fuel rest
      | none => afterSign? ']' rest

/-- Skips the members of an object and its closing brace. -/
def skipMembers? : Nat → List Char → Option (List Char)
  | 0, _ => none
  | fuel + 1, input =>
    match (afterSign? '"' input).bind (stringFrom? []) with
    | none => none
    | some (_, rest) =>
      match (afterSign? ':' rest).bind (skipValue? fuel) with
      | none => none
      | some rest =>
        match afterSign? ',' rest with
        | some rest => skipMembers? fuel rest
        | none => afterSign? '\x7d' rest

end

/-- Skips a value of any size. -/
def skip? (input : List Char) : Option (List Char) := skipValue? (2 * input.length + 2) input

end DiceNotation.Json.Reader
