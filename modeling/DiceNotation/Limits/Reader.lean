import DiceNotation.Arithmetic
import DiceNotation.Json.Reader
import DiceNotation.Limits

/-!
# Limits from JSON

Limits are read from an object, in which each limit may be given once and other names are passed over,
or from an array, which gives them by position. A limit that is not given has its usual value.
-/

namespace DiceNotation.Limits

open DiceNotation.Json.Reader

/-- The limits read so far. -/
structure Given where
  maxRolls : Option (Option Nat)
  maxIterations : Option Nat
  maxOutcomes : Option Nat
  deriving DecidableEq, Repr

namespace Given

def nothing : Given := ⟨none, none, none⟩

def limits (g : Given) : Limits :=
  ⟨g.maxRolls.getD usual.maxRolls, g.maxIterations.getD usual.maxIterations,
    g.maxOutcomes.getD usual.maxOutcomes⟩

end Given

/-- A count that does not pass `maxCount`. -/
def count? (input : List Char) : Option (Nat × List Char) :=
  (natural? input).filter fun result => result.1 ≤ maxCount

/-- A count, or null for no bound. -/
def optionalCount? (input : List Char) : Option (Option Nat × List Char) :=
  match skipBlanks input with
  | 'n' :: 'u' :: 'l' :: 'l' :: rest => some (none, rest)
  | input => (count? input).map fun result => (some result.1, result.2)

/-- The value of a member, which is refused when the limit has been given before. -/
def member? (name : List Char) (g : Given) (input : List Char) : Option (Given × List Char) :=
  if name = "max_rolls".toList then
    if g.maxRolls.isSome then none
    else (optionalCount? input).map fun r => ({ g with maxRolls := some r.1 }, r.2)
  else if name = "max_iterations".toList then
    if g.maxIterations.isSome then none
    else (count? input).map fun r => ({ g with maxIterations := some r.1 }, r.2)
  else if name = "max_outcomes".toList then
    if g.maxOutcomes.isSome then none
    else (count? input).map fun r => ({ g with maxOutcomes := some r.1 }, r.2)
  else (skip? input).map fun rest => (g, rest)

/-- The members of an object and its closing brace; `fuel` bounds their number. -/
def members? : Nat → Given → List Char → Option (Given × List Char)
  | 0, _, _ => none
  | fuel + 1, g, input => do
    let (pieces, rest) ← (afterSign? '"' input).bind (stringFrom? [])
    let name ← text? pieces
    let rest ← afterSign? ':' rest
    let (g, rest) ← member? name g rest
    match afterSign? ',' rest with
    | some rest => members? fuel g rest
    | none => (afterSign? '\x7d' rest).map fun rest => (g, rest)

def object? (input : List Char) : Option (Given × List Char) :=
  match afterSign? '\x7d' input with
  | some rest => some (.nothing, rest)
  | none => members? input.length .nothing input

/-- The end of an array, or what follows the comma before its next item. -/
def nextItem? (input : List Char) : Option (List Char ⊕ List Char) :=
  match afterSign? ',' input with
  | some rest => some (.inr rest)
  | none => (afterSign? ']' input).map .inl

def array? (input : List Char) : Option (Given × List Char) :=
  match afterSign? ']' input with
  | some rest => some (.nothing, rest)
  | none => do
    let (rolls, rest) ← optionalCount? input
    match ← nextItem? rest with
    | .inl rest => return (⟨some rolls, none, none⟩, rest)
    | .inr rest =>
      let (iterations, rest) ← count? rest
      match ← nextItem? rest with
      | .inl rest => return (⟨some rolls, some iterations, none⟩, rest)
      | .inr rest =>
        let (outcomes, rest) ← count? rest
        let rest ← afterSign? ']' rest
        return (⟨some rolls, some iterations, some outcomes⟩, rest)

/-- The limits that a JSON text gives. -/
def ofJson? (text : String) : Option Limits := do
  let (given, rest) ←
    match skipBlanks text.toList with
    | '\x7b' :: rest => object? rest
    | '[' :: rest => array? rest
    | _ => none
  if (skipBlanks rest).isEmpty then return given.limits else none

end DiceNotation.Limits
