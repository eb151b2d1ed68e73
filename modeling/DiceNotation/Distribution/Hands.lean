import DiceNotation.Distribution

/-!
# Hands of dice

What a selection keeps depends on all dice of a group at once, so a group with selections is tallied
by hands. A hand is the ascending list of the faces that the dice show, whichever die shows which.
-/

namespace DiceNotation

/-- The number of ways to roll each hand. -/
abbrev Hands := Tally (List Int)

namespace Selection

/-- What the selection leaves of an ascending list of faces. -/
def pick (s : Selection) (faces : List Int) : List Int :=
  match s.action, s.rank with
  | .keep, .highest => faces.drop (faces.length - s.count)
  | .keep, .lowest => faces.take s.count
  | .drop, .highest => faces.take (faces.length - s.count)
  | .drop, .lowest => faces.drop s.count

end Selection

namespace Hands

/-- Puts a face into an ascending list, behind the faces equal to it. -/
def insertFace (face : Int) : List Int → List Int
  | [] => [face]
  | x :: rest => if x ≤ face then x :: insertFace face rest else face :: x :: rest

/-- The hand of no dice. -/
def noDice : Hands := (∅ : Hands).insert [] 1

/-- Adds the hand that one face makes of a hand rolled in `n` ways. -/
def addFace (limit : Nat) (hand : List Int) (n : Nat) (t : Hands) (face : Int × Nat) :
    Except DistributionError Hands :=
  match (Tally.boundedCount (n * face.2)).bind (t.add (insertFace face.1 hand)) with
  | .error e => .error (.ofArithmetic e)
  | .ok t => if limit < t.size then .error (.tooManyOutcomes limit) else .ok t

/-- The hands with one more die, from the hands without it in the given order. -/
def addDieTo (limit : Nat) (die : Distribution) (hands : List (List Int × Nat)) :
    Except DistributionError Hands :=
  let faces := die.toList
  hands.foldlM (fun t hand => faces.foldlM (addFace limit hand.1 hand.2) t) ∅

/-- Rolls `n` more dice that each follow `die`. -/
def addDice (limit : Nat) (die : Distribution) : Nat → Hands → Except DistributionError Hands
  | 0, hands => .ok hands
  | n + 1, hands =>
    match addDieTo limit die hands.toList with
    | .error e => .error e
    | .ok hands => addDice limit die n hands

/-- The hands of `count` dice that each follow `die`. -/
def roll (limit : Nat) (die : Distribution) (count : Nat) : Except DistributionError Hands :=
  addDice limit die count noDice

/-- What a selection leaves of every hand. -/
def select (s : Selection) (hands : Hands) : Except ArithmeticError Hands :=
  Tally.mapM (fun faces => .ok (s.pick faces)) hands

/-- Replaces every hand by the number of its faces that meet the condition. -/
def countSuccesses (condition : Condition) (hands : Hands) : Except ArithmeticError Hands :=
  Tally.mapM (fun faces => .ok [((faces.countP condition.holds : Nat) : Int)]) hands

/-- Adds up the faces of a hand; no partial sum may leave the range. -/
def sum (faces : List Int) : Except ArithmeticError Int :=
  faces.foldlM (fun sum x => checked (sum + x)) 0

/-- The distribution of the sum of the faces. -/
def toDistribution (hands : Hands) : Except ArithmeticError Distribution :=
  Tally.mapM sum hands

end Hands

end DiceNotation
