import DiceNotation.Expr.Printer
import DiceNotation.Tally

/-!
# Distributions of totals

A distribution is the tally of the totals of an expression. It is built up from single dice by
combining independent parts: every pair of outcomes is met in as many ways as the product of theirs.
-/

namespace DiceNotation

/-- The number of ways to reach each total. -/
abbrev Distribution := Tally Int

/-- Why an expression has no distribution. -/
inductive DistributionError where
  | unsupported (modifier : Modifier)
  | tooManyOutcomes (limit : Nat)
  | tooManyDice (limit : Nat)
  | divisionByZero
  | overflow
  deriving DecidableEq, Repr

namespace DistributionError

def ofArithmetic : ArithmeticError → DistributionError
  | .divisionByZero => divisionByZero
  | .overflow => overflow

def message : DistributionError → String
  | unsupported m => "'" ++ m.render ++ "' has no exact distribution"
  | tooManyOutcomes limit => "more than " ++ toString limit ++ " distinct outcomes"
  | tooManyDice limit => "more than " ++ toString limit ++ " dice in one group"
  | divisionByZero => "divisor can be zero"
  | overflow => "integer overflow"

end DistributionError

namespace Distribution

def constant (x : Int) : Distribution := (∅ : Distribution).insert x 1

/-- One fair die. -/
def die (sides : Sides) : Distribution :=
  (List.range sides.toNat).foldl
    (fun (t : Distribution) (i : Nat) => t.insert ((i : Int) + 1) 1) ∅

/-- Adds the pair of two outcomes, each with the number of ways to reach it. -/
def addPair (f : Int → Int → Except ArithmeticError Int) (left : Int × Nat) (t : Distribution)
    (right : Int × Nat) : Except ArithmeticError Distribution :=
  match Tally.boundedCount (left.2 * right.2) with
  | .error e => .error e
  | .ok ways =>
    match f left.1 right.1 with
    | .error e => .error e
    | .ok x => t.add x ways

/-- The distribution of `f x y` over independent `x` and `y`. The number of pairs is bounded before
any of them is looked at. -/
def combine (limit : Nat) (f : Int → Int → Except ArithmeticError Int) (a b : Distribution) :
    Except DistributionError Distribution :=
  if limit < a.size * b.size then .error (.tooManyOutcomes limit)
  else
    let others := b.toList
    (a.toList.foldlM (fun t entry => others.foldlM (addPair f entry) t) ∅).mapError
      DistributionError.ofArithmetic

/-- Adds `n` more draws from `die` to a sum. -/
def addDraws (limit : Nat) (die : Distribution) :
    Nat → Distribution → Except DistributionError Distribution
  | 0, sum => .ok sum
  | n + 1, sum =>
    match combine limit BinaryOp.add.apply sum die with
    | .error e => .error e
    | .ok sum => addDraws limit die n sum

/-- The sum of `count` independent draws, of which there is at least one. -/
def repeatSum (limit : Nat) (die : Distribution) (count : DiceCount) :
    Except DistributionError Distribution :=
  addDraws limit die (count.toNat - 1) die

end Distribution

end DiceNotation
