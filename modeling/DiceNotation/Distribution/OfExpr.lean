import DiceNotation.Distribution.Hands
import DiceNotation.Limits

/-!
# The distribution of an expression

No die is rolled here. Clamps are applied to every face before any selection: they keep the order of
values, so the selected dice are worth the same. Successes are counted last, wherever the modifier
stands. Rerolls and explosions roll an unbounded number of dice and are refused.
-/

namespace DiceNotation

namespace DiceGroup

/-- A group sorted into what happens to every face, to the hand, and at the end. -/
structure Plan where
  face : Distribution
  /-- First selection first. -/
  selections : List Selection
  successes : Option Condition

namespace Plan

/-- Takes in one modifier. -/
def add (p : Plan) (m : Modifier) : Except DistributionError Plan :=
  match m with
  | .select s => .ok { p with selections := p.selections ++ [s] }
  | .clamp c =>
    match Tally.mapM (fun x => .ok (c.apply x)) p.face with
    | .error e => .error (.ofArithmetic e)
    | .ok face => .ok { p with face }
  | .countSuccesses condition => .ok { p with successes := some condition }
  | .reroll .. | .explode .. => .error (.unsupported m)

def successFace (condition : Condition) (x : Int) : Int := if condition.holds x then 1 else 0

/-- The distribution of `count` dice. -/
def distribution (p : Plan) (limit : Nat) (count : DiceCount) :
    Except DistributionError Distribution :=
  match p.selections, p.successes with
  | [], none => Distribution.repeatSum limit p.face count
  | [], some condition => do
    let face ← (Tally.mapM (fun x => .ok (successFace condition x)) p.face).mapError
      DistributionError.ofArithmetic
    Distribution.repeatSum limit face count
  | selections, successes => do
    let hands ← Hands.roll limit p.face count.toNat
    (do
      let selected ← selections.foldlM (fun hands s => Hands.select s hands) hands
      let counted ←
        match successes with
        | none => .ok selected
        | some condition => Hands.countSuccesses condition selected
      Hands.toDistribution counted).mapError DistributionError.ofArithmetic

end Plan

/-- The number of dice and of sides is bounded before anything is worked out. -/
def distribution (g : DiceGroup) (limits : Limits) : Except DistributionError Distribution :=
  match limits.maxRolls.filter (· < g.count.toNat) with
  | some limit => .error (.tooManyDice limit)
  | none =>
    if limits.maxOutcomes < g.sides.toNat then .error (.tooManyOutcomes limits.maxOutcomes)
    else do
      let plan ← g.modifiers.foldlM Plan.add ⟨.die g.sides, [], none⟩
      plan.distribution limits.maxOutcomes g.count

end DiceGroup

namespace Expr

/-- The number of ways in which the dice of the expression make each total. -/
def distribution (limits : Limits) : Expr → Except DistributionError Distribution
  | literal x => .ok (.constant x)
  | dice g => g.distribution limits
  | negate e =>
    match e.distribution limits with
    | .error e => .error e
    | .ok operand => (Tally.mapM DiceNotation.negate operand).mapError DistributionError.ofArithmetic
  | binary op l r =>
    match l.distribution limits with
    | .error e => .error e
    | .ok left =>
      match r.distribution limits with
      | .error e => .error e
      | .ok right => Distribution.combine limits.maxOutcomes op.apply left right

end Expr

end DiceNotation
