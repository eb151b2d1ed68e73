import DiceNotation.Breakdown
import DiceNotation.Distribution.OfExpr
import DiceNotation.Error

/-!
# From a text to its result

The two questions that can be asked of a text: what a roll of it gives, and how its totals are
distributed. Either way the first failure is the answer: that of reading before that of rolling.
-/

namespace DiceNotation

/-- A rolled result with its breakdown in plain style. -/
structure Report where
  result : RollResult
  breakdown : String
  deriving DecidableEq, Repr

namespace Report

def ofResult (e : Expr) (r : RollResult) : Report := ⟨r, Style.plain.breakdown e r.groups⟩

/-- The breakdown and the total as one line. -/
def line (r : Report) : String := r.breakdown ++ " = " ++ toString r.result.total

end Report

/-- Rolls the expression that a text denotes. A text that cannot be read rolls nothing. -/
def rollText {ρ : Type} [Roller ρ] (text : String) (roller : ρ) (limits : Limits) :
    Except Error Report × ρ :=
  match Expr.parse text with
  | .error e => (.error e, roller)
  | .ok e =>
    match e.rollResult roller limits with
    | (.error error, roller) => (.error (.roll error), roller)
    | (.ok r, roller) => (.ok (.ofResult e r), roller)

/-- The distribution of the expression that a text denotes. -/
def distributionOfText (text : String) (limits : Limits) : Except Error Distribution :=
  match Expr.parse text with
  | .error e => .error e
  | .ok e => (e.distribution limits).mapError Error.distribution

end DiceNotation
