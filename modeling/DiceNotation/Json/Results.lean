import DiceNotation.Json
import DiceNotation.Limits
import DiceNotation.Report
import DiceNotation.Tally

/-!
# Results as JSON

Which fields the results have and in which order they come. A success is written only where successes
are counted, and a breakdown only where there is one.
-/

namespace DiceNotation

def Die.json (d : Die) : Json :=
  .object
    ([("group", .int d.group), ("rolled", .int d.rolled), ("value", .int d.value),
      ("status", .string d.status.name), ("source", .string d.source.name),
      ("exploded", .bool d.exploded)] ++
      match d.success with
      | none => []
      | some b => [("success", .bool b)])

def GroupRolls.json (g : GroupRolls) : Json :=
  .object
    [("index", .int g.index), ("subtotal", .int g.subtotal),
      ("rolls", .array (g.rolls.toList.map Die.json))]

/-- The breakdown is the last field, where there is one. -/
def RollResult.json (r : RollResult) (breakdown : Option String) : Json :=
  .object
    ([("total", .int r.total), ("rolls", .array (r.groups.map GroupRolls.json))] ++
      match breakdown with
      | none => []
      | some text => [("breakdown", .string text)])

def Report.json (r : Report) : Json := r.result.json (some r.breakdown)

/-- An object with the outcomes as names, in ascending order. -/
def Tally.json (t : Tally Int) : Json :=
  .object (t.toList.map fun entry => (toString entry.1, .int entry.2))

def Limits.json (l : Limits) : Json :=
  .object
    [("max_rolls", .ofCount? l.maxRolls), ("max_iterations", .int l.maxIterations),
      ("max_outcomes", .int l.maxOutcomes)]

end DiceNotation
