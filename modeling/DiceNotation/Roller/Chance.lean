import DiceNotation.Roller

/-!
# Rolling by chance

Faces drawn from a pseudo-random generator. The draw is reduced to the span of the request, so the
answer lies within the bounds whatever the generator returns.
-/

namespace DiceNotation

structure Chance where
  generator : StdGen

namespace Chance

def ofSeed (seed : Nat) : Chance := ⟨mkStdGen seed⟩

def roll (c : Chance) (low high : Int) : Except RollError Int × Chance :=
  if high < low then (.error (.invalidRange low high), c)
  else
    let span := (high - low + 1).toNat
    let (draw, generator) := randNat c.generator 0 (span - 1)
    (.ok (low + ((draw % span : Nat) : Int)), ⟨generator⟩)

instance : Roller Chance := ⟨roll⟩

end Chance

end DiceNotation
