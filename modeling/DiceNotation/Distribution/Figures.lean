import DiceNotation.Binary64
import DiceNotation.Distribution

/-!
# Figures of a distribution

Probabilities and the mean are computed in double precision from exact weights. The order of the
additions is part of the result: outcomes are taken in ascending order.
-/

namespace DiceNotation.Distribution

def least? (d : Distribution) : Option Int := d.minKey?

def greatest? (d : Distribution) : Option Int := d.maxKey?

/-- The share of the weight of `x`; nothing is probable in a distribution without weight. -/
def probability (d : Distribution) (x : Int) : Float :=
  let total := d.total
  if total = 0 then 0 else Binary64.ofNat (d.ways x) / Binary64.ofNat total

/-- The mean, which is no number if there is no weight. -/
def mean (d : Distribution) : Float :=
  d.toList.foldl (fun sum entry => sum + Binary64.ofInt entry.1 * Binary64.ofNat entry.2) 0 /
    Binary64.ofNat d.total

end DiceNotation.Distribution
