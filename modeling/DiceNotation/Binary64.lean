/-!
# Double precision numbers

Integers are converted by rounding to the nearest double, a tie going to the even neighbour. In the
other direction a finite double is taken apart into the exact number it stands for, and written with a
fixed number of decimal places, rounded in the same way.
-/

namespace DiceNotation.Binary64

/-- The nearest double. Of a long number only the leading 64 bits are converted; the lowest of them is
set when anything is cut off, so that the number stays on its side of every tie. -/
def ofNat (n : Nat) : Float :=
  if n < 18446744073709551616 then n.toUInt64.toFloat
  else
    let shift := n.log2 - 63
    let leading := n >>> shift
    let sticky := if leading <<< shift = n then leading else leading ||| 1
    sticky.toUInt64.toFloat.scaleB shift

def ofInt : Int → Float
  | .ofNat n => ofNat n
  | .negSucc n => -ofNat (n + 1)

/-- The quotient of two natural numbers, rounded to the nearest, a tie to the even neighbour. -/
def roundedQuotient (n d : Nat) : Nat :=
  let q := n / d
  let twice := 2 * (n % d)
  if d < twice then q + 1
  else if twice = d then q + q % 2
  else q

/-- A finite double, which is `significand` shifted left by `exponent - 1074` binary places. -/
structure Parts where
  negative : Bool
  significand : Nat
  exponent : Nat
  deriving DecidableEq, Repr

/-- The number of values that the fraction field of a double can have. -/
def fractions : Nat := 4503599627370496

/-- The number of values that the exponent field of a double can have. -/
def exponents : Nat := 2048

def parts (x : Float) : Parts :=
  let bits := x.toBits.toNat
  let fraction := bits % fractions
  let field := bits / fractions % exponents
  let negative := bits / fractions / exponents = 1
  if field = 0 then ⟨negative, fraction, 0⟩ else ⟨negative, fractions + fraction, field - 1⟩

/-- The size of the number in units of which `one` make up a whole. -/
def Parts.scaled (p : Parts) (one : Nat) : Nat :=
  if 1074 ≤ p.exponent then (p.significand * one) <<< (p.exponent - 1074)
  else roundedQuotient (p.significand * one) (1 <<< (1074 - p.exponent))

/-- Pads on the left with a character up to a width. -/
def padLeft (fill : Char) (width : Nat) (text : String) : String :=
  String.ofList (List.replicate (width - text.length) fill) ++ text

/-- The number with the given places behind the point, of which there is at least one. A negative
number keeps its sign even if it rounds to zero. -/
def fixed (places : Nat) (x : Float) : String :=
  if x.isNaN then "NaN"
  else
    let p := parts x
    let sign := if p.negative then "-" else ""
    if x.isInf then sign ++ "inf"
    else
      let one := Nat.pow 10 places
      let n := p.scaled one
      sign ++ toString (n / one) ++ "." ++ padLeft '0' places (toString (n % one))

end DiceNotation.Binary64
