import DiceNotation.Roller

/-!
# Playing back a list of faces

The values of a list are handed out in order, from the start again once they are used up. A value
outside the requested bounds is moved into them by a multiple of their span, so faces that fit are
played back unchanged.
-/

namespace DiceNotation

/-- A list of values and how many of them have been asked for. -/
structure Playback where
  values : Array Int
  used : Nat
  deriving DecidableEq, Repr

namespace Playback

def ofList (values : List Int) : Playback := ⟨values.toArray, 0⟩

/-- The integer from `low` to `high` that differs from `x` by a multiple of their span. -/
def fold (x low high : Int) : Int := low + (x - low) % (high - low + 1)

theorem le_fold {x low high : Int} (h : low ≤ high) : low ≤ fold x low high := by
  have := Int.emod_nonneg (x - low) (b := high - low + 1) (by omega)
  unfold fold
  omega

theorem fold_le {x low high : Int} (h : low ≤ high) : fold x low high ≤ high := by
  have := Int.emod_lt_of_pos (x - low) (b := high - low + 1) (by omega)
  unfold fold
  omega

theorem fold_of_mem {x low high : Int} (hlow : low ≤ x) (hhigh : x ≤ high) :
    fold x low high = x := by
  have := Int.emod_eq_of_lt (a := x - low) (b := high - low + 1) (by omega) (by omega)
  unfold fold
  omega

/-- A request with crossed bounds uses up nothing, and an empty list always gives the lower bound. -/
def roll (p : Playback) (low high : Int) : Except RollError Int × Playback :=
  if high < low then (.error (.invalidRange low high), p)
  else
    match p.values[p.used % p.values.size]? with
    | none => (.ok low, p)
    | some x => (.ok (fold x low high), { p with used := p.used + 1 })

instance : Roller Playback := ⟨roll⟩

end Playback

end DiceNotation
