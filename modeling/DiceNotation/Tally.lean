import Std.Data.ExtTreeMap
import DiceNotation.Arithmetic

/-!
# Tallies

A tally says in how many equally likely ways each outcome can come about. Outcomes are held in
ascending order, and two tallies that agree at every outcome are equal. Adding to a tally fails when a
count would pass `maxCount`.
-/

namespace DiceNotation

/-- Ways to reach each outcome; an outcome that is absent cannot be reached. -/
abbrev Tally (α : Type) [Ord α] := Std.ExtTreeMap α Nat

namespace Tally

variable {α β : Type} [Ord α] [Std.TransOrd α] [Ord β] [Std.TransOrd β]

/-- The number of ways to reach `x`. -/
def ways (t : Tally α) (x : α) : Nat := t.getD x 0

/-- A number of ways that does not pass `maxCount`. -/
def boundedCount (n : Nat) : Except ArithmeticError Nat :=
  if n ≤ maxCount then .ok n else .error .overflow

/-- Adds `n` ways to reach `x`. -/
def add (t : Tally α) (x : α) (n : Nat) : Except ArithmeticError (Tally α) :=
  match boundedCount (t.ways x + n) with
  | .ok total => .ok (t.insert x total)
  | .error e => .error e

theorem boundedCount_eq_ok_iff {n m : Nat} : boundedCount n = .ok m ↔ n ≤ maxCount ∧ m = n := by
  unfold boundedCount
  split
  · next h => simp [h, eq_comm]
  · next h => simp [h]

theorem add_eq_ok_iff {t s : Tally α} {x : α} {n : Nat} :
    t.add x n = .ok s ↔ t.ways x + n ≤ maxCount ∧ s = t.insert x (t.ways x + n) := by
  unfold add
  split
  · next h =>
    obtain ⟨hle, rfl⟩ := boundedCount_eq_ok_iff.1 h
    simp [hle, eq_comm]
  · next e h =>
    have hgt : ¬ t.ways x + n ≤ maxCount := fun hle => by simp [boundedCount, hle] at h
    simp [hgt]

/-- Adds an entry at the place to which `f` moves it. -/
def addMoved (f : α → Except ArithmeticError β) (t : Tally β) (entry : α × Nat) :
    Except ArithmeticError (Tally β) :=
  match f entry.1 with
  | .ok y => t.add y entry.2
  | .error e => .error e

/-- Moves every outcome `x` to `f x`, where outcomes may meet. -/
def mapM (f : α → Except ArithmeticError β) (t : Tally α) : Except ArithmeticError (Tally β) :=
  t.toList.foldlM (addMoved f) ∅

/-- The number of ways altogether. -/
def total (t : Tally α) : Nat := t.foldl (fun sum _ n => sum + n) 0

end Tally

end DiceNotation
