import DiceNotation.Evaluation
import DiceNotation.Roller.Playback

/-!
# Rollers under observation

What is said about an evaluation on any roller is said with the help of a recorder: it passes every
request on to another roller and writes the answers down. `Roller.Bounded` and `Roller.Reliable` are
the two things a roller can be trusted with.
-/

namespace DiceNotation

variable {ρ : Type}

namespace Roller

/-- An answer lies within the bounds of its request, unless these are crossed. -/
def Bounded (ρ : Type) [Roller ρ] : Prop :=
  ∀ (r : ρ) (low high x : Int), low ≤ high → (roll r low high).1 = .ok x → low ≤ x ∧ x ≤ high

/-- Every request is answered, unless its bounds are crossed. -/
def Reliable (ρ : Type) [Roller ρ] : Prop :=
  ∀ (r : ρ) (low high : Int), low ≤ high → ∃ x, (roll r low high).1 = .ok x

end Roller

namespace Playback

theorem exists_roll_eq_ok (p : Playback) {low high : Int} (h : low ≤ high) :
    ∃ x, (p.roll low high).1 = .ok x ∧ low ≤ x ∧ x ≤ high := by
  have hbounds : ¬ high < low := by omega
  unfold roll
  rw [if_neg hbounds]
  cases p.values[p.used % p.values.size]? with
  | none => exact ⟨low, rfl, Int.le_refl low, h⟩
  | some x => exact ⟨fold x low high, rfl, le_fold h, fold_le h⟩

/-- Whatever the values are, they are handed out within the bounds. -/
theorem bounded : Roller.Bounded Playback := by
  intro p low high x h hx
  obtain ⟨y, hy, hbounds⟩ := p.exists_roll_eq_ok h
  have hxy : Except.ok x = Except.ok y := hx.symm.trans hy
  cases hxy
  exact hbounds

theorem reliable : Roller.Reliable Playback := by
  intro p low high h
  obtain ⟨x, hx, -⟩ := p.exists_roll_eq_ok h
  exact ⟨x, hx⟩

end Playback

/-- A roller together with the answers it has given, the last one last. -/
structure Recorder (ρ : Type) where
  roller : ρ
  answers : List (Except RollError Int)

namespace Recorder

variable [Roller ρ]

def roll (r : Recorder ρ) (low high : Int) : Except RollError Int × Recorder ρ :=
  let (answer, roller) := Roller.roll r.roller low high
  (answer, ⟨roller, r.answers ++ [answer]⟩)

instance : Roller (Recorder ρ) := ⟨roll⟩

end Recorder

namespace Context

/-- The same context, whose roller is recorded from now on. -/
def recorded (c : Context ρ) : Context (Recorder ρ) := ⟨c.limits, c.rolls, c.groups, ⟨c.roller, []⟩⟩

/-- The same context without its record. -/
def unrecorded (c : Context (Recorder ρ)) : Context ρ := ⟨c.limits, c.rolls, c.groups, c.roller.roller⟩

/-- The same context with another cap on rolls. -/
def withCap (cap : Option Nat) (c : Context ρ) : Context ρ :=
  { c with limits := { c.limits with maxRolls := cap } }

end Context

end DiceNotation
