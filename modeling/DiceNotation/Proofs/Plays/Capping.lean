import DiceNotation.Proofs.Plays.Running

/-!
# Plays under a cap

A play under a cap on rolls goes as it would go without one, until a roll would be the first past the
cap. The cap also cuts a play off when it makes room for more dice than may still be rolled; nothing
is lost by that, as the play would have asked for these dice at once.
-/

namespace DiceNotation

variable {α ρ : Type}

namespace Context

variable {c : Context ρ} {m n : Nat}

theorem refusal?_withCap_of_le (h : c.rolls + n ≤ m) : (c.withCap (some m)).refusal? n = none := by
  have : ¬ m < c.rolls + n := by omega
  exact if_neg this

theorem refusal?_of_lt (hcap : c.limits.maxRolls = some m) (h : m < c.rolls + n) :
    c.refusal? n = some (.tooManyRolls m) := by
  unfold refusal?
  rw [hcap]
  exact if_pos h

/-- Only the cap keeps dice from being rolled. -/
theorem of_refusal?_eq_some {e : RollError} (h : c.refusal? n = some e) :
    ∃ m, c.limits.maxRolls = some m ∧ e = .tooManyRolls m := by
  unfold refusal? at h
  split at h
  · cases h
  · next m hm =>
    split at h
    · cases h
      exact ⟨m, hm, rfl⟩
    · cases h

theorem le_of_refusal?_eq_none (hcap : c.limits.maxRolls = some m) (h : c.refusal? n = none) :
    c.rolls + n ≤ m := by
  unfold refusal? at h
  rw [hcap] at h
  by_cases hm : m < c.rolls + n
  · simp only [if_pos hm] at h
    cases h
  · omega

variable [Roller ρ]

theorem rollOne_groups (c : Context ρ) (s : Sides) : (c.rollOne s).2.groups = c.groups := by
  rcases c.rollOne_cases s with ⟨e, -, hroll⟩ | ⟨-, hroll⟩
  · rw [hroll]
  · rw [hroll]

theorem rollOne_limits (c : Context ρ) (s : Sides) : (c.rollOne s).2.limits = c.limits := by
  rcases c.rollOne_cases s with ⟨e, -, hroll⟩ | ⟨-, hroll⟩
  · rw [hroll]
  · rw [hroll]

theorem rollOne_rolls_le_cap (hcap : c.limits.maxRolls = some m) (hc : c.rolls ≤ m) (s : Sides) :
    (c.rollOne s).2.rolls ≤ m := by
  rcases c.rollOne_cases s with ⟨e, -, hroll⟩ | ⟨hroom, hroll⟩
  · rw [hroll]
    exact hc
  · rw [hroll]
    exact le_of_refusal?_eq_none hcap hroom

/-- On a roller that answers, a die for which there is room is rolled. -/
theorem rollOne_of_reliable (hreliable : Roller.Reliable ρ) (h : c.refusal? 1 = none) (s : Sides) :
    ∃ face roller, Roller.roll c.roller 1 s.top = (.ok face, roller) ∧
      c.rollOne s = (.ok face, { c with rolls := c.rolls + 1, roller }) := by
  obtain ⟨face, hface⟩ := hreliable c.roller 1 s.top s.one_le_top
  refine ⟨face, (Roller.roll c.roller 1 s.top).2, Prod.ext hface rfl, ?_⟩
  rcases c.rollOne_cases s with ⟨e, hrefused, -⟩ | ⟨-, hrolled⟩
  · rw [h] at hrefused
    cases hrefused
  · rw [hrolled, hface]

end Context

/-- The same run under another cap on rolls. -/
def Run.withCap (cap : Option Nat) (r : Run ρ α) : Run ρ α :=
  ⟨r.value, r.failure, r.context.withCap cap⟩

namespace Play

variable [Roller ρ]

theorem run_groups {t : Play α} (ht : t.StaysInGroup) (c : Context ρ) :
    (t.run c).context.groups = c.groups := by
  induction t generalizing c with
  | done value failure => rfl
  | ask sides lost next ih =>
    have hgroups := c.rollOne_groups sides
    rw [run]
    split
    · next face after hroll =>
      rw [hroll] at hgroups
      rw [ih face (ht face) after, hgroups]
    · next e after hroll =>
      rw [hroll] at hgroups
      exact hgroups
  | makeRoom n lost next ih =>
    rw [run]
    split
    · rfl
    · exact ih ht c
  | openGroup next ih => cases ht
  | readLimit next ih => exact ih c.limits.maxIterations (ht c.limits.maxIterations) c

theorem run_limits (t : Play α) (c : Context ρ) : (t.run c).context.limits = c.limits := by
  induction t generalizing c with
  | done value failure => rfl
  | ask sides lost next ih =>
    have hlimits := c.rollOne_limits sides
    rw [run]
    split
    · next face after hroll =>
      rw [hroll] at hlimits
      rw [ih face after, hlimits]
    · next e after hroll =>
      rw [hroll] at hlimits
      exact hlimits
  | makeRoom n lost next ih =>
    rw [run]
    split
    · rfl
    · exact ih c
  | openGroup next ih => exact ih c.groups { c with groups := c.groups + 1 }
  | readLimit next ih => exact ih c.limits.maxIterations c

/-- No play rolls more dice than the cap allows. -/
theorem rolls_le_cap (t : Play α) {c : Context ρ} {m : Nat} (hcap : c.limits.maxRolls = some m)
    (hc : c.rolls ≤ m) : (t.run c).context.rolls ≤ m := by
  induction t generalizing c with
  | done value failure => exact hc
  | ask sides lost next ih =>
    have hrolls := Context.rollOne_rolls_le_cap hcap hc sides
    have hlimits := c.rollOne_limits sides
    rw [run]
    split
    · next face after hroll =>
      rw [hroll] at hrolls hlimits
      exact ih face (hlimits ▸ hcap) hrolls
    · next e after hroll =>
      rw [hroll] at hrolls
      exact hrolls
  | makeRoom n lost next ih =>
    rw [run]
    split
    · exact hc
    · exact ih hcap hc
  | openGroup next ih => exact ih c.groups hcap hc
  | readLimit next ih => exact ih c.limits.maxIterations hcap hc

section Reliable

variable {c : Context ρ}

/-- Without a cap every face asked for is rolled. -/
theorem ask_uncapped (hreliable : Roller.Reliable ρ) (hc : c.limits.maxRolls = none)
    (sides : Sides) :
    ∃ face roller, Roller.roll c.roller 1 sides.top = (.ok face, roller) ∧
      ∀ (lost : α) next, (ask sides lost next).run c =
        (next face).run { c with rolls := c.rolls + 1, roller } := by
  have hroom := Context.refusal?_of_uncapped hc 1
  obtain ⟨face, roller, hroll, hrolled⟩ := Context.rollOne_of_reliable hreliable hroom sides
  exact ⟨face, roller, hroll, fun lost next => run_ask_ok hrolled⟩

theorem rolls_le_run (hreliable : Roller.Reliable ρ) (hc : c.limits.maxRolls = none) (t : Play α) :
    c.rolls ≤ (t.run c).context.rolls := by
  induction t generalizing c with
  | done value failure => exact Nat.le_refl _
  | ask sides lost next ih =>
    obtain ⟨face, roller, -, hrun⟩ := ask_uncapped (α := α) hreliable hc sides
    rw [hrun]
    have hnext := @ih face ⟨c.limits, c.rolls + 1, c.groups, roller⟩ hc
    simp only at hnext
    omega
  | makeRoom n lost next ih =>
    rw [run_makeRoom_none (Context.refusal?_of_uncapped hc n)]
    exact ih hc
  | openGroup next ih => exact @ih c.groups ⟨c.limits, c.rolls, c.groups + 1, c.roller⟩ hc
  | readLimit next ih => exact ih c.limits.maxIterations hc

theorem Asks.rolls_le_run (hreliable : Roller.Reliable ρ) (hc : c.limits.maxRolls = none) {n : Nat}
    {t : Play α} (ht : t.Asks n) : c.rolls + n ≤ (t.run c).context.rolls := by
  induction n generalizing t c with
  | zero => exact Play.rolls_le_run hreliable hc t
  | succ n ih =>
    cases t with
    | ask sides lost next =>
      obtain ⟨face, roller, -, hrun⟩ := ask_uncapped (α := α) hreliable hc sides
      rw [hrun]
      have hnext := @ih ⟨c.limits, c.rolls + 1, c.groups, roller⟩ hc (next face) (ht face)
      simp only at hnext
      omega
    | done | makeRoom | openGroup | readLimit => cases ht

/-- A cap that is not reached goes unnoticed, and one that is cuts the play off. -/
theorem run_withCap (hreliable : Roller.Reliable ρ) {t : Play α} (ht : t.Thrifty)
    (hc : c.limits.maxRolls = none) {m : Nat} (hm : c.rolls ≤ m) :
    ((t.run c).context.rolls ≤ m → t.run (c.withCap (some m)) = (t.run c).withCap (some m)) ∧
      (m < (t.run c).context.rolls →
        (t.run (c.withCap (some m))).failure = some (.tooManyRolls m)) := by
  induction t generalizing c with
  | done value failure =>
    refine ⟨fun _ => rfl, fun h => ?_⟩
    have : c.rolls = ((done value failure).run c).context.rolls := rfl
    omega
  | ask sides lost next ih =>
    obtain ⟨face, roller, hroll, hrun⟩ := ask_uncapped (α := α) hreliable hc sides
    rw [hrun]
    let after : Context ρ := { c with rolls := c.rolls + 1, roller }
    have hafter : after.limits.maxRolls = none := hc
    by_cases hroom : c.rolls + 1 ≤ m
    · obtain ⟨face', roller', hroll', hrolled⟩ :=
        Context.rollOne_of_reliable hreliable (Context.refusal?_withCap_of_le hroom) sides
      obtain ⟨hface, hroller⟩ := Prod.mk.inj (hroll.symm.trans hroll')
      cases hface
      cases hroller
      rw [run_ask_ok hrolled]
      exact ih face (ht face) hafter hroom
    · have hrefused : (c.withCap (some m)).refusal? 1 = some (.tooManyRolls m) :=
        Context.refusal?_of_lt rfl (Nat.lt_of_not_le hroom)
      have hcut : (c.withCap (some m)).rollOne sides =
          (.error (.tooManyRolls m), c.withCap (some m)) := by
        unfold Context.rollOne
        rw [hrefused]
      rw [run_ask_error hcut]
      have hpast := rolls_le_run hreliable hafter (next face)
      exact ⟨fun h => absurd (Nat.le_trans hpast h) hroom, fun _ => rfl⟩
  | makeRoom n lost next ih =>
    rw [run_makeRoom_none (Context.refusal?_of_uncapped hc n)]
    by_cases hroom : c.rolls + n ≤ m
    · rw [run_makeRoom_none (Context.refusal?_withCap_of_le hroom)]
      exact ih ht.2 hc hm
    · have hrefused : (c.withCap (some m)).refusal? n = some (.tooManyRolls m) :=
        Context.refusal?_of_lt rfl (Nat.lt_of_not_le hroom)
      rw [run_makeRoom_some hrefused]
      -- The dice that no longer fit are asked for without the cap.
      have hpast := Asks.rolls_le_run hreliable hc ht.1
      exact ⟨fun h => absurd (Nat.le_trans hpast h) hroom, fun _ => rfl⟩
  | openGroup next ih => exact @ih c.groups ⟨c.limits, c.rolls, c.groups + 1, c.roller⟩ (ht _) hc hm
  | readLimit next ih => exact ih c.limits.maxIterations (ht _) hc hm

end Reliable

end Play

end DiceNotation
