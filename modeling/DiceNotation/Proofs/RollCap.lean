import DiceNotation.Proofs.Plays.Evaluation

/-!
# The cap on rolls

A cap that an evaluation does not need is not noticed at all. One that it needs cuts it off at the first
request too many, and a group that does not fit is not begun. Evaluations count their rolls anew, so
what was rolled before makes no difference.
-/

namespace DiceNotation

variable {ρ : Type} [Roller ρ]

/-- Nothing of a group is rolled if its dice do not fit. -/
theorem DiceGroup.roll_of_lt {g : DiceGroup} {c : Context ρ} {m : Nat}
    (hcap : c.limits.maxRolls = some m) (h : m < c.rolls + g.count.toNat) :
    g.roll c = (.error (.tooManyRolls m), { c with groups := c.groups + 1 }) := by
  have hrefused : Context.refusal? { c with groups := c.groups + 1 } g.count.toNat =
      some (.tooManyRolls m) := Context.refusal?_of_lt hcap h
  rw [roll, Pool.roll, hrefused]

namespace Expr

/-- How many requests an evaluation makes of its roller. -/
def requests (e : Expr) (c : Context ρ) : Nat := (e.evaluate c.recorded).2.roller.answers.length

theorem requests_eq {e : Expr} {t : Play Evaluated}
    (hrun : ∀ (ρ : Type) [Roller ρ] (c : Context ρ), e.roll c = (t.run c).answer) (c : Context ρ) :
    e.requests c = (t.run { c with rolls := 0, groups := 0 }).context.rolls := by
  let start : Context ρ := { c with rolls := 0, groups := 0 }
  have hcounted := t.rolls_add_length_answers start.recorded
  have hrecorded : e.evaluate c.recorded = (t.run start.recorded).answer := hrun _ start.recorded
  have hrequests : e.requests c = (t.run start.recorded).context.roller.answers.length := by
    rw [requests, hrecorded, Run.answer_snd]
  have hzero : start.recorded.roller.answers.length = 0 ∧ start.recorded.rolls = 0 := ⟨rfl, rfl⟩
  have hrolls : (t.run start).context.rolls = (t.run start.recorded).context.rolls :=
    congrArg (fun r => r.context.rolls) (t.run_unrecorded start.recorded)
  rw [hrequests, hrolls]
  omega

/-- What an evaluation does under a cap of `m` rolls is decided by the number of requests it makes
without one. -/
theorem evaluate_withCap (hreliable : Roller.Reliable ρ) (e : Expr) (c : Context ρ) (m : Nat) :
    (e.requests (c.withCap none) ≤ m →
        e.evaluate (c.withCap (some m)) =
          ((e.evaluate (c.withCap none)).1, (e.evaluate (c.withCap none)).2.withCap (some m))) ∧
      (m < e.requests (c.withCap none) →
        (e.evaluate (c.withCap (some m))).1 = .error (.tooManyRolls m)) ∧
      e.requests (c.withCap (some m)) ≤ m ∧
      ∀ (g : DiceGroup) (d : Context ρ), d.limits.maxRolls = some m →
        m < d.rolls + g.count.toNat →
        g.roll d = (.error (.tooManyRolls m), { d with groups := d.groups + 1 }) := by
  obtain ⟨t, -, hthrifty, hrun⟩ := e.exists_play
  let start : Context ρ := { c.withCap none with rolls := 0, groups := 0 }
  have hfree : e.evaluate (c.withCap none) = (t.run start).answer := hrun ρ start
  have hcapped : e.evaluate (c.withCap (some m)) = (t.run (start.withCap (some m))).answer :=
    hrun ρ (start.withCap (some m))
  have hcount : e.requests (c.withCap none) = (t.run start).context.rolls := requests_eq hrun _
  obtain ⟨hwithin, hpast⟩ := Play.run_withCap hreliable hthrifty (c := start) rfl (Nat.zero_le m)
  rw [hfree, hcapped, hcount]
  refine ⟨fun h => ?_, fun h => ?_, ?_, fun g d hcap h => DiceGroup.roll_of_lt hcap h⟩
  · rw [hwithin h]
    unfold Run.answer Run.withCap
    cases (t.run start).failure with
    | none => rfl
    | some e => rfl
  · unfold Run.answer
    rw [hpast h]
  · have hcounted : e.requests (c.withCap (some m)) = (t.run (start.withCap (some m))).context.rolls :=
      requests_eq hrun _
    rw [hcounted]
    exact t.rolls_le_cap rfl (Nat.zero_le m)

/-- Two dice, and another one for each six. -/
def sixesAgain : Expr :=
  let die : Expr := .dice ⟨.one, .usual, [.explode .recursive (.equalTo 6)]⟩
  .binary .add die die

/-- Three rolls fit a cap of three and not one of two. -/
theorem sixesAgain_withCap :
    Roller.Reliable Playback ∧
      let c : Context Playback := .start .usual (.ofList [6, 1, 2])
      sixesAgain.requests (c.withCap none) = 3 ∧
      (sixesAgain.evaluate (c.withCap none)).1.map Evaluated.value = .ok 9 ∧
      sixesAgain.evaluate (c.withCap (some 3)) = ((sixesAgain.evaluate (c.withCap none)).1,
        (sixesAgain.evaluate (c.withCap none)).2.withCap (some 3)) ∧
      (sixesAgain.evaluate (c.withCap (some 2))).1 = .error (.tooManyRolls 2) ∧
      sixesAgain.requests (c.withCap (some 2)) ≤ 2 := by
  let c : Context Playback := .start .usual (.ofList [6, 1, 2])
  have hthree := evaluate_withCap Playback.reliable sixesAgain c 3
  have htwo := evaluate_withCap Playback.reliable sixesAgain c 2
  exact ⟨Playback.reliable, rfl, rfl, hthree.1 (by decide), htwo.2.1 (by decide), htwo.2.2.1⟩

end Expr

end DiceNotation
