import DiceNotation.Proofs.Distribution.Exactness
import DiceNotation.Proofs.RollCap
import DiceNotation.Proofs.Rolls.AnyRoller

/-!
# Groups with too many dice

A distribution is refused for want of rolls only at a group that no evaluation under the same limits can
roll. All that stands to the left of such a group has a distribution, so that no throw of it fails; an
evaluation is therefore cut off by the cap, at this group or before it.
-/

namespace DiceNotation

variable {α β : Type}

/-- A fold that fails does so in one of its steps. -/
theorem foldlM_eq_error {σ ε : Type} {step : σ → α → Except ε σ} {l : List α} {start : σ} {e : ε}
    (h : l.foldlM step start = .error e) : ∃ s, ∃ x ∈ l, step s x = .error e := by
  induction l generalizing start with
  | nil => cases h
  | cons x rest ih =>
    rw [List.foldlM_cons] at h
    cases hstep : step start x with
    | error error =>
      rw [hstep] at h
      cases h
      exact ⟨start, x, List.mem_cons_self, hstep⟩
    | ok next =>
      rw [hstep] at h
      obtain ⟨s, y, hy, hfails⟩ := ih h
      exact ⟨s, y, List.mem_cons_of_mem x hy, hfails⟩

/-- The computation does not fail over a number of dice. -/
def NeverTooManyDice (r : Except DistributionError α) : Prop :=
  ∀ limit, r ≠ .error (.tooManyDice limit)

namespace NeverTooManyDice

theorem ok (x : α) : NeverTooManyDice (.ok x) := fun _ => nofun

theorem tooManyOutcomes (limit : Nat) :
    NeverTooManyDice (.error (.tooManyOutcomes limit) : Except DistributionError α) := fun _ => nofun

theorem ofArithmetic (a : ArithmeticError) :
    NeverTooManyDice (.error (.ofArithmetic a) : Except DistributionError α) := by
  cases a with
  | divisionByZero => exact fun _ => nofun
  | overflow => exact fun _ => nofun

theorem mapError (r : Except ArithmeticError α) :
    NeverTooManyDice (r.mapError DistributionError.ofArithmetic) := by
  cases r with
  | error a => exact .ofArithmetic a
  | ok x => exact .ok x

theorem bind {r : Except DistributionError α} {f : α → Except DistributionError β}
    (hr : NeverTooManyDice r) (hf : ∀ x, NeverTooManyDice (f x)) : NeverTooManyDice (r.bind f) := by
  cases r with
  | error e =>
    intro limit h
    cases h
    exact hr limit rfl
  | ok x => exact hf x

theorem foldlM {f : β → α → Except DistributionError β} (hf : ∀ t x, NeverTooManyDice (f t x))
    (inputs : List α) (t : β) : NeverTooManyDice (inputs.foldlM f t) := by
  intro limit h
  obtain ⟨s, x, -, hstep⟩ := foldlM_eq_error h
  exact hf s x limit hstep

end NeverTooManyDice

namespace Distribution

theorem combine_neverTooManyDice (limit : Nat) (f : Int → Int → Except ArithmeticError Int)
    (a b : Distribution) : NeverTooManyDice (combine limit f a b) := by
  unfold combine
  split
  · exact .tooManyOutcomes limit
  · exact .mapError _

theorem addDraws_neverTooManyDice (limit : Nat) (die : Distribution) (n : Nat) (sum : Distribution) :
    NeverTooManyDice (addDraws limit die n sum) := by
  induction n generalizing sum with
  | zero => exact .ok sum
  | succ n ih =>
    have hall := (combine_neverTooManyDice limit BinaryOp.add.apply sum die).bind ih
    rw [addDraws]
    cases hsum : combine limit BinaryOp.add.apply sum die with
    | error e =>
      rw [hsum] at hall
      exact hall
    | ok sum => exact ih sum

end Distribution

namespace Hands

theorem addFace_neverTooManyDice (limit : Nat) (hand : List Int) (n : Nat) (t : Hands)
    (face : Int × Nat) : NeverTooManyDice (addFace limit hand n t face) := by
  unfold addFace
  split
  · exact .ofArithmetic _
  · split
    · exact .tooManyOutcomes limit
    · exact .ok _

theorem addDieTo_neverTooManyDice (limit : Nat) (die : Distribution)
    (hands : List (List Int × Nat)) : NeverTooManyDice (addDieTo limit die hands) := by
  unfold addDieTo
  refine .foldlM (fun t hand => ?_) hands ∅
  exact .foldlM (addFace_neverTooManyDice limit hand.1 hand.2) die.toList t

theorem addDice_neverTooManyDice (limit : Nat) (die : Distribution) (n : Nat) (hands : Hands) :
    NeverTooManyDice (addDice limit die n hands) := by
  induction n generalizing hands with
  | zero => exact .ok hands
  | succ n ih =>
    have hall := (addDieTo_neverTooManyDice limit die hands.toList).bind ih
    rw [addDice]
    cases hnext : addDieTo limit die hands.toList with
    | error e =>
      rw [hnext] at hall
      exact hall
    | ok hands => exact ih hands

end Hands

/-- A failure is the answer of all that would follow. -/
theorem Evaluated.andThen_fst_eq_error {ρ : Type} {answer : Except RollError Evaluated × Context ρ}
    {e : RollError} (h : answer.1 = .error e)
    (next : Evaluated → Context ρ → Except RollError Evaluated × Context ρ) :
    (andThen answer next).1 = .error e := by
  obtain ⟨_, after⟩ := answer
  cases h
  rfl

namespace DiceGroup

namespace Plan

theorem add_neverTooManyDice (p : Plan) (m : Modifier) : NeverTooManyDice (p.add m) := by
  cases m with
  | select s => exact .ok _
  | clamp c =>
    unfold add
    simp only
    split
    · exact .ofArithmetic _
    · exact .ok _
  | countSuccesses condition => exact .ok _
  | reroll | explode =>
    intro limit h
    cases h

theorem distribution_neverTooManyDice (p : Plan) (limit : Nat) (count : DiceCount) :
    NeverTooManyDice (p.distribution limit count) := by
  unfold distribution
  split
  · exact Distribution.addDraws_neverTooManyDice limit p.face _ _
  · exact (NeverTooManyDice.mapError _).bind fun face =>
      Distribution.addDraws_neverTooManyDice limit face _ _
  · exact (Hands.addDice_neverTooManyDice limit p.face _ _).bind fun hands => .mapError _

end Plan

variable {ρ : Type} [Roller ρ] {g : DiceGroup} {limits : Limits} {limit : Nat}

/-- Only a group with more dice than the cap is refused for them. -/
theorem of_distribution_eq_tooManyDice (h : g.distribution limits = .error (.tooManyDice limit)) :
    limits.maxRolls = some limit ∧ limit < g.count.toNat := by
  unfold distribution at h
  split at h
  · next refused hrefused =>
    cases h
    rw [Option.filter_eq_some_iff] at hrefused
    exact ⟨hrefused.1, of_decide_eq_true hrefused.2⟩
  · split at h
    · cases h
    · exact absurd h (((NeverTooManyDice.foldlM Plan.add_neverTooManyDice _ _).bind fun p =>
        p.distribution_neverTooManyDice limits.maxOutcomes g.count) limit)

end DiceGroup

namespace Expr

variable {ρ : Type} [Roller ρ] {e : Expr} {limits : Limits} {limit : Nat}

/-- An expression that has a distribution fails on no roller, but for the cap. -/
theorem roll_of_distribution_eq_ok (hbounded : Roller.Bounded ρ) (hreliable : Roller.Reliable ρ)
    (hw : e.Writable) {d : Distribution} (h : e.distribution limits = .ok d) (c : Context ρ) :
    (∃ v after, e.roll c = (.ok v, after) ∧ after.limits = c.limits) ∨
      ∃ m, c.limits.maxRolls = some m ∧ (e.roll c).1 = .error (.tooManyRolls m) := by
  obtain ⟨honce, hroom⟩ := of_distribution_eq_ok h
  have hfollows := follows_distribution hw honce hroom
  rw [h] at hfollows
  obtain ⟨htotals, -⟩ := hfollows
  obtain ⟨faces, hthrow, hcomes⟩ := exists_roll_comesTo hbounded hreliable hw honce c
  obtain ⟨x, hx⟩ := htotals faces (mem_throws.2 hthrow)
  rw [hx] at hcomes
  generalize e.roll c = answer at hcomes
  cases hcomes with
  | settled v hlimits => exact .inl ⟨v, _, rfl, hlimits⟩
  | refused after total hm => exact .inr ⟨_, hm, rfl⟩

theorem maxRolls_eq_of_tooManyDice (h : e.distribution limits = .error (.tooManyDice limit)) :
    limits.maxRolls = some limit := by
  induction e with
  | literal x => cases h
  | dice g => exact (DiceGroup.of_distribution_eq_tooManyDice h).1
  | negate e ih =>
    rw [distribution] at h
    split at h
    · next error herror =>
      cases h
      exact ih herror
    · exact absurd h (NeverTooManyDice.mapError _ limit)
  | binary op l r ihl ihr =>
    rw [distribution] at h
    split at h
    · next error herror =>
      cases h
      exact ihl herror
    · split at h
      · next error herror =>
        cases h
        exact ihr herror
      · exact absurd h (Distribution.combine_neverTooManyDice _ _ _ _ limit)

/-- The cap cuts an evaluation off no later than at the group that the distribution is refused for. -/
theorem roll_of_tooManyDice (hbounded : Roller.Bounded ρ) (hreliable : Roller.Reliable ρ)
    (hw : e.Writable) (h : e.distribution limits = .error (.tooManyDice limit)) (c : Context ρ)
    (hc : c.limits = limits) : (e.roll c).1 = .error (.tooManyRolls limit) := by
  induction e generalizing c with
  | literal x => cases h
  | dice g =>
    obtain ⟨hcap, hlt⟩ := DiceGroup.of_distribution_eq_tooManyDice h
    have hover : limit < c.rolls + g.count.toNat := by omega
    exact congrArg Prod.fst (DiceGroup.roll_of_lt (hc ▸ hcap) hover)
  | negate e ih =>
    rw [distribution] at h
    split at h
    · next error herror =>
      cases h
      exact Evaluated.andThen_fst_eq_error (ih hw herror c hc) _
    · exact absurd h (NeverTooManyDice.mapError _ limit)
  | binary op l r ihl ihr =>
    have hcap := maxRolls_eq_of_tooManyDice h
    rw [distribution] at h
    split at h
    · next error herror =>
      cases h
      exact Evaluated.andThen_fst_eq_error (ihl hw.1 herror c hc) _
    · next left hleft =>
      split at h
      · next error herror =>
        cases h
        rcases roll_of_distribution_eq_ok hbounded hreliable hw.1 hleft c with
          ⟨v, after, hroll, hlimits⟩ | ⟨m, hm, hroll⟩
        · rw [roll, hroll]
          exact Evaluated.andThen_fst_eq_error (ihr hw.2 herror after (hlimits.trans hc)) _
        · -- The groups on the left have used the cap up together.
          rw [hc, hcap] at hm
          cases hm
          exact Evaluated.andThen_fst_eq_error hroll _
      · exact absurd h (Distribution.combine_neverTooManyDice _ _ _ _ limit)

end Expr

theorem exists_expr_of_distributionOfText {text : String} {limits : Limits} {e : DistributionError}
    (h : distributionOfText text limits = .error (.distribution e)) :
    ∃ expr, Expr.parse text = .ok expr ∧ expr.distribution limits = .error e := by
  unfold distributionOfText at h
  split at h
  · next error herror =>
    unfold Expr.parse at herror
    cases h
    split at herror
    · cases herror
    · next tokens _ =>
      cases hread : Expr.ofTokens tokens with
      | error e =>
        rw [hread] at herror
        cases herror
      | ok expr =>
        rw [hread] at herror
        cases herror
  · next expr hparse =>
    refine ⟨expr, hparse, ?_⟩
    cases hd : expr.distribution limits with
    | error error =>
      rw [hd] at h
      cases h
      rfl
    | ok d =>
      rw [hd] at h
      cases h

/-- Where the dice of one group are too many for the distribution of a text, no roller that answers
within bounds can roll the text: the evaluation is cut off by the same limit, whatever the faces are. -/
theorem rollText_of_tooManyDice {ρ : Type} [Roller ρ] (hbounded : Roller.Bounded ρ)
    (hreliable : Roller.Reliable ρ) {text : String} {limits : Limits} {limit : Nat}
    (h : distributionOfText text limits = .error (.distribution (.tooManyDice limit))) (roller : ρ) :
    (rollText text roller limits).1 = .error (.roll (.tooManyRolls limit)) := by
  obtain ⟨e, hparse, hd⟩ := exists_expr_of_distributionOfText h
  have hevaluate : (e.evaluate (.start limits roller)).1 = .error (.tooManyRolls limit) :=
    Expr.roll_of_tooManyDice hbounded hreliable (Expr.writable_of_parse hparse) hd _ rfl
  rw [rollText, hparse]
  simp only [Expr.rollResult]
  generalize e.evaluate (.start limits roller) = answer at hevaluate
  obtain ⟨_, after⟩ := answer
  cases hevaluate
  rfl

/-- Three groups of coins, of which the cap stops the second and the distribution refuses the third. -/
theorem coins_of_tooManyDice :
    Roller.Bounded Playback ∧ Roller.Reliable Playback ∧
      distributionOfText "6 / (3d2 + 2d2) - 5d2" ⟨some 4, 100, 100⟩ =
        .error (.distribution (.tooManyDice 4)) ∧
      ∀ faces, (rollText "6 / (3d2 + 2d2) - 5d2" (Playback.ofList faces) ⟨some 4, 100, 100⟩).1 =
        .error (.roll (.tooManyRolls 4)) := by
  have hrefused : distributionOfText "6 / (3d2 + 2d2) - 5d2" ⟨some 4, 100, 100⟩ =
      .error (.distribution (.tooManyDice 4)) := rfl
  exact ⟨Playback.bounded, Playback.reliable, hrefused,
    fun faces => rollText_of_tooManyDice Playback.bounded Playback.reliable hrefused (.ofList faces)⟩

end DiceNotation
