import DiceNotation.Proofs.RaisedLimits.Rolling
import DiceNotation.Proofs.Writable
import DiceNotation.Report

/-!
# Counting under raised limits

A distribution is worked out by computations that may fail at a limit and do nothing else with it. Under
higher limits each of their steps still succeeds where it did, with the same result. Together with the
rolls this says that no answer is lost or changed by raising a limit.
-/

namespace DiceNotation

/-- What the first computation comes to, the second one comes to as well. -/
def OkLE {ε α : Type} (r r' : Except ε α) : Prop := ∀ x, r = .ok x → r' = .ok x

namespace OkLE

variable {ε ε' α β : Type} {r r' : Except ε α}

theorem refl (r : Except ε α) : OkLE r r := fun _ h => h

theorem bind {f f' : α → Except ε β} (h : OkLE r r') (hf : ∀ x, OkLE (f x) (f' x)) :
    OkLE (r >>= f) (r' >>= f') := by
  intro y hy
  cases hr : r with
  | error e =>
    rw [hr] at hy
    cases hy
  | ok x =>
    rw [hr] at hy
    rw [h x hr]
    exact hf x y hy

theorem mapError (h : OkLE r r') (conv : ε → ε') : OkLE (r.mapError conv) (r'.mapError conv) := by
  intro x hx
  rw [mapError_eq_ok_iff] at hx ⊢
  exact h x hx

theorem foldlM {f f' : β → α → Except ε β} (h : ∀ b a, OkLE (f b a) (f' b a)) (start : β)
    (l : List α) : OkLE (l.foldlM f start) (l.foldlM f' start) := by
  induction l generalizing start with
  | nil => exact .refl _
  | cons a l ih =>
    rw [List.foldlM_cons, List.foldlM_cons]
    exact (h start a).bind ih

end OkLE

variable {limit limit' : Nat}

namespace Distribution

theorem combine_okLE (h : limit ≤ limit') (f : Int → Int → Except ArithmeticError Int)
    (a b : Distribution) : OkLE (combine limit f a b) (combine limit' f a b) := by
  intro d hd
  unfold combine at hd ⊢
  by_cases hsize : limit < a.size * b.size
  · rw [if_pos hsize] at hd
    cases hd
  · rw [if_neg hsize] at hd
    rw [if_neg (by omega)]
    exact hd

theorem addDraws_okLE (h : limit ≤ limit') (die : Distribution) (n : Nat) (sum : Distribution) :
    OkLE (addDraws limit die n sum) (addDraws limit' die n sum) := by
  induction n generalizing sum with
  | zero => exact .refl _
  | succ n ih =>
    intro d hd
    rw [addDraws] at hd ⊢
    split at hd
    · cases hd
    · next next hnext =>
      rw [combine_okLE h _ sum die _ hnext]
      exact ih next d hd

theorem repeatSum_okLE (h : limit ≤ limit') (die : Distribution) (count : DiceCount) :
    OkLE (repeatSum limit die count) (repeatSum limit' die count) := addDraws_okLE h die _ die

end Distribution

namespace Hands

theorem addFace_okLE (h : limit ≤ limit') (hand : List Int) (n : Nat) (t : Hands)
    (face : Int × Nat) : OkLE (addFace limit hand n t face) (addFace limit' hand n t face) := by
  intro next hnext
  unfold addFace at hnext ⊢
  split at hnext
  · cases hnext
  · next t' ht =>
    by_cases hsize : limit < t'.size
    · rw [if_pos hsize] at hnext
      cases hnext
    · rw [if_neg hsize] at hnext
      rw [if_neg (by omega)]
      exact hnext

theorem addDieTo_okLE (h : limit ≤ limit') (die : Distribution) (hands : List (List Int × Nat)) :
    OkLE (addDieTo limit die hands) (addDieTo limit' die hands) := by
  have hstep (t : Hands) (hand : List Int × Nat) :
      OkLE (die.toList.foldlM (addFace limit hand.1 hand.2) t)
        (die.toList.foldlM (addFace limit' hand.1 hand.2) t) :=
    .foldlM (addFace_okLE h hand.1 hand.2) t die.toList
  exact .foldlM hstep ∅ hands

theorem addDice_okLE (h : limit ≤ limit') (die : Distribution) (n : Nat) (hands : Hands) :
    OkLE (addDice limit die n hands) (addDice limit' die n hands) := by
  induction n generalizing hands with
  | zero => exact .refl _
  | succ n ih =>
    intro all hall
    rw [addDice] at hall ⊢
    split at hall
    · cases hall
    · next next hnext =>
      rw [addDieTo_okLE h die _ _ hnext]
      exact ih next all hall

end Hands

theorem DiceGroup.Plan.distribution_okLE (h : limit ≤ limit') (p : Plan) (count : DiceCount) :
    OkLE (p.distribution limit count) (p.distribution limit' count) := by
  unfold Plan.distribution
  split
  · exact Distribution.repeatSum_okLE h p.face count
  · exact OkLE.bind (.refl _) fun face => Distribution.repeatSum_okLE h face count
  · exact (Hands.addDice_okLE h p.face count.toNat Hands.noDice).bind fun _ => .refl _

namespace Limits

/-- Every limit of a distribution is at most the other one. -/
structure CountingLE (l l' : Limits) : Prop where
  maxRolls : CapLE l.maxRolls l'.maxRolls
  maxOutcomes : l.maxOutcomes ≤ l'.maxOutcomes

end Limits

/-- A count that passes a cap passes a higher one. -/
theorem Limits.CapLE.filter_eq_none {cap cap' : Option Nat} (h : Limits.CapLE cap cap') {n : Nat}
    (hcap : cap.filter (· < n) = none) : cap'.filter (· < n) = none := by
  cases cap' with
  | none => rfl
  | some m' =>
    cases cap with
    | none => exact h.elim
    | some m =>
      have hle : m ≤ m' := h
      simp only [Option.filter_some, decide_eq_true_eq, ite_eq_right_iff, reduceCtorEq, imp_false,
        not_lt] at hcap ⊢
      omega

variable {l l' : Limits}

theorem DiceGroup.distribution_okLE (hl : l.CountingLE l') (g : DiceGroup) :
    OkLE (g.distribution l) (g.distribution l') := by
  intro d hd
  unfold DiceGroup.distribution at hd ⊢
  split at hd
  · cases hd
  · next hroom =>
    by_cases houtcomes : l.maxOutcomes < g.sides.toNat
    · rw [if_pos houtcomes] at hd
      cases hd
    · rw [if_neg houtcomes] at hd
      have hle := hl.maxOutcomes
      rw [hl.maxRolls.filter_eq_none hroom]
      simp only [if_neg (show ¬ l'.maxOutcomes < g.sides.toNat by omega)]
      have hplan := OkLE.bind (.refl (g.modifiers.foldlM Plan.add ⟨.die g.sides, [], none⟩))
        fun plan => plan.distribution_okLE hle g.count
      exact hplan d hd

theorem Expr.distribution_okLE (hl : l.CountingLE l') (e : Expr) :
    OkLE (e.distribution l) (e.distribution l') := by
  induction e with
  | literal x => exact .refl _
  | dice g => exact g.distribution_okLE hl
  | negate e ih =>
    intro d hd
    rw [distribution] at hd ⊢
    split at hd
    · cases hd
    · next operand hoperand =>
      rw [ih operand hoperand]
      exact hd
  | binary op left right ihl ihr =>
    intro d hd
    rw [distribution] at hd ⊢
    split at hd
    · cases hd
    · next x hx =>
      split at hd
      · cases hd
      · next y hy =>
        rw [ihl x hx, ihr y hy]
        exact Distribution.combine_okLE hl.maxOutcomes op.apply x y d hd

theorem distributionOfText_okLE (hl : l.CountingLE l') (text : String) :
    OkLE (distributionOfText text l) (distributionOfText text l') := by
  unfold distributionOfText
  split
  · exact .refl _
  · next e _ => exact (e.distribution_okLE hl).mapError _

/-- An answer that was obtained within some limits is obtained within higher ones too: rolls come to
the same value, trace and roller, and a text has the same distribution. -/
theorem answer_of_raised_limits (hrolls : Limits.CapLE l.maxRolls l'.maxRolls) :
    (l.maxIterations ≤ l'.maxIterations → ∀ (ρ : Type) [Roller ρ] (e : Expr) (c after : Context ρ)
      (v : Evaluated), c.limits = l → e.evaluate c = (.ok v, after) →
        e.evaluate (c.withLimits l') = (.ok v, after.withLimits l')) ∧
    (l.maxOutcomes ≤ l'.maxOutcomes → ∀ (text : String) (d : Distribution),
      distributionOfText text l = .ok d → distributionOfText text l' = .ok d) := by
  refine ⟨fun hiterations ρ _ e c after v hc h => ?_, fun houtcomes text d h => ?_⟩
  · exact (e.evaluate_raised ⟨hrolls, hiterations⟩ hc v after h).2
  · exact distributionOfText_okLE ⟨hrolls, houtcomes⟩ text d h

/-- A die that explodes once more and once again. -/
def twoWaves : Expr := .dice ⟨.one, .usual, [.explode .recursive (.equalTo 6)]⟩

/-- The lower limits are just met. -/
theorem twoWaves_of_raised_limits :
    Limits.CapLE (some 3) none ∧
      (∃ v after, twoWaves.evaluate (.start ⟨some 3, 2, 4⟩ (Playback.ofList [6, 6, 2])) =
          (.ok v, after) ∧ v.value = 14 ∧
        twoWaves.evaluate (.start ⟨none, 100, 1000⟩ (Playback.ofList [6, 6, 2])) =
          (.ok v, after.withLimits ⟨none, 100, 1000⟩)) ∧
      ∃ d, distributionOfText "2d2" ⟨some 3, 2, 4⟩ = .ok d ∧
        distributionOfText "2d2" ⟨none, 100, 1000⟩ = .ok d := by
  have h := @answer_of_raised_limits ⟨some 3, 2, 4⟩ ⟨none, 100, 1000⟩ trivial
  refine ⟨trivial, ⟨_, _, rfl, rfl, ?_⟩, _, rfl, ?_⟩
  · exact h.1 (by decide) Playback twoWaves (.start _ (.ofList [6, 6, 2])) _ _ rfl rfl
  · exact h.2 (by decide) "2d2" _ rfl

end DiceNotation
