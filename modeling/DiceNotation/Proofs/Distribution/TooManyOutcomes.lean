import DiceNotation.Proofs.Distribution.Outcomes
import DiceNotation.Proofs.Distribution.TooManyDice

/-!
# Expressions with too many outcomes

Three tests guard the number of outcomes. The sides of a die are counted before anything else, and the
hands of a group while they are made; neither is a false alarm. In front of a sum or of another operation
the outcomes of both operands are multiplied with each other, and there the alarm may be false: of all
these pairs many can come to the same value.
-/

namespace DiceNotation

variable {limit m : Nat}

theorem DistributionError.ofArithmetic_ne_tooManyOutcomes (a : ArithmeticError) :
    ofArithmetic a ≠ tooManyOutcomes m := by
  intro h
  cases a with
  | divisionByZero | overflow => cases h

theorem mapError_ne_tooManyOutcomes {α : Type} (r : Except ArithmeticError α) :
    r.mapError DistributionError.ofArithmetic ≠ .error (.tooManyOutcomes m) := by
  intro h
  cases r with
  | error a => exact DistributionError.ofArithmetic_ne_tooManyOutcomes a (Except.error.inj h)
  | ok x => cases h

namespace Distribution

variable {a b die sum : Distribution}

theorem combine_eq_tooManyOutcomes {f : Int → Int → Except ArithmeticError Int}
    (h : combine limit f a b = .error (.tooManyOutcomes m)) : m = limit ∧ limit < a.size * b.size := by
  unfold combine at h
  split at h
  · next hlarge =>
    cases h
    exact ⟨rfl, hlarge⟩
  · exact absurd h (mapError_ne_tooManyOutcomes _)

/-- Some draw is refused after those before it have been added. -/
theorem addDraws_eq_tooManyOutcomes {n : Nat}
    (h : addDraws limit die n sum = .error (.tooManyOutcomes m)) :
    m = limit ∧ ∃ k next, k < n ∧ addDraws limit die k sum = .ok next ∧
      limit < next.size * die.size := by
  induction n generalizing sum with
  | zero => cases h
  | succ n ih =>
    rw [addDraws] at h
    split at h
    · next error herror =>
      cases h
      obtain ⟨rfl, hlarge⟩ := combine_eq_tooManyOutcomes herror
      exact ⟨rfl, 0, sum, n.succ_pos, rfl, hlarge⟩
    · next next hnext =>
      obtain ⟨rfl, k, last, hk, hlast, hlarge⟩ := ih h
      refine ⟨rfl, k + 1, last, by omega, ?_, hlarge⟩
      rw [addDraws, hnext]
      exact hlast

theorem repeatSum_eq_tooManyOutcomes {count : DiceCount}
    (h : repeatSum limit die count = .error (.tooManyOutcomes m)) :
    m = limit ∧ ∃ (k : DiceCount) (sum : Distribution), k.toNat < count.toNat ∧
      repeatSum limit die k = .ok sum ∧ limit < sum.size * die.size := by
  obtain ⟨rfl, k, sum, hk, hsum, hlarge⟩ := addDraws_eq_tooManyOutcomes h
  have hlt : k + 1 < count.toNat := Nat.add_lt_of_lt_sub hk
  exact ⟨rfl, ⟨k + 1, k.succ_pos, hlt.le.trans count.le_max⟩, sum, hlt, hsum, hlarge⟩

end Distribution

namespace Hands

/-- The first dice whose hands are too many leave a layer that is too large. -/
theorem addDice_eq_tooManyOutcomes {die : Distribution} {n : Nat} {hands : Hands}
    (h : addDice limit die n hands = .error (.tooManyOutcomes m)) :
    m = limit ∧ ∃ k next, k < n ∧ addDice limit die k hands = .ok next ∧
      limit < (layer die next).size := by
  induction n generalizing hands with
  | zero => cases h
  | succ n ih =>
    rw [addDice] at h
    split at h
    · next error herror =>
      cases h
      have hfault := addDieTo_gathers limit die (List.Perm.refl hands.toList)
      rw [herror] at hfault
      cases hfault with
      | tooManyOutcomes hlarge => exact ⟨rfl, 0, hands, n.succ_pos, rfl, hlarge⟩
    · next next hnext =>
      obtain ⟨rfl, k, last, hk, hlast, hlarge⟩ := ih h
      refine ⟨rfl, k + 1, last, by omega, ?_, hlarge⟩
      rw [addDice, hnext]
      exact hlast

end Hands

namespace DiceGroup

namespace Plan

variable {p next last : Plan}

theorem add_ne_tooManyOutcomes (p : Plan) (modifier : Modifier) :
    p.add modifier ≠ .error (.tooManyOutcomes m) := by
  intro h
  cases modifier with
  | clamp c =>
    rw [add] at h
    split at h
    · next a _ => exact DistributionError.ofArithmetic_ne_tooManyOutcomes a (Except.error.inj h)
    · cases h
  | select | countSuccesses | reroll | explode => cases h

theorem add_selections_eq_nil_iff {modifier : Modifier} (h : p.add modifier = .ok next) :
    next.selections = [] ↔ p.selections = [] ∧ modifier.isSelection = false := by
  cases modifier with
  | select s =>
    cases h
    simp [Modifier.isSelection]
  | clamp c =>
    rw [add] at h
    split at h
    · cases h
    · cases h
      simp [Modifier.isSelection]
  | countSuccesses condition =>
    cases h
    simp [Modifier.isSelection]
  | reroll | explode => cases h

/-- A plan holds selections if the modifiers do. -/
theorem foldlM_add_selections_eq_nil_iff {modifiers : List Modifier}
    (h : modifiers.foldlM add p = .ok last) :
    last.selections = [] ↔ p.selections = [] ∧ ∀ m ∈ modifiers, m.isSelection = false := by
  induction modifiers generalizing p with
  | nil =>
    cases h
    simp
  | cons head rest ih =>
    obtain ⟨next, hadd, hrest⟩ := exists_of_foldlM_cons_eq_ok h
    rw [ih hrest, add_selections_eq_nil_iff hadd, List.forall_mem_cons, and_assoc]

/-- Where no dice are selected, it is a sum that is refused, in front of one of its draws. -/
theorem distribution_eq_tooManyOutcomes {count : DiceCount} (hsums : p.selections = [])
    (h : p.distribution limit count = .error (.tooManyOutcomes m)) :
    m = limit ∧ ∃ (k : DiceCount) (sum die : Distribution), k.toNat < count.toNat ∧
      p.distribution limit k = .ok sum ∧ p.distribution limit .one = .ok die ∧
        limit < sum.size * die.size := by
  obtain ⟨face, selections, successes⟩ := p
  subst hsums
  cases successes with
  | none =>
    obtain ⟨rfl, k, sum, hk, hsum, hlarge⟩ := Distribution.repeatSum_eq_tooManyOutcomes h
    exact ⟨rfl, k, sum, face, hk, hsum, rfl, hlarge⟩
  | some condition =>
    simp only [distribution] at h ⊢
    cases hmoved : (Tally.mapM (fun x => .ok (successFace condition x)) face).mapError
        DistributionError.ofArithmetic with
    | error e =>
      rw [hmoved] at h
      cases h
      exact absurd hmoved (mapError_ne_tooManyOutcomes _)
    | ok counted =>
      rw [hmoved] at h
      obtain ⟨rfl, k, sum, hk, hsum, hlarge⟩ := Distribution.repeatSum_eq_tooManyOutcomes h
      exact ⟨rfl, k, sum, counted, hk, hsum, rfl, hlarge⟩

/-- Where dice are selected, it is a layer of hands that is refused. -/
theorem roll_eq_tooManyOutcomes {count : DiceCount} (hselects : p.selections ≠ [])
    (h : p.distribution limit count = .error (.tooManyOutcomes m)) :
    Hands.roll limit p.face count.toNat = .error (.tooManyOutcomes m) := by
  rw [← distributionIn_ascending hselects, distributionIn, Hands.addDiceIn_ascending] at h
  rw [Hands.roll]
  cases hroll : Hands.addDice limit p.face count.toNat Hands.noDice with
  | error e =>
    rw [hroll] at h
    cases h
    rfl
  | ok hands =>
    rw [hroll] at h
    exact absurd h (mapError_ne_tooManyOutcomes _)

end Plan

variable {g : DiceGroup} {plan : Plan} {limits : Limits}

theorem selections_eq_nil_iff
    (hplan : g.modifiers.foldlM Plan.add ⟨.die g.sides, [], none⟩ = .ok plan) :
    plan.selections = [] ↔ ¬ g.Selects := by
  rw [Plan.foldlM_add_selections_eq_nil_iff hplan, Selects]
  simp

/-- The first dice of a group are planned like the whole group. -/
theorem distribution_first (hroom : limits.maxRolls.filter (· < g.count.toNat) = none)
    (hsides : ¬ limits.maxOutcomes < g.sides.toNat)
    (hplan : g.modifiers.foldlM Plan.add ⟨.die g.sides, [], none⟩ = .ok plan) {k : DiceCount}
    (hk : k.toNat ≤ g.count.toNat) :
    (g.first k).distribution limits = plan.distribution limits.maxOutcomes k := by
  have hfirst : limits.maxRolls.filter (· < (g.first k).count.toNat) = none :=
    refused_eq_none_iff.2 fun max hmax => hk.trans (refused_eq_none_iff.1 hroom max hmax)
  rw [distribution, hfirst]
  simp only [first, if_neg hsides, hplan]
  rfl

theorem first_writable (hw : g.Writable) {k : DiceCount} (hk : k.toNat ≤ g.count.toNat) :
    (g.first k).Writable := by
  refine ⟨le_trans ?_ hw.1, hw.2⟩
  exact Int.ofNat_le.2 hk

/-- The pairs that are too many are those of the sum of some first dice and one more die. -/
theorem lt_encard_sums (hw : g.Writable)
    (hroom : limits.maxRolls.filter (· < g.count.toNat) = none)
    (hsides : ¬ limits.maxOutcomes < g.sides.toNat)
    (hplan : g.modifiers.foldlM Plan.add ⟨.die g.sides, [], none⟩ = .ok plan)
    (hsums : plan.selections = [])
    (h : plan.distribution limits.maxOutcomes g.count = .error (.tooManyOutcomes m)) :
    m = limits.maxOutcomes ∧ ∃ k : DiceCount, k.toNat < g.count.toNat ∧
      (limits.maxOutcomes : ℕ∞) <
        (Expr.dice (g.first k)).outcomes.encard * (Expr.dice (g.first .one)).outcomes.encard := by
  obtain ⟨rfl, k, sum, die, hk, hsum, hdie, hlarge⟩ := Plan.distribution_eq_tooManyOutcomes hsums h
  have hcount : ∀ {k : DiceCount} {d : Distribution}, k.toNat ≤ g.count.toNat →
      plan.distribution limits.maxOutcomes k = .ok d →
        (Expr.dice (g.first k)).outcomes.encard = d.size := by
    intro k d hk hd
    rw [← distribution_first hroom hsides hplan hk] at hd
    exact Expr.encard_outcomes (e := .dice (g.first k)) (first_writable hw hk) hd
  have hone : DiceCount.one.toNat ≤ g.count.toNat := g.count.pos
  refine ⟨rfl, k, hk, ?_⟩
  rw [hcount hk.le hsum, hcount hone hdie]
  exact_mod_cast hlarge

/-- The hands that are too many are those of some first dice. -/
theorem lt_encard_hands (hplan : g.modifiers.foldlM Plan.add ⟨.die g.sides, [], none⟩ = .ok plan)
    (h : Hands.roll limit plan.face g.count.toNat = .error (.tooManyOutcomes m)) :
    m = limit ∧ ∃ k : DiceCount, k.toNat ≤ g.count.toNat ∧ (limit : ℕ∞) < (g.hands k).encard := by
  obtain ⟨rfl, k, before, hk, hbefore, hlarge⟩ := Hands.addDice_eq_tooManyOutcomes h
  have hface := clampedFace_counts hplan
  have hne : g.sides.faces.map g.clampedFace ≠ [] := by simpa using g.sides.faces_ne_nil
  have hfollows := Hands.follows_roll m hface hne k
  rw [Hands.roll, hbefore] at hfollows
  obtain ⟨-, hcounts⟩ := hfollows
  rw [valuesOn_ok] at hcounts
  have hmax := g.count.le_max
  let count : DiceCount := ⟨k + 1, k.succ_pos, by omega⟩
  refine ⟨rfl, count, hk, ?_⟩
  have hlayer := Hands.layer_counts hface hcounts
  rw [encard_hands (k := count) hlayer]
  exact_mod_cast hlarge

end DiceGroup

namespace Expr

/-- The expression and the expressions it is built from. -/
def parts : Expr → List Expr
  | literal x => [literal x]
  | dice g => [dice g]
  | negate e => negate e :: e.parts
  | binary op l r => binary op l r :: (l.parts ++ r.parts)

/-- More than `limit` distinct outcomes of the expression itself, be it sides, hands, sums of some first
dice or values. -/
inductive HasMoreOutcomes (limit : Nat) : Expr → Prop
  | sides (g : DiceGroup) : limit < g.sides.toNat → HasMoreOutcomes limit (dice g)
  | hands (g : DiceGroup) (k : DiceCount) : g.Selects → k.toNat ≤ g.count.toNat →
      (limit : ℕ∞) < (g.hands k).encard → HasMoreOutcomes limit (dice g)
  | sums (g : DiceGroup) (k : DiceCount) : k.toNat ≤ g.count.toNat →
      (limit : ℕ∞) < (dice (g.first k)).outcomes.encard → HasMoreOutcomes limit (dice g)
  | values (e : Expr) : (limit : ℕ∞) < e.outcomes.encard → HasMoreOutcomes limit e

/-- What a distribution of the expression itself is refused for. Operands are judged by the pairs of their
outcomes, and so are the sum of some first dice and one more die. -/
inductive Oversized (limit : Nat) : Expr → Prop
  | sides (g : DiceGroup) : limit < g.sides.toNat → Oversized limit (dice g)
  | hands (g : DiceGroup) (k : DiceCount) : g.RollsOnce → g.Selects → k.toNat ≤ g.count.toNat →
      (limit : ℕ∞) < (g.hands k).encard → Oversized limit (dice g)
  | sums (g : DiceGroup) (k : DiceCount) : g.RollsOnce → ¬ g.Selects → k.toNat < g.count.toNat →
      (limit : ℕ∞) < (dice (g.first k)).outcomes.encard * (dice (g.first .one)).outcomes.encard →
      Oversized limit (dice g)
  | operands (op : BinaryOp) (l r : Expr) : (binary op l r).RollsOnce →
      (limit : ℕ∞) < l.outcomes.encard * r.outcomes.encard → Oversized limit (binary op l r)

variable {e : Expr} {limits : Limits}

theorem oversized_of_group {g : DiceGroup} (hw : g.Writable)
    (h : g.distribution limits = .error (.tooManyOutcomes m)) :
    m = limits.maxOutcomes ∧ (dice g).Oversized limits.maxOutcomes := by
  unfold DiceGroup.distribution at h
  split at h
  · cases h
  · next hroom =>
    split at h
    · next hsides =>
      cases h
      exact ⟨rfl, .sides g hsides⟩
    · next hsides =>
      cases hplan : g.modifiers.foldlM DiceGroup.Plan.add ⟨.die g.sides, [], none⟩ with
      | error error =>
        rw [hplan] at h
        cases h
        obtain ⟨p, modifier, -, hfails⟩ := foldlM_eq_error hplan
        exact absurd hfails (p.add_ne_tooManyOutcomes modifier)
      | ok plan =>
        rw [hplan] at h
        have honce : g.RollsOnce := DiceGroup.Plan.rollsDice_of_foldlM_add hplan
        by_cases hselects : g.Selects
        · have hsel : plan.selections ≠ [] := fun hnil =>
            (DiceGroup.selections_eq_nil_iff hplan).1 hnil hselects
          have hroll := DiceGroup.Plan.roll_eq_tooManyOutcomes hsel h
          obtain ⟨rfl, k, hk, hlarge⟩ := DiceGroup.lt_encard_hands hplan hroll
          exact ⟨rfl, .hands g k honce hselects hk hlarge⟩
        · have hsel := (DiceGroup.selections_eq_nil_iff hplan).2 hselects
          obtain ⟨rfl, k, hk, hlarge⟩ := DiceGroup.lt_encard_sums hw hroom hsides hplan hsel h
          exact ⟨rfl, .sums g k honce hselects hk hlarge⟩

/-- A refused distribution points at a part of the expression that is too large. -/
theorem exists_oversized (hw : e.Writable)
    (h : e.distribution limits = .error (.tooManyOutcomes m)) :
    m = limits.maxOutcomes ∧ ∃ part ∈ e.parts, part.Oversized limits.maxOutcomes := by
  induction e with
  | literal x => cases h
  | dice g =>
    obtain ⟨rfl, hlarge⟩ := oversized_of_group hw h
    exact ⟨rfl, dice g, List.mem_singleton_self _, hlarge⟩
  | negate e ih =>
    rw [distribution] at h
    split at h
    · next error herror =>
      cases h
      obtain ⟨rfl, part, hpart, hlarge⟩ := ih hw herror
      exact ⟨rfl, part, List.mem_cons_of_mem _ hpart, hlarge⟩
    · exact absurd h (mapError_ne_tooManyOutcomes _)
  | binary op l r ihl ihr =>
    rw [distribution] at h
    split at h
    · next error herror =>
      cases h
      obtain ⟨rfl, part, hpart, hlarge⟩ := ihl hw.1 herror
      exact ⟨rfl, part, List.mem_cons_of_mem _ (List.mem_append_left _ hpart), hlarge⟩
    · next left hleft =>
      split at h
      · next error herror =>
        cases h
        obtain ⟨rfl, part, hpart, hlarge⟩ := ihr hw.2 herror
        exact ⟨rfl, part, List.mem_cons_of_mem _ (List.mem_append_right _ hpart), hlarge⟩
      · next right hright =>
        obtain ⟨rfl, hlarge⟩ := Distribution.combine_eq_tooManyOutcomes h
        have honce : (binary op l r).RollsOnce := List.forall_mem_append.2
          ⟨(of_distribution_eq_ok hleft).1, (of_distribution_eq_ok hright).1⟩
        refine ⟨rfl, binary op l r, List.mem_cons_self, .operands op l r honce ?_⟩
        rw [encard_outcomes hw.1 hleft, encard_outcomes hw.2 hright]
        exact_mod_cast hlarge

end Expr

/-- Where a text has too many outcomes for a distribution, the limit is the one that was set, and some part
of the expression has more sides or more hands than that, or more pairs of outcomes to combine. -/
theorem distributionOfText_oversized {text : String} {limits : Limits}
    (h : distributionOfText text limits = .error (.distribution (.tooManyOutcomes limit))) :
    limit = limits.maxOutcomes ∧
      ∃ e, Expr.parse text = .ok e ∧ ∃ part ∈ e.parts, part.Oversized limits.maxOutcomes := by
  obtain ⟨e, hparse, hd⟩ := exists_expr_of_distributionOfText h
  obtain ⟨hlimit, hlarge⟩ := Expr.exists_oversized (Expr.writable_of_parse hparse) hd
  exact ⟨hlimit, e, hparse, hlarge⟩

theorem highestOfTwo_oversized :
    distributionOfText "4 - 2d6kh1" ⟨none, 100, 20⟩ = .error (.distribution (.tooManyOutcomes 20)) ∧
      ∃ e, Expr.parse "4 - 2d6kh1" = .ok e ∧ ∃ part ∈ e.parts, part.Oversized 20 := by
  have hrefused : distributionOfText "4 - 2d6kh1" ⟨none, 100, 20⟩ =
      .error (.distribution (.tooManyOutcomes 20)) := by decide +kernel
  obtain ⟨-, hlarge⟩ := distributionOfText_oversized hrefused
  exact ⟨hrefused, hlarge⟩

/-- A single die without modifiers. -/
def usualDie : DiceGroup := ⟨.one, .usual, []⟩

/-- Two dice, whose eleven sums come from thirty-six pairs. -/
def twoDice : Expr := .binary .add (.dice usualDie) (.dice usualDie)

theorem encard_outcomes_twoDice : twoDice.outcomes.encard = 11 := by
  have hgroup : usualDie.Writable := ⟨by decide, by simp [usualDie]⟩
  have hw : twoDice.Writable := ⟨hgroup, hgroup⟩
  have hsize : (twoDice.distribution .usual).map (·.size) = .ok 11 := by decide +kernel
  exact Expr.encard_outcomes_of_size hw hsize

theorem encard_outcomes_usualDie : (Expr.dice usualDie).outcomes.encard = 6 := by
  have hw : (Expr.dice usualDie).Writable := ⟨by decide, by simp [usualDie]⟩
  have hsize : ((Expr.dice usualDie).distribution .usual).map (·.size) = .ok 6 := by
    decide +kernel
  exact Expr.encard_outcomes_of_size hw hsize

theorem usualDie_not_hasMoreOutcomes : ¬ (Expr.dice usualDie).HasMoreOutcomes 11 := by
  have hfew : ¬ ((11 : Nat) : ℕ∞) < (Expr.dice usualDie).outcomes.encard := by
    rw [encard_outcomes_usualDie]
    decide
  intro h
  cases h with
  | sides _ hsides => exact absurd hsides (by decide)
  | hands _ k hselects =>
    obtain ⟨m, hm, -⟩ := hselects
    cases hm
  | sums _ k hk hsums =>
    obtain rfl : k = .one := by
      obtain ⟨k, hpos, hmax⟩ := k
      obtain rfl : k = 1 := Nat.le_antisymm hk hpos
      rfl
    exact hfew hsums
  | values _ hvalues => exact hfew hvalues

/-- The alarm can be false: with room for eleven outcomes, two dice are refused although they have no
more. -/
theorem twoDice_false_alarm :
    ¬ ∀ (text : String) (limits : Limits) (limit : Nat),
      distributionOfText text limits = .error (.distribution (.tooManyOutcomes limit)) →
        ∃ e, Expr.parse text = .ok e ∧ ∃ part ∈ e.parts, part.HasMoreOutcomes limit := by
  intro h
  have hrefused : distributionOfText "d6 + d6" ⟨none, 100, 11⟩ =
      .error (.distribution (.tooManyOutcomes 11)) := by decide +kernel
  have hparse : Expr.parse "d6 + d6" = .ok twoDice := by decide
  obtain ⟨e, he, part, hpart, hmore⟩ := h _ _ _ hrefused
  rw [hparse] at he
  cases he
  simp only [twoDice, Expr.parts, List.cons_append, List.nil_append, List.mem_cons,
    List.not_mem_nil, or_false, or_self] at hpart
  rcases hpart with rfl | rfl
  · cases hmore with
    | values _ hvalues =>
      rw [← twoDice, encard_outcomes_twoDice] at hvalues
      exact absurd hvalues (by decide)
  · exact usualDie_not_hasMoreOutcomes hmore

end DiceNotation
