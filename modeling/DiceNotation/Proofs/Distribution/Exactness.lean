import Mathlib
import DiceNotation.Proofs.Distribution.Plans

/-!
# Exactness of distributions

A distribution says of every total in how many throws it comes up, and working one out fails only where
some throw does. Both are consequences of one fact by induction over the expression: its distribution
follows its totals on the list of all throws.
-/

namespace DiceNotation

open Tally (Follows)

/-- A cap on rolls leaves room for every single group. -/
def Expr.FitsRolls (e : Expr) (limits : Limits) : Prop :=
  ∀ g ∈ e.groups, ∀ max, limits.maxRolls = some max → g.count.toNat ≤ max

namespace DiceGroup

variable {g : DiceGroup} {limits : Limits}

theorem refused_eq_none_iff :
    limits.maxRolls.filter (· < g.count.toNat) = none ↔
      ∀ max, limits.maxRolls = some max → g.count.toNat ≤ max := by
  cases limits.maxRolls with
  | none => simp
  | some max => simp [Option.filter_some]

theorem of_distribution_eq_ok {d : Distribution} (h : g.distribution limits = .ok d) :
    g.RollsOnce ∧ ∀ max, limits.maxRolls = some max → g.count.toNat ≤ max := by
  unfold distribution at h
  split at h
  · cases h
  · next hrefused =>
    refine ⟨?_, refused_eq_none_iff.1 hrefused⟩
    split at h
    · cases h
    · cases hplan : g.modifiers.foldlM Plan.add ⟨.die g.sides, [], none⟩ with
      | error e =>
        rw [hplan] at h
        cases h
      | ok plan => exact Plan.rollsDice_of_foldlM_add hplan

theorem follows_distribution (hw : g.Writable) (honce : g.RollsOnce)
    (hroom : ∀ max, limits.maxRolls = some max → g.count.toNat ≤ max) :
    Follows DistributionError.ofArithmetic limits.maxOutcomes (fun faces => checked (g.worth faces))
      (draws g.sides.faces g.count.toNat) (g.distribution limits) := by
  rw [distribution, refused_eq_none_iff.2 hroom]
  dsimp only
  split
  · next hlarge =>
    -- A die with too many sides has too many throws already.
    intro hfit
    rw [length_draws, g.sides.length_faces] at hfit
    have := Nat.le_self_pow g.count.pos.ne' g.sides.toNat
    omega
  · obtain ⟨plan, u, hplan, hcarries⟩ :=
      Plan.foldlM_add_carries (Plan.carries_start g.sides) hw.2 honce
    rw [hplan]
    exact Plan.follows_distribution limits.maxOutcomes hw hcarries

end DiceGroup

namespace Expr

variable {limits : Limits}

theorem of_distribution_eq_ok {e : Expr} {d : Distribution} (h : e.distribution limits = .ok d) :
    e.RollsOnce ∧ e.FitsRolls limits := by
  induction e generalizing d with
  | literal x => exact ⟨by simp [RollsOnce, groups], by simp [FitsRolls, groups]⟩
  | dice g =>
    have := DiceGroup.of_distribution_eq_ok h
    simpa [RollsOnce, FitsRolls, groups] using this
  | negate e ih =>
    rw [distribution] at h
    cases hoperand : e.distribution limits with
    | error error =>
      rw [hoperand] at h
      cases h
    | ok operand => exact ih hoperand
  | binary op l r ihl ihr =>
    rw [distribution] at h
    cases hl : l.distribution limits with
    | error error =>
      rw [hl] at h
      cases h
    | ok left =>
      cases hr : r.distribution limits with
      | error error =>
        rw [hl, hr] at h
        cases h
      | ok right =>
        obtain ⟨hlonce, hlroom⟩ := ihl hl
        obtain ⟨hronce, hrroom⟩ := ihr hr
        exact ⟨List.forall_mem_append.2 ⟨hlonce, hronce⟩,
          List.forall_mem_append.2 ⟨hlroom, hrroom⟩⟩

/-- The distribution of an expression counts its totals on all throws, and fails only as one of them
does. -/
theorem follows_distribution {e : Expr} (hw : e.Writable) (honce : e.RollsOnce)
    (hroom : e.FitsRolls limits) :
    Follows DistributionError.ofArithmetic limits.maxOutcomes e.totalOf e.throws
      (e.distribution limits) := by
  induction e with
  | literal x =>
    exact ⟨fun faces _ => ⟨x, rfl⟩, Tally.Counts.singleton x⟩
  | dice g =>
    have hg : g ∈ (dice g).groups := List.mem_singleton_self g
    exact DiceGroup.follows_distribution hw (honce g hg) (hroom g hg)
  | negate e ih =>
    have hoperand := ih hw honce hroom
    have hnegated := hoperand.bind (g := DiceNotation.negate) fun t _ ht =>
      (Tally.follows_mapM limits.maxOutcomes DiceNotation.negate ht).mapError
    rw [distribution]
    cases hd : e.distribution limits with
    | error error =>
      rw [hd] at hnegated
      exact hnegated
    | ok operand =>
      rw [hd] at hnegated
      exact hnegated
  | binary op l r ihl ihr =>
    obtain ⟨hlonce, hronce⟩ := List.forall_mem_append.1 honce
    obtain ⟨hlroom, hrroom⟩ := List.forall_mem_append.1 hroom
    have hl := ihl hw.1 hlonce hlroom
    have hr := ihr hw.2 hronce hrroom
    have hpairs := Distribution.follows_both op.apply l.throws_ne_nil r.throws_ne_nil hl hr
    refine Follows.map_iff.2 (hpairs.congr ?_)
    rintro ⟨left, right⟩ hp
    rw [totalOf_append (mem_throws.1 (List.mem_product.1 hp).1)]

end Expr

theorem encard_of_nodup {α : Type} {l : List α} (h : l.Nodup) (p : α → Bool) :
    {x | x ∈ l ∧ p x}.encard = l.countP p := by
  classical
  have hset : {x | x ∈ l ∧ p x} = ((l.filter p).toFinset : Set α) := by
    ext x
    simp
  rw [hset, Set.encard_coe_eq_coe_finsetCard, List.toFinset_card_of_nodup (h.filter p),
    List.countP_eq_length_filter]

theorem count_valuesOn {γ : Type} (f : γ → Except ArithmeticError Int) (inputs : List γ) (x : Int) :
    (valuesOn f inputs).count x = inputs.countP fun i => f i = .ok x := by
  rw [valuesOn, List.count_filterMap]
  refine List.countP_congr fun i _ => ?_
  cases f i with
  | error a => simp [Except.toOption]
  | ok y => simp [Except.toOption]

section Played

variable {text : String} {e : Expr} {rollLimits : Limits}

theorem playedTotal_eq_ok_iff (hparse : Expr.parse text = .ok e) (he : e.RollsOnce)
    (hcap : rollLimits.maxRolls = none) {faces : List Int} (hthrow : e.IsThrow faces) {x : Int} :
    playedTotal text faces rollLimits = .ok x ↔ e.totalOf faces = .ok x := by
  rw [playedTotal_eq hparse he hcap hthrow]
  exact mapError_eq_ok_iff

theorem encard_playedTotal (hparse : Expr.parse text = .ok e) (he : e.RollsOnce)
    (hcap : rollLimits.maxRolls = none) (x : Int) :
    {faces | e.IsThrow faces ∧ playedTotal text faces rollLimits = .ok x}.encard =
      (valuesOn e.totalOf e.throws).count x := by
  rw [count_valuesOn, ← encard_of_nodup e.nodup_throws]
  congr 1
  ext faces
  simp only [Set.mem_ofPred_eq, Expr.mem_throws, decide_eq_true_eq]
  constructor
  · rintro ⟨hthrow, htotal⟩
    exact ⟨hthrow, (playedTotal_eq_ok_iff hparse he hcap hthrow).1 htotal⟩
  · rintro ⟨hthrow, htotal⟩
    exact ⟨hthrow, (playedTotal_eq_ok_iff hparse he hcap hthrow).2 htotal⟩

theorem distributionOfText_eq {limits : Limits} (hparse : Expr.parse text = .ok e) :
    distributionOfText text limits = (e.distribution limits).mapError Error.distribution := by
  rw [distributionOfText, hparse]

end Played

/-- Where a text has a distribution, every throw of its dice has a total, and each total comes up in
as many throws as the distribution says. -/
theorem distributionOfText_exact {text : String} {limits rollLimits : Limits} {d : Distribution}
    (h : distributionOfText text limits = .ok d) (hcap : rollLimits.maxRolls = none) :
    ∃ e, Expr.parse text = .ok e ∧
      (∀ faces, e.IsThrow faces → ∃ x, playedTotal text faces rollLimits = .ok x) ∧
      (∀ x, {faces | e.IsThrow faces ∧ playedTotal text faces rollLimits = .ok x}.encard = d.ways x) ∧
      (∀ x : Int, d[x]? ≠ some 0) ∧ d.total = e.throwCount := by
  cases hparse : Expr.parse text with
  | error error =>
    rw [distributionOfText, hparse] at h
    cases h
  | ok e =>
    rw [distributionOfText_eq hparse] at h
    have hd : e.distribution limits = .ok d := mapError_eq_ok_iff.1 h
    obtain ⟨honce, hroom⟩ := Expr.of_distribution_eq_ok hd
    have hfollows := Expr.follows_distribution (Expr.writable_of_parse hparse) honce hroom
    rw [hd] at hfollows
    obtain ⟨htotals, hcounts⟩ := hfollows
    refine ⟨e, rfl, ?_, ?_, hcounts.getElem?_ne_zero, ?_⟩
    · intro faces hthrow
      obtain ⟨x, hx⟩ := htotals faces (Expr.mem_throws.2 hthrow)
      exact ⟨x, (playedTotal_eq_ok_iff hparse honce hcap hthrow).2 hx⟩
    · intro x
      rw [encard_playedTotal hparse honce hcap, hcounts.ways_eq]
    · choose! u hu using htotals
      rw [hcounts.total_eq, valuesOn_eq_map hu, List.length_map, e.length_throws]

theorem highestCoin_exact :
    ∃ d, distributionOfText "2d2kh1" .usual = .ok d ∧ d.ways 2 = 3 ∧
      ∃ e, Expr.parse "2d2kh1" = .ok e ∧
        {faces | e.IsThrow faces ∧ playedTotal "2d2kh1" faces ⟨none, 100, 0⟩ = .ok 2}.encard = 3 := by
  have hways : (distributionOfText "2d2kh1" .usual).map (·.ways 2) = .ok 3 := by decide
  cases h : distributionOfText "2d2kh1" .usual with
  | error error =>
    rw [h] at hways
    cases hways
  | ok d =>
    rw [h] at hways
    have htwo : d.ways 2 = 3 := Except.ok.inj hways
    have hcap : (⟨none, 100, 0⟩ : Limits).maxRolls = none := rfl
    obtain ⟨e, hparse, -, hcount, -⟩ := distributionOfText_exact h hcap
    refine ⟨d, rfl, htwo, e, hparse, ?_⟩
    rw [hcount 2, htwo]
    rfl

/-- With room for every group and for all throws, a text has a distribution exactly if all its throws
have a total, and otherwise the distribution fails in the way of one of them. `hword` holds of every
limit on outcomes that is itself a count. -/
theorem distributionOfText_fails_with_throw {text : String} {e : Expr} {limits rollLimits : Limits}
    (hparse : Expr.parse text = .ok e) (honce : e.RollsOnce) (hroom : e.FitsRolls limits)
    (hthrows : e.throwCount ≤ limits.maxOutcomes) (hword : limits.maxOutcomes ≤ maxCount)
    (hcap : rollLimits.maxRolls = none) :
    ((∃ d, distributionOfText text limits = .ok d) ↔
        ∀ faces, e.IsThrow faces → ∃ x, playedTotal text faces rollLimits = .ok x) ∧
      ∀ error, distributionOfText text limits = .error error →
        ∃ a : ArithmeticError, error = .distribution (.ofArithmetic a) ∧
          ∃ faces, e.IsThrow faces ∧
            playedTotal text faces rollLimits = .error (.roll (.ofArithmetic a)) := by
  have hfollows := Expr.follows_distribution (Expr.writable_of_parse hparse) honce hroom
  rw [distributionOfText_eq hparse]
  cases hd : e.distribution limits with
  | ok d =>
    rw [hd] at hfollows
    obtain ⟨htotals, -⟩ := hfollows
    refine ⟨⟨fun _ faces hthrow => ?_, fun _ => ⟨d, rfl⟩⟩, fun error herror => by cases herror⟩
    obtain ⟨x, hx⟩ := htotals faces (Expr.mem_throws.2 hthrow)
    exact ⟨x, (playedTotal_eq_ok_iff hparse honce hcap hthrow).2 hx⟩
  | error error =>
    rw [hd] at hfollows
    rw [← e.length_throws] at hthrows
    obtain ⟨faces, hfaces, a, htotal, rfl⟩ := hfollows hthrows hword
    have hthrow := Expr.mem_throws.1 hfaces
    have hplayed : playedTotal text faces rollLimits = .error (.roll (.ofArithmetic a)) := by
      rw [playedTotal_eq hparse honce hcap hthrow, htotal]
      rfl
    refine ⟨⟨?_, fun hall => ?_⟩, fun error herror => ?_⟩
    · rintro ⟨d, hd⟩
      cases hd
    · obtain ⟨x, hx⟩ := hall faces hthrow
      rw [hplayed] at hx
      cases hx
    · cases herror
      exact ⟨a, rfl, faces, hthrow, hplayed⟩

/-- A quotient whose divisor is zero for one of the faces. -/
def dieQuotient : Expr :=
  .binary .div (.literal 6) (.binary .sub (.dice ⟨.one, .usual, []⟩) (.literal 1))

theorem dieQuotient_fails :
    Expr.parse "6 / (d6 - 1)" = .ok dieQuotient ∧
      distributionOfText "6 / (d6 - 1)" .usual = .error (.distribution .divisionByZero) ∧
      ∃ faces, dieQuotient.IsThrow faces ∧
        playedTotal "6 / (d6 - 1)" faces ⟨none, 100, 0⟩ = .error (.roll .divisionByZero) := by
  have hparse : Expr.parse "6 / (d6 - 1)" = .ok dieQuotient := by decide
  have honce : dieQuotient.RollsOnce := by
    simp [Expr.RollsOnce, Expr.groups, dieQuotient, DiceGroup.RollsOnce]
  have hroom : dieQuotient.FitsRolls .usual := by
    simp [Expr.FitsRolls, Expr.groups, dieQuotient, DiceCount.one, Limits.usual]
  have hcap : (⟨none, 100, 0⟩ : Limits).maxRolls = none := rfl
  have hfails : distributionOfText "6 / (d6 - 1)" .usual = .error (.distribution .divisionByZero) := by
    rw [distributionOfText_eq hparse]
    rfl
  obtain ⟨-, hthrow⟩ := distributionOfText_fails_with_throw hparse honce hroom (by decide)
    (by decide) hcap
  obtain ⟨a, ha, faces, hfaces, hplayed⟩ := hthrow _ hfails
  cases a with
  | divisionByZero => exact ⟨hparse, hfails, faces, hfaces, hplayed⟩
  | overflow => cases ha

end DiceNotation
