import DiceNotation.Proofs.Rerolls
import DiceNotation.Proofs.Rolls.Growth

/-!
# How long a reroll may go on

Rerolled without any bound, a die takes as many rolls as it needs until its face does not meet the
condition any more; the die after it begins where the roller then is. Under the limit on iterations a
repeated reroll fails exactly if one of the dice needs more rolls than are allowed. A die that meets
the condition is rerolled before the limit is looked at, so a limit of zero allows one roll as well,
unlike that of an explosion.
-/

namespace DiceNotation

variable {ρ : Type} [Roller ρ]

namespace DieKind

/-- Rerolled without any bound, a die stops meeting the condition with the `n`-th roll. -/
inductive SettlesIn (k : DieKind) (condition : Condition) : Nat → ρ → ρ → Prop
  | last {r after : ρ} {face : Int} (hroll : Roller.roll r 1 k.sides.top = (.ok face, after))
    (hface : condition.holds face = false) : SettlesIn k condition 1 r after
  | again {n : Nat} {r next after : ρ} {face : Int}
    (hroll : Roller.roll r 1 k.sides.top = (.ok face, next)) (hface : condition.holds face = true)
    (hrest : SettlesIn k condition n next after) : SettlesIn k condition (n + 1) r after

/-- The next `n` rolls all meet the condition, so that a die needs more than these to stop. -/
inductive NeedsMoreThan (k : DieKind) (condition : Condition) : Nat → ρ → Prop
  | zero (r : ρ) : NeedsMoreThan k condition 0 r
  | succ {n : Nat} {r next : ρ} {face : Int}
    (hroll : Roller.roll r 1 k.sides.top = (.ok face, next)) (hface : condition.holds face = true)
    (hrest : NeedsMoreThan k condition n next) : NeedsMoreThan k condition (n + 1) r

/-- Dice are rerolled one after another without any bound, and take these numbers of rolls. -/
inductive SettleIn (k : DieKind) (condition : Condition) : List Nat → ρ → ρ → Prop
  | nil (r : ρ) : SettleIn k condition [] r r
  | cons {n : Nat} {counts : List Nat} {r next after : ρ} (hfirst : k.SettlesIn condition n r next)
    (hrest : SettleIn k condition counts next after) : SettleIn k condition (n :: counts) r after

variable {k : DieKind} {condition : Condition} {r : ρ}

theorem SettlesIn.unique {n n' : Nat} {after after' : ρ} (h : k.SettlesIn condition n r after)
    (h' : k.SettlesIn condition n' r after') : n = n' ∧ after = after' := by
  induction h generalizing n' with
  | last hroll hface =>
    cases h' with
    | last hroll' =>
      cases hroll.symm.trans hroll'
      exact ⟨rfl, rfl⟩
    | again hroll' hface' =>
      cases hroll.symm.trans hroll'
      cases hface.symm.trans hface'
  | again hroll hface _ ih =>
    cases h' with
    | last hroll' hface' =>
      cases hroll.symm.trans hroll'
      cases hface.symm.trans hface'
    | again hroll' _ hrest' =>
      cases hroll.symm.trans hroll'
      obtain ⟨rfl, hafter⟩ := ih hrest'
      exact ⟨rfl, hafter⟩

/-- A die that needs more than `m` rolls does not settle in so many. -/
theorem SettlesIn.lt {n m : Nat} {after : ρ} (h : k.SettlesIn condition n r after)
    (hmore : k.NeedsMoreThan condition m r) : m < n := by
  induction h generalizing m with
  | last hroll hface =>
    cases hmore with
    | zero => exact Nat.one_pos
    | succ hroll' hface' =>
      cases hroll.symm.trans hroll'
      cases hface.symm.trans hface'
  | again hroll _ _ ih =>
    cases hmore with
    | zero => exact Nat.succ_pos _
    | succ hroll' _ hrest' =>
      cases hroll.symm.trans hroll'
      exact Nat.succ_lt_succ (ih hrest')

/-- If all dice settle within `m` rolls, none of them needs more. -/
theorem SettleIn.not_needsMoreThan {counts settled : List Nat} {m : Nat} {after next : ρ}
    (h : k.SettleIn condition counts r after) (hcounts : ∀ n ∈ counts, n ≤ m)
    (hsettled : k.SettleIn condition settled r next) (hlength : settled.length < counts.length) :
    ¬ k.NeedsMoreThan condition m next := by
  induction h generalizing settled with
  | nil => simp at hlength
  | @cons n counts _ _ _ hfirst hrest ih =>
    obtain ⟨hn, hcounts⟩ := List.forall_mem_cons.1 hcounts
    cases hsettled with
    | nil =>
      intro hmore
      have hlt := hfirst.lt hmore
      omega
    | cons hfirst' hrest' =>
      obtain ⟨-, rfl⟩ := hfirst.unique hfirst'
      exact ih hcounts hrest' (by simpa using hlength)

section Chains

variable {c : Context ρ}

/-- One chain of rerolls: either the die settles within the rolls that are allowed, or it needs more. -/
theorem rerollFrom_cases (hreliable : Roller.Reliable ρ) (k : DieKind) (condition : Condition)
    (limit : Nat) (rolled : List Die) (left : Nat) (hcap : c.limits.maxRolls = none) :
    (∃ n, k.SettlesIn condition n c.roller
          (k.rerollFrom condition limit rolled left c).context.roller ∧
        n ≤ left + 1 ∧ (k.rerollFrom condition limit rolled left c).failure = none) ∨
      k.NeedsMoreThan condition (left + 1) c.roller ∧
        (k.rerollFrom condition limit rolled left c).failure = some (.rerollLoopExceeded limit) := by
  induction left generalizing rolled c with
  | zero =>
    obtain ⟨face, next, hroll, hone⟩ :=
      Context.rollOne_of_reliable hreliable (Context.refusal?_of_uncapped hcap 1) k.sides
    by_cases hface : condition.holds face = true
    · refine .inr ⟨.succ hroll hface (.zero next), ?_⟩
      simp only [rerollFrom, hone, if_pos hface]
    · rw [rerollFrom_of_not_holds limit rolled 0 hone hface]
      exact .inl ⟨1, .last hroll (Bool.eq_false_iff.2 hface), Nat.le_refl 1, rfl⟩
  | succ left ih =>
    obtain ⟨face, next, hroll, hone⟩ :=
      Context.rollOne_of_reliable hreliable (Context.refusal?_of_uncapped hcap 1) k.sides
    by_cases hface : condition.holds face = true
    · rw [rerollFrom_of_holds limit rolled left hone hface]
      rcases ih (c := { c with rolls := c.rolls + 1, roller := next }) _ hcap with
        ⟨n, hsettles, hn, hok⟩ | ⟨hmore, hfailure⟩
      · exact .inl ⟨n + 1, .again hroll hface hsettles, Nat.succ_le_succ hn, hok⟩
      · exact .inr ⟨.succ hroll hface hmore, hfailure⟩
    · rw [rerollFrom_of_not_holds limit rolled (left + 1) hone hface]
      exact .inl ⟨1, .last hroll (Bool.eq_false_iff.2 hface), by omega, rfl⟩

theorem reroll_cases (hreliable : Roller.Reliable ρ) (k : DieKind) (condition : Condition)
    (hcap : c.limits.maxRolls = none) :
    (∃ n, k.SettlesIn condition n c.roller (k.reroll .recursive condition c).context.roller ∧
        n ≤ max 1 c.limits.maxIterations ∧ (k.reroll .recursive condition c).failure = none) ∨
      k.NeedsMoreThan condition (max 1 c.limits.maxIterations) c.roller ∧
        (k.reroll .recursive condition c).failure =
          some (.rerollLoopExceeded c.limits.maxIterations) := by
  have hallowed : c.limits.maxIterations - 1 + 1 = max 1 c.limits.maxIterations := by omega
  have hchain := rerollFrom_cases hreliable k condition c.limits.maxIterations []
    (c.limits.maxIterations - 1) hcap
  rwa [hallowed] at hchain

/-- What rerolling so many dice comes to: all of them settle within the rolls that are allowed, or some
do and the next one needs more. -/
def Settled (k : DieKind) (condition : Condition) (l : Limits) (targets : Nat) (r : ρ)
    (failure : Option RollError) : Prop :=
  (∃ counts after, counts.length = targets ∧ k.SettleIn condition counts r after ∧
      (∀ n ∈ counts, n ≤ max 1 l.maxIterations) ∧ failure = none) ∨
    (∃ settled next, settled.length < targets ∧ k.SettleIn condition settled r next ∧
        k.NeedsMoreThan condition (max 1 l.maxIterations) next) ∧
      failure = some (.rerollLoopExceeded l.maxIterations)

theorem Settled.cons {l : Limits} {n targets : Nat} {next : ρ}
    {failure : Option RollError} (hsettles : k.SettlesIn condition n r next)
    (hn : n ≤ max 1 l.maxIterations) (h : k.Settled condition l targets next failure) :
    k.Settled condition l (targets + 1) r failure := by
  rcases h with ⟨counts, after, hlength, hrest, hcounts, hok⟩ |
    ⟨⟨settled, last, hlength, hrest, hmore⟩, hfails⟩
  · exact .inl ⟨n :: counts, after, congrArg Nat.succ hlength, .cons hsettles hrest,
      List.forall_mem_cons.2 ⟨hn, hcounts⟩, hok⟩
  · exact .inr ⟨⟨n :: settled, last, Nat.succ_lt_succ hlength, .cons hsettles hrest, hmore⟩, hfails⟩

theorem sweep_settled (hreliable : Roller.Reliable ρ) (k : DieKind) (condition : Condition)
    {l : Limits} (dice : List Die) (hc : c.limits = l) (hcap : l.maxRolls = none) :
    k.Settled condition l (dice.filter (·.meets condition)).length c.roller
      (Sweep.run (·.meets condition) Die.replace (k.reroll .recursive condition) dice c).failure := by
  induction dice generalizing c with
  | nil => exact .inl ⟨[], c.roller, rfl, .nil c.roller, by simp, rfl⟩
  | cons d rest ih =>
    cases hmeets : d.meets condition with
    | false =>
      rw [Sweep.run_cons_of_not_fires rest hmeets c, List.filter_cons_of_neg (by simp [hmeets])]
      exact ih hc
    | true =>
      rw [List.filter_cons_of_pos hmeets, List.length_cons]
      rcases reroll_cases hreliable k condition (hc ▸ hcap : c.limits.maxRolls = none) with
        ⟨n, hsettles, hn, hok⟩ | ⟨hmore, hfailure⟩
      · have hlimits : (k.reroll .recursive condition c).context.limits = l :=
          (k.reroll_limits .recursive condition c).trans hc
        rw [Sweep.run_cons_of_answer rest hmeets hok]
        exact (ih hlimits).cons hsettles (hc ▸ hn)
      · rw [Sweep.run_cons_of_failure rest hmeets hfailure]
        exact .inr ⟨⟨[], c.roller, Nat.succ_pos _, .nil c.roller, hc ▸ hmore⟩, by rw [hc]⟩

end Chains

end DieKind

/-- The chains of a reroll are as long as the limit allows. -/
theorem Rerolls.length_dice_le {k : DieKind} {repeats : Repeats} {condition : Condition}
    {targets : List Die} {chains : List Chain} {c after : Context ρ} {l : Limits}
    (h : Rerolls k repeats condition targets c chains after) (hc : c.limits = l) :
    ∀ ch ∈ chains, (ch.dice k).length ≤ max 1 l.maxIterations := by
  induction h with
  | nil => simp
  | @cons d _ c _ ch _ _ hdice _ _ ih =>
    have hfirst := k.length_reroll_le repeats condition c
    rw [hdice, hc] at hfirst
    have hlimits := (k.reroll_limits repeats condition c).trans hc
    exact List.forall_mem_cons.2 ⟨hfirst, ih hlimits⟩

namespace Pool

variable {c : Context ρ}

/-- A repeated reroll that succeeds has rolled no die more often than allowed, and one fails exactly if
some die that meets the condition needs more rolls than that to stop meeting it. What is allowed is the
limit on iterations, but never less than one roll. -/
theorem modify_reroll_limit (hreliable : Roller.Reliable ρ) (hcap : c.limits.maxRolls = none)
    (p : Pool) (condition : Condition) :
    let r := p.modify (.reroll .recursive condition) c
    let targets := p.dice.filter (·.meets condition)
    let allowed := max 1 c.limits.maxIterations
    (r.failure = none → ∃ chains : List Chain,
      Rerolls p.kind .recursive condition targets c chains r.context ∧
      r.value =
        { p with dice :=
          (p.dice.map fun d => if d.meets condition then d.replace else d) ++
            chains.flatMap (·.dice p.kind) } ∧
      ∀ ch ∈ chains, (ch.dice p.kind).length ≤ allowed) ∧
    (r.failure = some (.rerollLoopExceeded c.limits.maxIterations) ↔
      ∃ settled next, settled.length < targets.length ∧
        p.kind.SettleIn condition settled c.roller next ∧
        p.kind.NeedsMoreThan condition allowed next) ∧
    (r.failure = none ∨ r.failure = some (.rerollLoopExceeded c.limits.maxIterations)) := by
  intro r targets allowed
  have hcases : p.kind.Settled condition c.limits targets.length c.roller r.failure :=
    DieKind.sweep_settled hreliable p.kind condition p.dice rfl hcap
  refine ⟨fun hok => ?_, ?_, ?_⟩
  · obtain ⟨chains, hrerolls, hvalue⟩ := modify_reroll_value hok
    exact ⟨chains, hrerolls, hvalue, hrerolls.length_dice_le rfl⟩
  · rcases hcases with ⟨counts, after, hlength, hall, hcounts, hok⟩ | ⟨hmore, hfailure⟩
    · rw [hok]
      refine iff_of_false (by simp) ?_
      rintro ⟨settled, next, hshorter, hsettled, hmore⟩
      exact hall.not_needsMoreThan hcounts hsettled (hlength ▸ hshorter) hmore
    · exact iff_of_true hfailure hmore
  · rcases hcases with ⟨-, -, -, -, -, hok⟩ | ⟨-, hfailure⟩
    · exact .inl hok
    · exact .inr hfailure

/-- Of two ones to be rerolled the first settles with its second roll. If the other one does as well, both
fit a limit of two, and if it shows a one twice more, it needs too many. -/
theorem twoOnes_reroll_limit :
    let one : Die := .fresh 0 1 .initial
    let p : Pool := ⟨0, .usual, [one, .fresh 0 4 .initial, one.drop, one], none⟩
    let c (faces : List Int) : Context Playback := .start ⟨none, 2, 0⟩ (.ofList faces)
    let settling := p.modify (.reroll .recursive (.equalTo 1)) (c [1, 5, 1, 3])
    Roller.Reliable Playback ∧ (∀ faces, (c faces).limits.maxRolls = none) ∧
      settling.failure = none ∧
      (∃ chains : List Chain, settling.value.dice =
          [one.replace, .fresh 0 4 .initial, one.drop, one.replace] ++
            chains.flatMap (·.dice p.kind) ∧
          ∀ ch ∈ chains, (ch.dice p.kind).length ≤ 2) ∧
      (p.modify (.reroll .recursive (.equalTo 1)) (c [1, 5, 1, 1])).failure =
        some (.rerollLoopExceeded 2) := by
  intro one p c settling
  have hok : settling.failure = none := by decide
  refine ⟨Playback.reliable, fun _ => rfl, hok, ?_, ?_⟩
  · obtain ⟨chains, -, hvalue, hlength⟩ :=
      (modify_reroll_limit Playback.reliable rfl p (.equalTo 1)).1 hok
    exact ⟨chains, congrArg Pool.dice hvalue, hlength⟩
  · let next : Playback := { Playback.ofList [1, 5, 1, 1] with used := 2 }
    refine (modify_reroll_limit Playback.reliable rfl p (.equalTo 1)).2.1.2
      ⟨[2], next, by decide, ?_, ?_⟩
    · exact .cons (.again rfl rfl (.last rfl rfl)) (.nil _)
    · exact .succ rfl rfl (.succ rfl rfl (.zero _))

/-- Under a limit of zero a die that needs a reroll is rerolled once, and that is no failure; an explosion
fails there before it rolls a die. -/
theorem zeroLimit_rerolls_once :
    let one : Die := .fresh 0 1 .initial
    let p : Pool := ⟨0, .usual, [one], none⟩
    let c : Context Playback := .start ⟨none, 0, 0⟩ (.ofList [5])
    let r := p.modify (.reroll .recursive (.equalTo 1)) c
    r.failure = none ∧ r.value.dice = [one.replace, .fresh 0 5 .reroll] ∧
      ¬ (r.failure = some (.rerollLoopExceeded 0) ↔
        ∃ settled next, settled.length < (p.dice.filter (·.meets (.equalTo 1))).length ∧
          p.kind.SettleIn (.equalTo 1) settled c.roller next ∧
          p.kind.NeedsMoreThan (.equalTo 1) 0 next) ∧
      (p.modify (.explode .recursive (.equalTo 1)) c).failure = some (.explodeLoopExceeded 0) := by
  intro one p c r
  have hok : r.failure = none := by decide
  refine ⟨hok, by decide, fun hiff => ?_, by decide⟩
  have hfailed := hiff.2 ⟨[], c.roller, by decide, .nil _, .zero _⟩
  rw [hok] at hfailed
  cases hfailed

end Pool

end DiceNotation
