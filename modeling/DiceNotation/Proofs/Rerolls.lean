import DiceNotation.Proofs.RaisedLimits.Rolling
import DiceNotation.Proofs.Rerolls.Loop

/-!
# What a reroll leaves behind

A reroll replaces each die in play that meets the condition by a chain of new dice: all of them but the
last are replaced in their turn, and the last one stays. The chains stand behind the dice of the pool in
the order of the dice they were rolled for. A reroll that goes on while the condition is met leaves no
die to be rerolled. All this is what the steps of `Rerolling.step` come to, which reroll die by die at its
position.
-/

namespace DiceNotation

variable {ρ : Type} [Roller ρ]

/-- The faces rolled in place of one die: those that were replaced again, and the one that stays. -/
structure Chain where
  replaced : List Int
  last : Int

namespace Chain

def dice (k : DieKind) (ch : Chain) : List Die :=
  ch.replaced.map (fun face => (Die.fresh k.group face .reroll).replace) ++
    [.fresh k.group ch.last .reroll]

/-- Where a chain ends: a single reroll after one die, a repeated one at the first die that does not
meet the condition. -/
def Ends (repeats : Repeats) (condition : Condition) (ch : Chain) : Prop :=
  match repeats with
  | .once => ch.replaced = []
  | .recursive =>
    (∀ face ∈ ch.replaced, condition.holds face = true) ∧ condition.holds ch.last = false

end Chain

namespace DieKind

variable {k : DieKind} {repeats : Repeats} {condition : Condition} {c : Context ρ}

/-- A chain of rerolls that settles. -/
theorem rerollFrom_chain {limit left : Nat} {rolled : List Die}
    (hok : (k.rerollFrom condition limit rolled left c).failure = none) : ∃ ch : Chain,
      (k.rerollFrom condition limit rolled left c).value = rolled.reverse ++ ch.dice k ∧
        ch.Ends .recursive condition := by
  fun_induction rerollFrom k condition limit rolled left c with
  | case1 => cases hok
  | case2 => cases hok
  | case3 rolled c face after hroll die hface left ih =>
    obtain ⟨ch, hvalue, hreplaced, hlast⟩ := ih hok
    refine ⟨⟨face :: ch.replaced, ch.last⟩, ?_, List.forall_mem_cons.2 ⟨hface, hreplaced⟩, hlast⟩
    simp [hvalue, Chain.dice, die]
  | case4 rolled left c face after hroll die hface =>
    refine ⟨⟨[], face⟩, by simp [Chain.dice, die], by simp, by simpa using hface⟩

/-- The dice that take the place of one die are a chain. -/
theorem reroll_chain (hok : (k.reroll repeats condition c).failure = none) : ∃ ch : Chain,
    (k.reroll repeats condition c).value = ch.dice k ∧ ch.Ends repeats condition := by
  cases repeats with
  | once =>
    obtain ⟨face, hface⟩ := roll_value .reroll hok
    exact ⟨⟨[], face⟩, hface, rfl⟩
  | recursive => exact rerollFrom_chain hok

end DieKind

/-- Dice are rerolled one after another, each in a chain of its own that begins where the one before
ended. -/
inductive Rerolls (k : DieKind) (repeats : Repeats) (condition : Condition) :
    List Die → Context ρ → List Chain → Context ρ → Prop
  | nil (c : Context ρ) : Rerolls k repeats condition [] c [] c
  | cons (d : Die) {targets : List Die} {c after : Context ρ} {ch : Chain} {chains : List Chain}
    (hok : (k.reroll repeats condition c).failure = none)
    (hdice : (k.reroll repeats condition c).value = ch.dice k)
    (hends : ch.Ends repeats condition)
    (hrest : Rerolls k repeats condition targets (k.reroll repeats condition c).context chains after) :
    Rerolls k repeats condition (d :: targets) c (ch :: chains) after

namespace Rerolls

variable {k : DieKind} {repeats : Repeats} {condition : Condition} {c after : Context ρ}
  {targets : List Die} {chains : List Chain}

theorem length_eq (h : Rerolls k repeats condition targets c chains after) :
    chains.length = targets.length := by
  induction h with
  | nil => rfl
  | cons d _ _ _ _ ih => rw [List.length_cons, List.length_cons, ih]

theorem ends (h : Rerolls k repeats condition targets c chains after) :
    ∀ ch ∈ chains, ch.Ends repeats condition := by
  induction h with
  | nil => simp
  | cons d _ _ hends _ ih => exact List.forall_mem_cons.2 ⟨hends, ih⟩

/-- A sweep of rerolls that succeeds has a chain for every die that meets the condition. -/
theorem of_sweep {dice : List Die}
    (hok : (Sweep.run (·.meets condition) Die.replace (k.reroll repeats condition) dice c).failure =
      none) :
    let s := Sweep.run (·.meets condition) Die.replace (k.reroll repeats condition) dice c
    ∃ chains, Rerolls k repeats condition (dice.filter (·.meets condition)) c chains s.context ∧
      s.value.rolled = chains.flatMap (·.dice k) := by
  induction dice generalizing c with
  | nil => exact ⟨[], .nil c, rfl⟩
  | cons d rest ih =>
    cases hmeets : d.meets condition with
    | false =>
      rw [Sweep.run_cons_of_not_fires rest hmeets c] at hok ⊢
      obtain ⟨chains, hrerolls, hrolled⟩ := ih hok
      refine ⟨chains, ?_, hrolled⟩
      rwa [List.filter_cons_of_neg (by simp [hmeets])]
    | true =>
      cases hnew : (k.reroll repeats condition c).failure with
      | some e =>
        rw [Sweep.run_cons_of_failure rest hmeets hnew] at hok
        cases hok
      | none =>
        rw [Sweep.run_cons_of_answer rest hmeets hnew] at hok ⊢
        obtain ⟨ch, hdice, hends⟩ := DieKind.reroll_chain hnew
        obtain ⟨chains, hrerolls, hrolled⟩ := ih hok
        refine ⟨ch :: chains, ?_, ?_⟩
        · rw [List.filter_cons_of_pos hmeets]
          exact .cons d hnew hdice hends hrerolls
        · rw [List.flatMap_cons, ← hrolled, ← hdice]
          rfl

end Rerolls

namespace Die

/-- A die that has been replaced where it met the condition is not replaced again. -/
theorem not_meets_replaced (condition : Condition) (d : Die) :
    (if d.meets condition then d.replace else d).meets condition = false := by
  split
  · simp [meets, replace, isKept]
  · next h => simpa using h

theorem not_meets_of_mem_chain {k : DieKind} {condition : Condition} {ch : Chain}
    (hends : ch.Ends .recursive condition) : ∀ d ∈ ch.dice k, d.meets condition = false := by
  intro d hd
  rcases List.mem_append.1 hd with hd | hd
  · obtain ⟨face, -, rfl⟩ := List.mem_map.1 hd
    rfl
  · obtain rfl := List.mem_singleton.1 hd
    simp [meets, fresh, hends.2]

end Die

namespace Pool

variable {p : Pool} {repeats : Repeats} {condition : Condition} {c : Context ρ}

/-- Where no die meets the condition nothing is rolled. -/
theorem modify_reroll_of_not_meets (h : p.dice.any (·.meets condition) = false)
    (repeats : Repeats) (c : Context ρ) :
    p.modify (.reroll repeats condition) c = ⟨p, none, c⟩ := by
  simp only [modify, Sweep.run, Sweep.runFrom_of_not_fires [] [] h c]
  simp [Sweep.dice]

theorem modify_reroll_value (hok : (p.modify (.reroll repeats condition) c).failure = none) :
    ∃ chains : List Chain,
      Rerolls p.kind repeats condition (p.dice.filter (·.meets condition)) c chains
        (p.modify (.reroll repeats condition) c).context ∧
      (p.modify (.reroll repeats condition) c).value =
        { p with dice :=
          (p.dice.map fun d => if d.meets condition then d.replace else d) ++
            chains.flatMap (·.dice p.kind) } := by
  obtain ⟨chains, hrerolls, hrolled⟩ := Rerolls.of_sweep hok
  have hpassed := Sweep.passed_run hok
  refine ⟨chains, hrerolls, ?_⟩
  simp only [modify, Sweep.dice, hpassed, hrolled]

/-- Rerolling by position comes to one end, without a look-up out of range, and it is that of the
modifier, failures included. -/
theorem ends_iff_modify_reroll (p : Pool) (repeats : Repeats) (condition : Condition) (c : Context ρ)
    (dice : List Die) (failure : Option RollError) (after : Context ρ) :
    Course.Ends (Rerolling.step p.kind repeats condition c.limits.maxIterations)
        (Rerolling.start condition p.dice c) ⟨dice, failure, after⟩ ↔
      p.modify (.reroll repeats condition) c = ⟨{ p with dice }, failure, after⟩ := by
  refine (Rerolling.ends_start_iff p.kind repeats condition p.dice c _).trans ⟨fun h => ?_, fun h => ?_⟩
  · cases h
    rfl
  · simp only [modify, Run.mk.injEq, mk.injEq, true_and, and_true] at h
    obtain ⟨rfl, rfl, rfl⟩ := h
    rfl

/-- Where rerolling by position ends without a failure it leaves the dice of the pool, replaced where they
met the condition, and the chains behind them. -/
theorem exists_chains_of_ends {dice : List Die} {after : Context ρ}
    (h : Course.Ends (Rerolling.step p.kind repeats condition c.limits.maxIterations)
      (Rerolling.start condition p.dice c) ⟨dice, none, after⟩) :
    ∃ chains : List Chain,
      Rerolls p.kind repeats condition (p.dice.filter (·.meets condition)) c chains after ∧
      dice = (p.dice.map fun d => if d.meets condition then d.replace else d) ++
        chains.flatMap (·.dice p.kind) := by
  have hmodify := (ends_iff_modify_reroll p repeats condition c dice none after).1 h
  obtain ⟨chains, hrerolls, hvalue⟩ := modify_reroll_value (congrArg Run.failure hmodify)
  rw [hmodify] at hrerolls hvalue
  exact ⟨chains, hrerolls, congrArg Pool.dice hvalue⟩

/-- A reroll that succeeds takes the dice that meet the condition out of play and nothing else from the
dice of the pool; behind them it puts a chain for each of these dice, in their order. After a repeated
one no die in play meets the condition, so that it has nothing to do when it is carried out again. -/
theorem modify_reroll_chains (hok : (p.modify (.reroll repeats condition) c).failure = none) :
    let r := p.modify (.reroll repeats condition) c
    (∃ chains : List Chain,
      Rerolls p.kind repeats condition (p.dice.filter (·.meets condition)) c chains r.context ∧
      chains.length = p.dice.countP (·.meets condition) ∧
      (∀ ch ∈ chains, ch.Ends repeats condition) ∧
      r.value =
        { p with dice :=
          (p.dice.map fun d => if d.meets condition then d.replace else d) ++
            chains.flatMap (·.dice p.kind) }) ∧
    (repeats = .recursive →
      (∀ d ∈ r.value.dice, d.isKept = true → condition.holds d.value = false) ∧
      ∀ {σ : Type} [Roller σ] (c' : Context σ),
        r.value.modify (.reroll .recursive condition) c' = ⟨r.value, none, c'⟩) := by
  intro r
  obtain ⟨chains, hrerolls, hvalue⟩ := modify_reroll_value hok
  have hlength : chains.length = p.dice.countP (·.meets condition) := by
    rw [hrerolls.length_eq, List.countP_eq_length_filter]
  refine ⟨⟨chains, hrerolls, hlength, hrerolls.ends, hvalue⟩, ?_⟩
  rintro rfl
  have hmeets : ∀ d ∈ r.value.dice, d.meets condition = false := by
    intro d hd
    rw [show r.value = _ from hvalue] at hd
    rcases List.mem_append.1 hd with hd | hd
    · obtain ⟨old, -, rfl⟩ := List.mem_map.1 hd
      exact Die.not_meets_replaced condition old
    · obtain ⟨ch, hch, hd⟩ := List.mem_flatMap.1 hd
      exact Die.not_meets_of_mem_chain (hrerolls.ends ch hch) d hd
  refine ⟨fun d hd hkept => ?_, fun c' => ?_⟩
  · simpa [Die.meets, hkept] using hmeets d hd
  · exact modify_reroll_of_not_meets (by simpa using hmeets) .recursive c'

/-- Of four dice that show a one, one is out of play. The others are replaced by a five, by a one and a
three, and by a six. -/
theorem fourOnes_reroll_chains :
    let one : Die := .fresh 0 1 .initial
    let p : Pool := ⟨0, .usual, [one, one.drop, one, .fresh 0 4 .initial, one], none⟩
    let c : Context Playback := .start .usual (.ofList [5, 1, 3, 6])
    let r := p.modify (.reroll .recursive (.equalTo 1)) c
    r.failure = none ∧
      r.value.dice = [one.replace, one.drop, one.replace, .fresh 0 4 .initial, one.replace,
        .fresh 0 5 .reroll, (Die.fresh 0 1 .reroll).replace, .fresh 0 3 .reroll,
        .fresh 0 6 .reroll] ∧
      ∀ c' : Context Playback,
        r.value.modify (.reroll .recursive (.equalTo 1)) c' = ⟨r.value, none, c'⟩ := by
  intro one p c r
  have hok : r.failure = none := by decide
  exact ⟨hok, by decide, fun c' => ((modify_reroll_chains hok).2 rfl).2 c'⟩

end Pool

end DiceNotation
