import DiceNotation.Evaluation
import DiceNotation.Proofs.Explosions.Scan
import DiceNotation.Proofs.Rerolls.Loop

/-!
# A group step by step

The evaluation of a group can be carried out in steps, each of which rolls at most one die: first the
dice of the group one after another, then each modifier, rerolls and explosions by position. The steps
come to an end, which is that of the evaluation, and on the way the group never holds more dice than the
limit on iterations and the number of modifiers allow. Neither needs a cap on rolls or depends on what the
roller answers.
-/

namespace DiceNotation

variable {ρ : Type}

theorem Scan.length_le_of_step [Roller ρ] {k : DieKind} {repeats : Repeats} {condition : Condition}
    {limit initial : Nat} {s : Scan ρ} {next : Scan ρ ⊕ Run ρ (List Die)}
    (h : s.step k repeats condition limit initial = some next) :
    s.dice.length ≤ next.elim (·.dice.length) (·.value.length) := by
  -- A die that ignites keeps its place, and what it rolls goes to the end.
  unfold Scan.step at h
  split at h
  · cases h
    exact Nat.le_refl _
  · split at h
    · cases h
    · split at h
      · split at h
        · cases h
        · split at h
          · cases h
            exact Nat.le_refl _
          · dsimp only at h
            split at h
            · cases h
              simp
            · cases h
              simp
      · cases h
        exact Nat.le_refl _

/-- A modifier that rolls dice in a loop, with the limit and the pool it began with and the modifiers that
come after it. -/
structure Ongoing where
  repeats : Repeats
  condition : Condition
  limit : Nat
  pool : Pool
  rest : List Modifier

/-- Where the evaluation of a group stands. -/
inductive Moment (ρ : Type) where
  | opening (c : Context ρ)
  /-- So many of the first dice are still to be rolled. -/
  | rolling (left : Nat) (p : Pool) (c : Context ρ)
  | modifying (modifiers : List Modifier) (p : Pool) (c : Context ρ)
  | rerolling (m : Ongoing) (loop : Rerolling ρ)
  | exploding (m : Ongoing) (scan : Scan ρ)

/-- The end of a loop is the end of the evaluation if it fails, and otherwise the next modifier follows. -/
def Ongoing.resume {σ : Type} (m : Ongoing) (wrap : σ → Moment ρ) :
    σ ⊕ Run ρ (List Die) → Moment ρ ⊕ Run ρ Pool
  | .inl s => .inl (wrap s)
  | .inr r =>
    match r.failure with
    | some _ => .inr ⟨{ m.pool with dice := r.value }, r.failure, r.context⟩
    | none => .inl (.modifying m.rest { m.pool with dice := r.value } r.context)

namespace Moment

/-- The dice that the group holds. -/
def dice : Moment ρ → List Die
  | opening _ => []
  | rolling _ p _ | modifying _ p _ => p.dice
  | rerolling _ loop => loop.dice
  | exploding _ scan => scan.dice

variable [Roller ρ]

/-- Carries out one modifier that does not roll dice, or begins one that does. -/
def begin (m : Modifier) (rest : List Modifier) (p : Pool) (c : Context ρ) : Moment ρ :=
  match m with
  | .select s => .modifying rest (p.select s) c
  | .clamp bound => .modifying rest (p.clamp bound) c
  | .countSuccesses condition => .modifying rest (p.countSuccesses condition) c
  | .reroll repeats condition =>
    .rerolling ⟨repeats, condition, c.limits.maxIterations, p, rest⟩ (.start condition p.dice c)
  | .explode repeats condition =>
    .exploding ⟨repeats, condition, c.limits.maxIterations, p, rest⟩ (.start p.dice c)

/-- One step of the evaluation of a group. -/
def step (g : DiceGroup) : Moment ρ → Option (Moment ρ ⊕ Run ρ Pool)
  | opening c =>
    let begun := { c with groups := c.groups + 1 }
    let p : Pool := ⟨c.groups, g.sides, [], none⟩
    match begun.refusal? g.count.toNat with
    | some e => some (.inr ⟨p, some e, begun⟩)
    | none => some (.inl (.rolling g.count.toNat p begun))
  | rolling 0 p c => some (.inl (.modifying g.modifiers p c))
  | rolling (left + 1) p c =>
    let r := p.rollAnother .initial c
    match r.failure with
    | some _ => some (.inr r)
    | none => some (.inl (.rolling left r.value r.context))
  | modifying [] p c => some (.inr ⟨p, none, c⟩)
  | modifying (m :: rest) p c => some (.inl (begin m rest p c))
  | rerolling m loop =>
    (loop.step m.pool.kind m.repeats m.condition m.limit).map (m.resume (.rerolling m))
  | exploding m scan =>
    (scan.step m.pool.kind m.repeats m.condition m.limit m.pool.dice.length).map
      (m.resume (.exploding m))

variable {g : DiceGroup}

/-! ## No die is lost on the way -/

omit [Roller ρ] in
theorem length_le_of_resume {σ : Type} {m : Ongoing} {wrap : σ → Moment ρ} {n : Nat}
    {size : σ → Nat} (hwrap : ∀ s, (wrap s).dice.length = size s) {reached : σ ⊕ Run ρ (List Die)}
    (h : n ≤ reached.elim size (·.value.length)) :
    n ≤ (m.resume wrap reached).elim (·.dice.length) (·.value.dice.length) := by
  cases reached with
  | inl s => exact h.trans (hwrap s).ge
  | inr r =>
    rw [Ongoing.resume]
    split
    · exact h
    · exact h

omit [Roller ρ] in
theorem length_begin (m : Modifier) (rest : List Modifier) (p : Pool) (c : Context ρ) :
    (begin m rest p c).dice.length = p.dice.length := by
  cases m with
  | select s => exact Pool.length_dropAt _ p.dice
  | clamp bound => exact List.length_map _
  | countSuccesses | reroll | explode => rfl

theorem length_le_of_step {m : Moment ρ} {next : Moment ρ ⊕ Run ρ Pool} (h : m.step g = some next) :
    m.dice.length ≤ next.elim (·.dice.length) (·.value.dice.length) := by
  cases m with
  | opening c => exact Nat.zero_le _
  | rolling left p c =>
    cases left with
    | zero =>
      cases h
      exact Nat.le_refl _
    | succ left =>
      have hgrown : p.dice.length ≤ (p.rollAnother .initial c).value.dice.length := by
        simp [Pool.rollAnother]
      rw [step] at h
      split at h
      · cases h
        exact hgrown
      · cases h
        exact hgrown
  | modifying modifiers p c =>
    cases modifiers with
    | nil =>
      cases h
      exact Nat.le_refl _
    | cons m rest =>
      cases h
      exact (length_begin m rest p c).ge
  | rerolling m loop =>
    obtain ⟨reached, hstep, rfl⟩ := Option.map_eq_some_iff.1 h
    exact length_le_of_resume (fun _ => rfl) (Rerolling.length_le_of_step hstep)
  | exploding m scan =>
    obtain ⟨reached, hstep, rfl⟩ := Option.map_eq_some_iff.1 h
    exact length_le_of_resume (fun _ => rfl) (Scan.length_le_of_step hstep)

/-! ## The end of the steps -/

/-- The steps of a loop are steps of the evaluation, up to what follows the end of the loop. -/
theorem ends_loop {σ : Type} {loop : σ → Option (σ ⊕ Run ρ (List Die))} {m : Ongoing}
    {wrap : σ → Moment ρ} (hwrap : ∀ s, (wrap s).step g = (loop s).map (m.resume wrap)) {s : σ}
    {r : Run ρ (List Die)} {last : Run ρ Pool} (h : Course.Ends loop s r)
    (hlast :
      match r.failure with
      | some _ => last = ⟨{ m.pool with dice := r.value }, r.failure, r.context⟩
      | none =>
        Course.Ends (step g) (.modifying m.rest { m.pool with dice := r.value } r.context) last) :
    Course.Ends (step g) (wrap s) last := by
  obtain ⟨states, hcourse⟩ := h
  induction hcourse with
  | @stop s r hstep =>
    have hresume : (wrap s).step g = some (m.resume wrap (.inr r)) := by rw [hwrap, hstep]; rfl
    rw [Ongoing.resume] at hresume
    split at hlast
    · next e hr =>
      rw [hlast]
      exact .stop (by rw [hresume, hr])
    · next hr => exact .next (by rw [hresume, hr]) hlast
  | next hstep _ ih => exact .next (by rw [hwrap, hstep]; rfl) (ih hlast)

/-- The steps of one modifier end where carrying it out ends, and if it succeeds the rest follows. -/
theorem ends_begin (m : Modifier) (rest : List Modifier) (p : Pool) (c : Context ρ)
    {last : Run ρ Pool}
    (hlast :
      match (p.modify m c).failure with
      | some _ => last = p.modify m c
      | none =>
        Course.Ends (step g) (.modifying rest (p.modify m c).value (p.modify m c).context) last) :
    Course.Ends (step g) (begin m rest p c) last := by
  cases m with
  | select | clamp | countSuccesses => exact hlast
  | reroll repeats condition =>
    let m : Ongoing := ⟨repeats, condition, c.limits.maxIterations, p, rest⟩
    have hstep : ∀ loop : Rerolling ρ, (rerolling m loop).step g =
        (loop.step p.kind repeats condition c.limits.maxIterations).map (m.resume (.rerolling m)) :=
      fun _ => rfl
    exact ends_loop hstep (Rerolling.ends_start p.kind repeats condition p.dice c) hlast
  | explode repeats condition =>
    let m : Ongoing := ⟨repeats, condition, c.limits.maxIterations, p, rest⟩
    have hstep : ∀ scan : Scan ρ, (exploding m scan).step g =
        (scan.step p.kind repeats condition c.limits.maxIterations p.dice.length).map
          (m.resume (.exploding m)) := fun _ => rfl
    exact ends_loop hstep ((Scan.endsIn_start_iff p.dice c _).2 rfl).ends hlast

theorem ends_modifying (modifiers : List Modifier) (p : Pool) (c : Context ρ) :
    Course.Ends (step g) (.modifying modifiers p c) (p.modifyAll modifiers c) := by
  fun_induction Pool.modifyAll modifiers p c with
  | case1 p c => exact .stop rfl
  | case2 m rest p c r e hr =>
    have hfailure : (p.modify m c).failure = some e := hr
    exact .next rfl (ends_begin m rest p c (by rw [hfailure]))
  | case3 m rest p c r hr ih =>
    have hok : (p.modify m c).failure = none := hr
    exact .next rfl (ends_begin m rest p c (by rw [hok]; exact ih))

/-- The first dice are rolled one after another, and then the modifiers follow. -/
theorem ends_rolling (left : Nat) (p : Pool) (c : Context ρ) {r : Run ρ (List Die)}
    (hr : p.kind.rollFrom p.dice.reverse left c = r) :
    Course.Ends (step g) (.rolling left p c)
      (match r.failure with
      | some e => ⟨{ p with dice := r.value }, some e, r.context⟩
      | none => ({ p with dice := r.value } : Pool).modifyAll g.modifiers r.context) := by
  induction left generalizing p c with
  | zero =>
    rw [DieKind.rollFrom, List.reverse_reverse] at hr
    subst hr
    exact .next rfl (ends_modifying g.modifiers p c)
  | succ left ih =>
    rw [DieKind.rollFrom] at hr
    cases hroll : c.rollOne p.kind.sides with
    | mk answer after =>
      rw [hroll] at hr
      cases answer with
      | error e =>
        subst hr
        refine .stop ?_
        simp [step, Pool.rollAnother, DieKind.roll, hroll]
      | ok face =>
        let grown : Pool := { p with dice := p.dice ++ [.fresh p.kind.group face .initial] }
        have hgrown : grown.dice.reverse = .fresh p.kind.group face .initial :: p.dice.reverse := by
          simp [grown]
        have hstep : (rolling (left + 1) p c).step g = some (.inl (.rolling left grown after)) := by
          simp [step, Pool.rollAnother, DieKind.roll, hroll, grown]
        refine .next hstep (ih grown after ?_)
        rw [hgrown]
        exact hr

end Moment

namespace DiceGroup

/-- What the evaluation of a group makes of its dice once nothing is left to be rolled. -/
def conclude (last : Run ρ Pool) : Except RollError Evaluated × Context ρ :=
  match last.failure with
  | some e => (.error e, last.context)
  | none =>
    let pool := last.value.markSuccesses
    match pool.subtotal with
    | .error e => (.error (.ofArithmetic e), last.context)
    | .ok value => (.ok ⟨value, pool.dice⟩, last.context)

variable [Roller ρ]

/-- The steps of a group end with dice that the evaluation concludes from. -/
theorem exists_ends (g : DiceGroup) (c : Context ρ) :
    ∃ last : Run ρ Pool,
      Course.Ends (Moment.step g) (.opening c) last ∧ g.roll c = conclude last ∧
        last.value.dice.length ≤
          g.count.toNat * (1 + max 1 c.limits.maxIterations) ^ g.modifiers.length := by
  let begun : Context ρ := { c with groups := c.groups + 1 }
  let p : Pool := ⟨c.groups, g.sides, [], none⟩
  -- The group is refused, or one of its first dice fails, or its modifiers are carried out.
  cases hroom : begun.refusal? g.count.toNat with
  | some e =>
    refine ⟨⟨p, some e, begun⟩, .stop ?_, ?_, Nat.zero_le _⟩
    · rw [Moment.step, hroom]
    · rw [roll, Pool.roll, hroom]
      rfl
  | none =>
    have hfirst := p.kind.length_rollFrom_le [] g.count.toNat begun
    have hlimits := p.kind.rollFrom_limits [] g.count.toNat begun
    have hopen : (Moment.opening c).step g = some (.inl (.rolling g.count.toNat p begun)) := by
      rw [Moment.step, hroom]
    cases hr : p.kind.rollFrom [] g.count.toNat begun with
    | mk dice failure after =>
      rw [hr] at hfirst hlimits
      rw [List.length_nil, Nat.zero_add] at hfirst
      refine ⟨_, .next hopen (Moment.ends_rolling g.count.toNat p begun hr), ?_, ?_⟩
      · rw [roll, Pool.roll, hroom, show DieKind.mk c.groups g.sides = p.kind from rfl, hr]
        cases failure with
        | some e => rfl
        | none => rfl
      · cases failure with
        | some e => exact hfirst.trans (Nat.le_mul_of_pos_right _ (Nat.pow_pos (by omega)))
        | none =>
          have hgrown := ({ p with dice } : Pool).length_modifyAll_le g.modifiers after
          rw [hlimits] at hgrown
          exact hgrown.trans (Nat.mul_le_mul_right _ hfirst)

/-- The evaluation of a group comes to an end step by step, whatever the limits are and the roller answers,
and on the way the group never holds more dice than its modifiers can make of those rolled first. That
holds as well of the dice left behind when the evaluation fails. -/
theorem exists_course (g : DiceGroup) (c : Context ρ) :
    let most := g.count.toNat * (1 + max 1 c.limits.maxIterations) ^ g.modifiers.length
    ∃ (moments : List (Moment ρ)) (last : Run ρ Pool),
      Course (Moment.step g) (.opening c) moments last ∧ g.roll c = conclude last ∧
        (∀ m ∈ moments, m.dice.length ≤ most) ∧ last.value.dice.length ≤ most := by
  intro most
  obtain ⟨last, ⟨moments, hcourse⟩, hroll, hmost⟩ := g.exists_ends c
  have hall := hcourse.size_le (·.dice.length) (·.value.dice.length)
    (fun _ _ => Moment.length_le_of_step) fun _ _ => Moment.length_le_of_step
  exact ⟨moments, last, hcourse, hroll, fun m hm => (hall m hm).trans hmost, hmost⟩

end DiceGroup

end DiceNotation
