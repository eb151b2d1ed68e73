import DiceNotation.Proofs.Courses
import DiceNotation.Proofs.Rolls.Growth

/-!
# Rerolls by position

A reroll can be carried out in steps that each roll one die: the die at hand is looked up by its position
and taken out of play, the new die goes to the end, and if it has to be rerolled in its turn it is the next
one at hand. A look-up beyond the end has no result. The steps always come to an end, and to one only, which is
that of the sweep over the dice.
-/

namespace DiceNotation

variable {ρ : Type}

/-- How far a reroll has come. -/
structure Rerolling (ρ : Type) where
  /-- The positions of the dice still to be rerolled, the one at hand first. -/
  targets : List Nat
  /-- How often the die at hand has been rerolled so far. -/
  rerolls : Nat
  dice : List Die
  context : Context ρ

namespace Rerolling

/-- The positions of the dice that meet the condition, where the first die has the given one. -/
def meeting (condition : Condition) (first : Nat) (dice : List Die) : List Nat :=
  ((dice.zipIdx first).filter (·.1.meets condition)).map (·.2)

theorem meeting_of_meets {condition : Condition} {d : Die} (h : d.meets condition = true)
    (first : Nat) (rest : List Die) :
    meeting condition first (d :: rest) = first :: meeting condition (first + 1) rest := by
  simp [meeting, List.zipIdx_cons, h]

theorem meeting_of_not_meets {condition : Condition} {d : Die} (h : d.meets condition = false)
    (first : Nat) (rest : List Die) :
    meeting condition first (d :: rest) = meeting condition (first + 1) rest := by
  simp [meeting, List.zipIdx_cons, h]

def start (condition : Condition) (dice : List Die) (c : Context ρ) : Rerolling ρ :=
  ⟨meeting condition 0 dice, 0, dice, c⟩

variable [Roller ρ]

/-- Rerolls the die at hand once, and goes on with the new die or with the next target. -/
def step (k : DieKind) (repeats : Repeats) (condition : Condition) (limit : Nat) (s : Rerolling ρ) :
    Option (Rerolling ρ ⊕ Run ρ (List Die)) :=
  match s.targets with
  | [] => some (.inr ⟨s.dice, none, s.context⟩)
  | i :: rest =>
    match s.dice[i]? with
    | none => none
    | some d =>
      let new := k.roll .reroll s.context
      let dice := s.dice.set i d.replace ++ new.value
      match new.failure with
      | some e => some (.inr ⟨dice, some e, new.context⟩)
      | none =>
        match dice[s.dice.length]? with
        | none => none
        | some last =>
          if repeats = .recursive ∧ condition.holds last.value = true then
            if limit ≤ s.rerolls + 1 then
              some (.inr ⟨dice, some (.rerollLoopExceeded limit), new.context⟩)
            else some (.inl ⟨s.dice.length :: rest, s.rerolls + 1, dice, new.context⟩)
          else some (.inl ⟨rest, 0, dice, new.context⟩)

section Step

variable {k : DieKind} {repeats : Repeats} {condition : Condition} {limit i rerolls : Nat}
  {rest : List Nat} {dice : List Die} {d : Die} {c after : Context ρ}

theorem step_of_error {e : RollError} (hd : dice[i]? = some d)
    (hroll : c.rollOne k.sides = (.error e, after)) :
    step k repeats condition limit ⟨i :: rest, rerolls, dice, c⟩ =
      some (.inr ⟨dice.set i d.replace, some e, after⟩) := by
  simp [step, hd, DieKind.roll, hroll]

theorem step_of_ok {face : Int} (hd : dice[i]? = some d)
    (hroll : c.rollOne k.sides = (.ok face, after)) :
    step k repeats condition limit ⟨i :: rest, rerolls, dice, c⟩ =
      let dice' := dice.set i d.replace ++ [.fresh k.group face .reroll]
      if repeats = .recursive ∧ condition.holds face = true then
        if limit ≤ rerolls + 1 then
          some (.inr ⟨dice', some (.rerollLoopExceeded limit), after⟩)
        else some (.inl ⟨dice.length :: rest, rerolls + 1, dice', after⟩)
      else some (.inl ⟨rest, 0, dice', after⟩) := by
  have hlast : (dice.set i d.replace ++ [Die.fresh k.group face .reroll])[dice.length]? =
      some (.fresh k.group face .reroll) := by simp
  simp only [step, hd, DieKind.roll, hroll, hlast]
  rfl

end Step

section Chain

variable (k : DieKind) (condition : Condition) (limit : Nat) {r : Run ρ (List Die)}

/-- Rerolling one die until it settles is one chain of rerolls. With the die at hand replaced, the dice
are those from before the chain and those the chain has rolled so far. -/
theorem ends_chain (rest : List Nat) (before rolled : List Die) (left : Nat) (c : Context ρ)
    (hrest :
      let chain := k.rerollFrom condition limit rolled left c
      match chain.failure with
      | some e => r = ⟨before ++ chain.value, some e, chain.context⟩
      | none =>
        Course.Ends (step k .recursive condition limit)
          ⟨rest, 0, before ++ chain.value, chain.context⟩ r) :
    ∀ (rerolls i : Nat) (dice : List Die) (d : Die), dice[i]? = some d →
      dice.set i d.replace = before ++ rolled.reverse → left = limit - 1 - rerolls →
        Course.Ends (step k .recursive condition limit) ⟨i :: rest, rerolls, dice, c⟩ r := by
  fun_induction DieKind.rerollFrom k condition limit rolled left c with
  | case1 rolled left c e after hroll =>
    intro rerolls i dice d hd hreplaced hleft
    rw [hrest, ← hreplaced]
    exact .stop (step_of_error hd hroll)
  | case2 rolled c face after hroll die hface =>
    intro rerolls i dice d hd hreplaced hleft
    refine .stop ?_
    rw [step_of_ok hd hroll, if_pos ⟨rfl, hface⟩, if_pos (by omega), hrest, hreplaced]
    simp [die]
  | case3 rolled c face after hroll die hface left ih =>
    intro rerolls i dice d hd hreplaced hleft
    have hstep : step k .recursive condition limit ⟨i :: rest, rerolls, dice, c⟩ =
        some (.inl ⟨dice.length :: rest, rerolls + 1, dice.set i d.replace ++ [die], after⟩) := by
      rw [step_of_ok hd hroll, if_pos ⟨rfl, hface⟩, if_neg (by omega)]
    refine .next hstep (ih hrest (rerolls + 1) dice.length _ die (by simp) ?_ (by omega))
    · rw [List.set_append_right _ _ (by simp), List.reverse_cons, ← List.append_assoc, ← hreplaced]
      simp
  | case4 rolled left c face after hroll die hface =>
    intro rerolls i dice d hd hreplaced hleft
    refine .next ?_ hrest
    rw [step_of_ok hd hroll, if_neg fun h => hface h.2, hreplaced]
    simp [die]

/-- Rerolling one die, however often, is what takes its place. -/
theorem ends_reroll (repeats : Repeats) (rest : List Nat) {i : Nat} {dice : List Die} {d : Die}
    {c : Context ρ} (hd : dice[i]? = some d) (hc : c.limits.maxIterations = limit)
    (hrest :
      let new := k.reroll repeats condition c
      let dice' := dice.set i d.replace ++ new.value
      match new.failure with
      | some e => r = ⟨dice', some e, new.context⟩
      | none => Course.Ends (step k repeats condition limit) ⟨rest, 0, dice', new.context⟩ r) :
    Course.Ends (step k repeats condition limit) ⟨i :: rest, 0, dice, c⟩ r := by
  cases repeats with
  | once =>
    simp only [DieKind.reroll, DieKind.roll] at hrest
    cases hroll : c.rollOne k.sides with
    | mk answer after =>
      rw [hroll] at hrest
      cases answer with
      | error e =>
        simp only [List.append_nil] at hrest
        rw [hrest]
        exact .stop (step_of_error hd hroll)
      | ok face =>
        refine .next ?_ hrest
        rw [step_of_ok hd hroll, if_neg (by simp)]
  | recursive =>
    simp only [DieKind.reroll, hc] at hrest
    exact ends_chain k condition limit rest (dice.set i d.replace) [] (limit - 1) c hrest 0 i dice d
      hd (List.append_nil _).symm rfl

/-- From some die on the steps do what a sweep over the dice from there on does. -/
theorem ends_sweep (repeats : Repeats) (front rest rolled : List Die) {c : Context ρ}
    (hc : c.limits.maxIterations = limit) :
    let s := Sweep.run (·.meets condition) Die.replace (k.reroll repeats condition) rest c
    Course.Ends (step k repeats condition limit)
      ⟨meeting condition front.length rest, 0, front ++ rest ++ rolled, c⟩
      ⟨front ++ s.value.passed ++ (rolled ++ s.value.rolled), s.failure, s.context⟩ := by
  intro s
  -- Each die gone through moves to the front, so that its length is the position of the next one.
  induction rest generalizing front rolled c with
  | nil =>
    refine .stop ?_
    simp [meeting, step, s, Sweep.run_nil]
  | cons d rest ih =>
    cases hmeets : d.meets condition with
    | false =>
      have hrest := ih (front ++ [d]) rolled hc
      simp only [s, meeting_of_not_meets hmeets, Sweep.run_cons_of_not_fires rest hmeets c]
      simpa [Run.map] using hrest
    | true =>
      rw [meeting_of_meets hmeets]
      refine ends_reroll k condition limit repeats _ (d := d) (by simp) hc ?_
      cases hnew : (k.reroll repeats condition c).failure with
      | some e => simp [s, hnew, Sweep.run_cons_of_failure rest hmeets hnew]
      | none =>
        have hlimits : (k.reroll repeats condition c).context.limits.maxIterations = limit :=
          (congrArg Limits.maxIterations (k.reroll_limits repeats condition c)).trans hc
        have hrest := ih (front ++ [d.replace]) (rolled ++ (k.reroll repeats condition c).value) hlimits
        simp only [s, hnew, Sweep.run_cons_of_answer rest hmeets hnew]
        simpa [Run.map] using hrest

end Chain

/-- The steps come to the end of the sweep over all dice. -/
theorem ends_start (k : DieKind) (repeats : Repeats) (condition : Condition) (dice : List Die)
    (c : Context ρ) :
    let s := Sweep.run (·.meets condition) Die.replace (k.reroll repeats condition) dice c
    Course.Ends (step k repeats condition c.limits.maxIterations) (start condition dice c)
      ⟨s.value.dice, s.failure, s.context⟩ := by
  have hsweep := ends_sweep k condition c.limits.maxIterations repeats [] dice [] rfl
  simpa [start, Sweep.dice] using hsweep

/-- They come to no other end. -/
theorem ends_start_iff (k : DieKind) (repeats : Repeats) (condition : Condition) (dice : List Die)
    (c : Context ρ) (r : Run ρ (List Die)) :
    let s := Sweep.run (·.meets condition) Die.replace (k.reroll repeats condition) dice c
    Course.Ends (step k repeats condition c.limits.maxIterations) (start condition dice c) r ↔
      r = ⟨s.value.dice, s.failure, s.context⟩ := by
  intro s
  have hends := ends_start k repeats condition dice c
  exact ⟨fun h => h.unique hends, fun h => h ▸ hends⟩

/-- No step of a reroll loses a die. -/
theorem length_le_of_step {k : DieKind} {repeats : Repeats} {condition : Condition} {limit : Nat}
    {s : Rerolling ρ} {next : Rerolling ρ ⊕ Run ρ (List Die)}
    (h : step k repeats condition limit s = some next) :
    s.dice.length ≤ next.elim (·.dice.length) (·.value.length) := by
  obtain ⟨targets, rerolls, dice, c⟩ := s
  cases targets with
  | nil =>
    cases h
    exact Nat.le_refl _
  | cons i rest =>
    cases hd : dice[i]? with
    | none => simp [step, hd] at h
    | some d =>
      cases hroll : c.rollOne k.sides with
      | mk answer after =>
        cases answer with
        | error e =>
          rw [step_of_error hd hroll] at h
          cases h
          simp
        | ok face =>
          rw [step_of_ok hd hroll] at h
          dsimp only at h
          split at h
          · split at h
            · cases h
              simp
            · cases h
              simp
          · cases h
            simp

end Rerolling

end DiceNotation
