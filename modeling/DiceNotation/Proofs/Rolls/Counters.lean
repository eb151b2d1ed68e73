import DiceNotation.Proofs.RaisedLimits.Rolling

/-!
# Where the counters stand

A context counts its rolls and its groups. Without a cap nothing asks for the number of rolls, and the number
of groups is only written on the dice, so an evaluation that starts further on goes the same way: it asks the
roller the same questions and fails where the other one fails. Only the groups of its dice are further on.
-/

namespace DiceNotation

variable {α ρ : Type}

/-- The same die in a group that is so many further on. -/
def Die.offset (n : Nat) (d : Die) : Die := { d with group := n + d.group }

namespace Die

@[simp] theorem isKept_offset (n : Nat) (d : Die) : (d.offset n).isKept = d.isKept := rfl

@[simp] theorem worth_offset (n : Nat) (d : Die) : (d.offset n).worth = d.worth := rfl

@[simp] theorem meets_offset (n : Nat) (condition : Condition) (d : Die) :
    (d.offset n).meets condition = d.meets condition := rfl

@[simp] theorem ignites_offset (n : Nat) (condition : Condition) (d : Die) :
    (d.offset n).ignites condition = d.ignites condition := rfl

end Die

def DieKind.offset (n : Nat) (k : DieKind) : DieKind := { k with group := n + k.group }

def Sweep.offset (n : Nat) (s : Sweep) : Sweep := ⟨s.passed.map (Die.offset n), s.rolled.map (Die.offset n)⟩

def Pool.offset (n : Nat) (p : Pool) : Pool :=
  { p with index := n + p.index, dice := p.dice.map (Die.offset n) }

def Evaluated.offset (n : Nat) (v : Evaluated) : Evaluated := { v with trace := v.trace.map (Die.offset n) }

namespace Context

/-- Nothing bounds the number of rolls. -/
def Uncapped (c : Context ρ) : Prop := c.limits.maxRolls = none

/-- The same context after so many more rolls and groups. -/
def advance (m n : Nat) (c : Context ρ) : Context ρ := { c with rolls := m + c.rolls, groups := n + c.groups }

theorem refusal?_advance {c : Context ρ} (hc : c.Uncapped) (m n count : Nat) :
    (c.advance m n).refusal? count = none :=
  refusal?_of_uncapped (c := c.advance m n) hc count

end Context

/-- The second run is the first one with its counters further on, and `u` says what that does to its value. -/
structure Run.Advances (m n : Nat) (u : α → α) (r r' : Run ρ α) : Prop where
  uncapped : r.context.Uncapped
  eq : r' = ⟨u r.value, r.failure, r.context.advance m n⟩

/-- The same for answers, which have a value only if they do not fail. -/
structure AnswerAdvances (m n : Nat) (u : α → α) (r r' : Except RollError α × Context ρ) : Prop where
  uncapped : r.2.Uncapped
  eq : r' = (r.1.map u, r.2.advance m n)

variable [Roller ρ] {c : Context ρ} (m n : Nat)

namespace DieKind

variable {k : DieKind}

/-- A die is rolled alike wherever the counters stand. -/
theorem rollOne_advance {after : Context ρ} {answer : Except RollError Int} (hc : c.Uncapped)
    (h : c.rollOne k.sides = (answer, after)) :
    after.Uncapped ∧ (c.advance m n).rollOne (k.offset n).sides = (answer, after.advance m n) := by
  rw [Context.rollOne, Context.refusal?_of_uncapped hc] at h
  rw [Context.rollOne, Context.refusal?_advance hc]
  cases h
  exact ⟨hc, rfl⟩

theorem roll_advance (source : Source) (hc : c.Uncapped) :
    (k.roll source c).Advances m n (List.map (Die.offset n))
      ((k.offset n).roll source (c.advance m n)) := by
  cases hroll : c.rollOne k.sides with
  | mk answer after =>
    obtain ⟨hafter, hroll'⟩ := rollOne_advance m n hc hroll
    simp only [roll, hroll, hroll']
    cases answer with
    | ok face => exact ⟨hafter, rfl⟩
    | error e => exact ⟨hafter, rfl⟩

theorem rollFrom_advance (rolled : List Die) (count : Nat) (hc : c.Uncapped) :
    (k.rollFrom rolled count c).Advances m n (List.map (Die.offset n))
      ((k.offset n).rollFrom (rolled.map (Die.offset n)) count (c.advance m n)) := by
  fun_induction rollFrom k rolled count c with
  | case1 rolled c => exact ⟨hc, by rw [rollFrom, List.map_reverse]⟩
  | case2 rolled count c face after hroll ih =>
    obtain ⟨hafter, hroll'⟩ := rollOne_advance m n hc hroll
    rw [rollFrom, hroll']
    exact ih hafter
  | case3 rolled count c e after hroll =>
    obtain ⟨hafter, hroll'⟩ := rollOne_advance m n hc hroll
    refine ⟨hafter, ?_⟩
    rw [rollFrom, hroll', List.map_reverse]

theorem rerollFrom_of_error {condition : Condition} (limit : Nat) (rolled : List Die) (left : Nat)
    {e : RollError} {after : Context ρ} (hroll : c.rollOne k.sides = (.error e, after)) :
    k.rerollFrom condition limit rolled left c = ⟨rolled.reverse, some e, after⟩ := by
  unfold rerollFrom
  simp only [hroll]

theorem rerollFrom_advance (condition : Condition) (limit : Nat) (rolled : List Die) (left : Nat)
    (hc : c.Uncapped) :
    (k.rerollFrom condition limit rolled left c).Advances m n (List.map (Die.offset n))
      ((k.offset n).rerollFrom condition limit (rolled.map (Die.offset n)) left (c.advance m n)) := by
  fun_induction rerollFrom k condition limit rolled left c with
  | case1 rolled left c e after hroll =>
    obtain ⟨hafter, hroll'⟩ := rollOne_advance m n hc hroll
    refine ⟨hafter, ?_⟩
    rw [rerollFrom_of_error limit _ left hroll', List.map_reverse]
  | case2 rolled c face after hroll die hface =>
    obtain ⟨hafter, hroll'⟩ := rollOne_advance m n hc hroll
    refine ⟨hafter, ?_⟩
    rw [rerollFrom]
    simp only [hroll', if_pos hface, List.map_reverse]
    rfl
  | case3 rolled c face after hroll die hface left ih =>
    obtain ⟨hafter, hroll'⟩ := rollOne_advance m n hc hroll
    rw [rerollFrom_of_holds limit _ left hroll' hface]
    exact ih hafter
  | case4 rolled left c face after hroll die hface =>
    obtain ⟨hafter, hroll'⟩ := rollOne_advance m n hc hroll
    refine ⟨hafter, ?_⟩
    rw [rerollFrom_of_not_holds limit _ left hroll' hface, List.map_reverse]
    rfl

theorem reroll_advance (repeats : Repeats) (condition : Condition) (hc : c.Uncapped) :
    (k.reroll repeats condition c).Advances m n (List.map (Die.offset n))
      ((k.offset n).reroll repeats condition (c.advance m n)) := by
  cases repeats with
  | once => exact roll_advance m n .reroll hc
  | recursive => exact rerollFrom_advance m n condition _ [] _ hc

end DieKind

namespace Sweep

variable {fires : Die → Bool} {mark : Die → Die} {answer answer' : Context ρ → Run ρ (List Die)}

theorem dice_offset (s : Sweep) : (s.offset n).dice = s.dice.map (Die.offset n) := by
  rw [dice, dice, List.map_append]
  rfl

omit [Roller ρ] in
/-- A sweep that looks at no groups goes alike through dice of groups further on. -/
theorem runFrom_advance (hfires : ∀ d : Die, fires (d.offset n) = fires d)
    (hmark : ∀ d : Die, mark (d.offset n) = (mark d).offset n)
    (hanswer : ∀ c : Context ρ, c.Uncapped →
      (answer c).Advances m n (List.map (Die.offset n)) (answer' (c.advance m n)))
    (passed rolled dice : List Die) (hc : c.Uncapped) :
    (runFrom fires mark answer passed rolled dice c).Advances m n (Sweep.offset n)
      (runFrom fires mark answer' (passed.map (Die.offset n)) (rolled.map (Die.offset n))
        (dice.map (Die.offset n)) (c.advance m n)) := by
  fun_induction runFrom fires mark answer passed rolled dice c with
  | case1 passed rolled c =>
    refine ⟨hc, ?_⟩
    rw [List.map_nil, runFrom, offset, List.map_reverse, List.map_reverse]
  | case2 passed rolled d rest c hd new e hnew =>
    obtain ⟨hafter, hnew'⟩ := hanswer c hc
    have hfailure : (answer c).failure = some e := hnew
    refine ⟨hafter, ?_⟩
    rw [List.map_cons, runFrom, if_pos ((hfires d).trans hd)]
    simp only [hnew', hfailure, hmark, offset, List.map_reverseAux, List.map_cons]
    rfl
  | case3 passed rolled d rest c hd new hnew ih =>
    obtain ⟨hafter, hnew'⟩ := hanswer c hc
    have hok : (answer' (c.advance m n)).failure = none := by
      rw [hnew']
      exact hnew
    have hnext := ih hafter
    rw [List.map_cons, runFrom_of_fires _ _ _ ((hfires d).trans hd) hok, hnew', hmark]
    rw [List.map_reverseAux] at hnext
    exact hnext
  | case4 passed rolled d rest c hd ih =>
    rw [List.map_cons, runFrom, if_neg (by rwa [hfires])]
    exact ih hc

end Sweep

namespace Explosion

variable {k : DieKind} {condition : Condition}

theorem sweep_advance (wave : List Die) (hc : c.Uncapped) :
    (sweep k condition wave c).Advances m n (Sweep.offset n)
      (sweep (k.offset n) condition (wave.map (Die.offset n)) (c.advance m n)) := by
  have hmark (d : Die) : (d.offset n).explode = d.explode.offset n := rfl
  have hanswer (c : Context ρ) (hc : c.Uncapped) : (k.roll .explosion c).Advances m n
      (List.map (Die.offset n)) ((k.offset n).roll .explosion (c.advance m n)) :=
    DieKind.roll_advance m n .explosion hc
  exact Sweep.runFrom_advance m n (Die.ignites_offset n condition) hmark hanswer [] [] wave hc

theorem wavesFrom_advance (limit : Nat) (done : List Die) (left : Nat) (wave : List Die) (hc : c.Uncapped) :
    (wavesFrom k condition limit done left wave c).Advances m n (List.map (Die.offset n))
      (wavesFrom (k.offset n) condition limit (done.map (Die.offset n)) left (wave.map (Die.offset n))
        (c.advance m n)) := by
  fun_induction wavesFrom k condition limit done left wave c with
  | case1 done wave c =>
    refine ⟨hc, ?_⟩
    have hany : (wave.map (Die.offset n)).any (·.ignites condition) = wave.any (·.ignites condition) :=
      List.any_map
    rw [wavesFrom, hany, List.map_reverseAux]
  | case2 done left wave c s e hs =>
    obtain ⟨hafter, hs'⟩ := sweep_advance m n wave hc
    have hfailure : (sweep k condition wave c).failure = some e := hs
    refine ⟨hafter, ?_⟩
    simp only [wavesFrom, hs', hfailure, Sweep.dice_offset, List.map_reverseAux]
    rfl
  | case3 done left wave c s hs hnew =>
    obtain ⟨hafter, hs'⟩ := sweep_advance m n wave hc
    have hok : (sweep k condition wave c).failure = none := hs
    have hempty : (sweep k condition wave c).value.rolled.isEmpty = true := hnew
    refine ⟨hafter, ?_⟩
    simp only [wavesFrom, hs', hok, Sweep.offset, List.isEmpty_map, hempty, if_true, List.map_reverseAux]
    rfl
  | case4 done left wave c s hs hnew ih =>
    obtain ⟨hafter, hs'⟩ := sweep_advance m n wave hc
    have hok : (sweep k condition wave c).failure = none := hs
    have hrolled : ¬ (sweep k condition wave c).value.rolled.isEmpty = true := hnew
    have hnext := ih hafter
    rw [List.map_reverseAux] at hnext
    simp only [wavesFrom, hs', hok, Sweep.offset, List.isEmpty_map, if_neg hrolled]
    exact hnext

theorem run_advance (repeats : Repeats) (dice : List Die) (hc : c.Uncapped) :
    (run k repeats condition dice c).Advances m n (List.map (Die.offset n))
      (run (k.offset n) repeats condition (dice.map (Die.offset n)) (c.advance m n)) := by
  cases repeats with
  | once =>
    have hsweep : (sweep k condition dice c).Advances m n (Sweep.offset n) _ := sweep_advance m n dice hc
    refine ⟨hsweep.uncapped, ?_⟩
    simp only [run, hsweep.eq, Sweep.dice_offset]
  | recursive => exact wavesFrom_advance m n _ [] _ dice hc

end Explosion

namespace Pool

theorem keptDice_offset (dice : List Die) :
    keptDice (dice.map (Die.offset n)) = (keptDice dice).map (Prod.map (Die.offset n) id) := by
  rw [keptDice, keptDice, List.zipIdx_map, List.filter_map]
  rfl

theorem ranking_offset (rank : Rank) (dice : List Die) :
    ranking rank (dice.map (Die.offset n)) = ranking rank dice := by
  have hsorted := List.map_mergeSort (f := Prod.map (Die.offset n) id) (l := keptDice dice)
    (r := fun a b : Die × Nat => rank.before a.1.value b.1.value)
    (s := fun a b : Die × Nat => rank.before a.1.value b.1.value) fun _ _ _ _ => rfl
  rw [ranking, keptDice_offset, ← hsorted, List.map_map]
  rfl

theorem select_offset (s : Selection) (p : Pool) : (p.offset n).select s = (p.select s).offset n := by
  have hdrop (positions : List Nat) : dropAt positions (p.dice.map (Die.offset n)) =
      (dropAt positions p.dice).map (Die.offset n) := by
    rw [dropAt_eq_mapIdx, dropAt_eq_mapIdx]
    refine List.ext_getElem? fun i => ?_
    simp only [List.getElem?_mapIdx, List.getElem?_map, Option.map_map]
    congr 1
    funext d
    by_cases h : i ∈ positions
    · simp only [Function.comp_apply, if_pos h]
      rfl
    · simp only [Function.comp_apply, if_neg h]
  rw [select, select, offset]
  simp only [ranking_offset, hdrop]
  rfl

theorem clamp_offset (bound : Clamp) (p : Pool) : (p.offset n).clamp bound = (p.clamp bound).offset n := by
  have hdie (d : Die) : (if (d.offset n).isKept then
      { d.offset n with value := bound.apply (d.offset n).value } else d.offset n) =
      (if d.isKept then { d with value := bound.apply d.value } else d).offset n := by
    rw [Die.isKept_offset]
    by_cases h : d.isKept
    · rw [if_pos h, if_pos h]
      rfl
    · rw [if_neg h, if_neg h]
  simp only [clamp, offset, List.map_map]
  rw [Pool.mk.injEq]
  exact ⟨rfl, rfl, List.map_congr_left fun d _ => hdie d, rfl⟩

theorem markSuccesses_offset (p : Pool) : (p.offset n).markSuccesses = p.markSuccesses.offset n := by
  obtain ⟨index, sides, dice, successes⟩ := p
  cases successes with
  | none => rfl
  | some condition =>
    simp only [markSuccesses, offset, List.map_map]
    rfl

theorem subtotal_offset (p : Pool) : (p.offset n).subtotal = p.subtotal := by
  simp only [subtotal, sumFrom, offset, List.foldlM_map, Die.worth_offset]

theorem roll_advance (index count : Nat) (sides : Sides) (hc : c.Uncapped) :
    AnswerAdvances m n (Pool.offset n) (roll index count sides c)
      (roll (n + index) count sides (c.advance m n)) := by
  obtain ⟨hafter, hrolled⟩ := DieKind.rollFrom_advance m n (k := ⟨index, sides⟩) [] count hc
  have hrolled : DieKind.rollFrom ⟨n + index, sides⟩ [] count (c.advance m n) = _ := hrolled
  rw [roll, roll, Context.refusal?_of_uncapped hc, Context.refusal?_advance hc, hrolled]
  cases hfailure : (DieKind.rollFrom ⟨index, sides⟩ [] count c).failure with
  | some e => simpa only [hfailure] using ⟨hafter, rfl⟩
  | none => simpa only [hfailure] using ⟨hafter, rfl⟩

theorem modify_advance (p : Pool) (modifier : Modifier) (hc : c.Uncapped) :
    (p.modify modifier c).Advances m n (Pool.offset n) ((p.offset n).modify modifier (c.advance m n)) := by
  cases modifier with
  | select s => exact ⟨hc, by rw [modify, select_offset, modify]⟩
  | clamp bound => exact ⟨hc, by rw [modify, clamp_offset, modify]⟩
  | countSuccesses condition => exact ⟨hc, rfl⟩
  | reroll repeats condition =>
    have hmark (d : Die) : (d.offset n).replace = d.replace.offset n := rfl
    have hanswer (c : Context ρ) (hc : c.Uncapped) : (p.kind.reroll repeats condition c).Advances m n
        (List.map (Die.offset n)) ((p.offset n).kind.reroll repeats condition (c.advance m n)) :=
      DieKind.reroll_advance m n repeats condition hc
    obtain ⟨hafter, hs'⟩ :=
      Sweep.runFrom_advance m n (Die.meets_offset n condition) hmark hanswer [] [] p.dice hc
    have hs' : Sweep.run (·.meets condition) Die.replace ((p.offset n).kind.reroll repeats condition)
      (p.offset n).dice (c.advance m n) = _ := hs'
    refine ⟨hafter, ?_⟩
    rw [modify, hs']
    simp only [Sweep.dice_offset]
    rfl
  | explode repeats condition =>
    have hrun : (Explosion.run p.kind repeats condition p.dice c).Advances m n (List.map (Die.offset n))
        (Explosion.run (p.offset n).kind repeats condition (p.offset n).dice (c.advance m n)) :=
      Explosion.run_advance m n repeats p.dice hc
    refine ⟨hrun.uncapped, ?_⟩
    rw [modify, hrun.eq]
    rfl

theorem modifyAll_advance (modifiers : List Modifier) (p : Pool) (hc : c.Uncapped) :
    (p.modifyAll modifiers c).Advances m n (Pool.offset n)
      ((p.offset n).modifyAll modifiers (c.advance m n)) := by
  fun_induction modifyAll modifiers p c with
  | case1 p c => exact ⟨hc, rfl⟩
  | case2 modifier rest p c r e hr =>
    obtain ⟨hafter, hr'⟩ := modify_advance m n p modifier hc
    have hfailure : (p.modify modifier c).failure = some e := hr
    refine ⟨hafter, ?_⟩
    simp only [modifyAll, hr', hfailure]
    rw [hr]
  | case3 modifier rest p c r hr ih =>
    obtain ⟨hafter, hr'⟩ := modify_advance m n p modifier hc
    have hok : (p.modify modifier c).failure = none := hr
    simp only [modifyAll, hr', hok]
    exact ih hafter

end Pool

theorem DiceGroup.roll_advance (g : DiceGroup) (hc : c.Uncapped) :
    AnswerAdvances m n (Evaluated.offset n) (g.roll c) (g.roll (c.advance m n)) := by
  have hbegun : Context.Uncapped { c with groups := c.groups + 1 } := hc
  obtain ⟨hmiddle, hrolled⟩ := Pool.roll_advance m n c.groups g.count.toNat g.sides hbegun
  have hrolled : Pool.roll (c.advance m n).groups g.count.toNat g.sides
    { c.advance m n with groups := (c.advance m n).groups + 1 } = _ := hrolled
  rw [roll, roll, hrolled]
  cases hpool : Pool.roll c.groups g.count.toNat g.sides { c with groups := c.groups + 1 } with
  | mk answer middle =>
    rw [hpool] at hmiddle
    cases answer with
    | error e => exact ⟨hmiddle, rfl⟩
    | ok pool =>
      obtain ⟨hafter, hlast⟩ := Pool.modifyAll_advance m n g.modifiers pool hmiddle
      simp only [Except.map, hlast, Pool.markSuccesses_offset, Pool.subtotal_offset]
      cases (pool.modifyAll g.modifiers middle).failure with
      | some e => exact ⟨hafter, rfl⟩
      | none =>
        cases (pool.modifyAll g.modifiers middle).value.markSuccesses.subtotal with
        | error e => exact ⟨hafter, rfl⟩
        | ok value => exact ⟨hafter, rfl⟩

namespace Expr

/-- An expression is evaluated alike wherever the counters stand. -/
theorem roll_advance (e : Expr) (hc : c.Uncapped) :
    AnswerAdvances m n (Evaluated.offset n) (e.roll c) (e.roll (c.advance m n)) := by
  induction e generalizing c with
  | literal x => exact ⟨hc, rfl⟩
  | dice g => exact g.roll_advance m n hc
  | negate e ih =>
    obtain ⟨hafter, hoperand⟩ := ih hc
    rw [roll, roll, hoperand]
    generalize e.roll c = r at hafter
    obtain ⟨answer, after⟩ := r
    cases answer with
    | error e => exact ⟨hafter, rfl⟩
    | ok operand =>
      simp only [Except.map, Evaluated.offset]
      cases DiceNotation.negate operand.value with
      | error e => exact ⟨hafter, rfl⟩
      | ok value => exact ⟨hafter, rfl⟩
  | binary op left right ihl ihr =>
    obtain ⟨hmiddle, hleft⟩ := ihl hc
    rw [roll, roll, hleft]
    generalize left.roll c = l at hmiddle
    obtain ⟨answer, middle⟩ := l
    cases answer with
    | error e => exact ⟨hmiddle, rfl⟩
    | ok x =>
      obtain ⟨hafter, hright⟩ := ihr hmiddle
      simp only [Except.map, hright]
      generalize right.roll middle = r at hafter
      obtain ⟨answer, after⟩ := r
      cases answer with
      | error e => exact ⟨hafter, rfl⟩
      | ok y =>
        simp only [Evaluated.offset]
        cases op.apply x.value y.value with
        | error e => exact ⟨hafter, rfl⟩
        | ok value =>
          refine ⟨hafter, ?_⟩
          simp only [Except.map, Evaluated.offset, List.map_append]

theorem groups_roll {e : Expr} {after : Context ρ} {v : Evaluated} (h : e.roll c = (.ok v, after)) :
    after.groups = c.groups + e.diceGroups := by
  induction e generalizing c after v with
  | literal x =>
    cases h
    rfl
  | dice g => exact (DiceGroup.rolled_of_roll h).2
  | negate e ih =>
    obtain ⟨operand, hoperand, -⟩ := roll_negate_eq_ok h
    exact ih hoperand
  | binary op l r ihl ihr =>
    obtain ⟨left, middle, right, hleft, hright, -⟩ := roll_binary_eq_ok h
    rw [ihr hright, ihl hleft, diceGroups, Nat.add_assoc]

theorem rolls_roll {e : Expr} {after : Context ρ} {v : Evaluated} (h : e.roll c = (.ok v, after)) :
    after.rolls = c.rolls + v.trace.length := by
  obtain ⟨t, hleads, -, hrun⟩ := e.exists_play
  rw [hrun] at h
  have hrolls := Play.rolls_eq (t := t) (c := c)
  have hlog := hleads.value (c := c)
  rw [Run.of_answer_eq_ok h] at hrolls hlog
  rw [hrolls rfl, ← hlog rfl, List.length_map]

/-- Two evaluations that start from counters of their own, with one roller and one set of limits that bounds
no rolls, have one outcome: they end in the same way with the same roller, both counters have moved as far,
and the dice lie as many groups behind the start. -/
theorem roll_of_counters (e : Expr) {c c' : Context ρ} (hcap : c.limits.maxRolls = none)
    (hlimits : c'.limits = c.limits) (hroller : c'.roller = c.roller) :
    ∃ (outcome : Except RollError Evaluated) (rolls groups : Nat) (roller : ρ),
      e.roll c = (outcome.map (Evaluated.offset c.groups),
        ⟨c.limits, c.rolls + rolls, c.groups + groups, roller⟩) ∧
      e.roll c' = (outcome.map (Evaluated.offset c'.groups),
        ⟨c.limits, c'.rolls + rolls, c'.groups + groups, roller⟩) ∧
      ∀ v, outcome = .ok v → rolls = v.trace.length ∧ groups = e.diceGroups := by
  obtain ⟨limits, rolls, groups, roller⟩ := c
  obtain ⟨limits', rolls', groups', roller'⟩ := c'
  subst hlimits hroller
  let start : Context ρ := ⟨limits', 0, 0, roller'⟩
  have hstart : start.Uncapped := hcap
  have hfrom (m n : Nat) := (e.roll_advance m n hstart).eq
  have hlast : (e.roll start).2.limits = limits' := by
    obtain ⟨t, -, -, hrun⟩ := e.exists_play
    rw [hrun, Run.answer_snd, Play.run_limits]
  cases hroll : e.roll start with
  | mk outcome last =>
    simp only [hroll] at hfrom hlast
    subst hlast
    refine ⟨outcome, last.rolls, last.groups, last.roller, hfrom rolls groups, hfrom rolls' groups', ?_⟩
    rintro v rfl
    have hrolls := rolls_roll hroll
    have hgroups := groups_roll hroll
    simp only [start, Nat.zero_add] at hrolls hgroups
    exact ⟨hrolls, hgroups⟩

/-- One die that is rolled again if it shows a one. -/
def secondChance : Expr := .dice ⟨.one, .usual, [.reroll .once ⟨.equal, 1⟩]⟩

theorem secondChance_of_counters : ∃ (v : Evaluated) (roller : Playback),
    secondChance.roll ⟨⟨none, 100, 0⟩, 0, 0, Playback.ofList [1, 5]⟩ =
        (.ok (v.offset 0), ⟨⟨none, 100, 0⟩, 2, 1, roller⟩) ∧
      secondChance.roll ⟨⟨none, 100, 0⟩, 7, 3, Playback.ofList [1, 5]⟩ =
        (.ok (v.offset 3), ⟨⟨none, 100, 0⟩, 9, 4, roller⟩) := by
  let start : Context Playback := ⟨⟨none, 100, 0⟩, 0, 0, Playback.ofList [1, 5]⟩
  let later : Context Playback := ⟨⟨none, 100, 0⟩, 7, 3, Playback.ofList [1, 5]⟩
  have hcap : start.limits.maxRolls = none := rfl
  have hlimits : later.limits = start.limits := rfl
  have hroller : later.roller = start.roller := rfl
  have hlength : (secondChance.roll start).1.map (·.trace.length) = .ok 2 := by decide
  obtain ⟨outcome, rolls, groups, roller, hfirst, hsecond, hok⟩ :=
    roll_of_counters secondChance hcap hlimits hroller
  rw [hfirst] at hlength
  cases outcome with
  | error e => cases hlength
  | ok v =>
    obtain ⟨rfl, rfl⟩ := hok v rfl
    have htwo : v.trace.length = 2 := by
      simpa [Except.map, Evaluated.offset] using hlength
    rw [htwo] at hfirst hsecond
    exact ⟨v, roller, hfirst, hsecond⟩

end Expr

end DiceNotation
