import DiceNotation.Proofs.Plays.Capping
import DiceNotation.Proofs.Rolls.Conservation

/-!
# How far a pool grows

A die is rerolled or explodes at most as often as the limit on iterations says, and a reroll is made
even where that limit is zero. So each modifier leaves at most so many dice for each die of the pool, also
when it fails halfway.
-/

namespace DiceNotation

variable {ρ : Type} [Roller ρ]

theorem Routine.Plays.limits_eq {α : Type} {Q : List Int → α → Prop} {f : Routine α}
    (h : Routine.Plays Q f) (c : Context ρ) : (f ρ c).context.limits = c.limits := by
  obtain ⟨t, -, -, -, hrun⟩ := h
  rw [hrun]
  exact t.run_limits c

namespace DieKind

variable (k : DieKind)

theorem length_roll_le (source : Source) (c : Context ρ) : (k.roll source c).value.length ≤ 1 := by
  unfold roll
  split
  · exact Nat.le_refl 1
  · exact Nat.zero_le 1

theorem roll_limits (source : Source) (c : Context ρ) :
    (k.roll source c).context.limits = c.limits := (plays_roll (k := k) source).limits_eq c

theorem reroll_limits (repeats : Repeats) (condition : Condition) (c : Context ρ) :
    (k.reroll repeats condition c).context.limits = c.limits :=
  (plays_reroll (k := k) repeats condition).limits_eq c

theorem rollFrom_limits (rolled : List Die) (n : Nat) (c : Context ρ) :
    (k.rollFrom rolled n c).context.limits = c.limits := by
  obtain ⟨t, -, -, -, -, hrun⟩ := k.exists_play_rollFrom rolled n
  rw [hrun]
  exact t.run_limits c

theorem length_rollFrom_le (rolled : List Die) (n : Nat) (c : Context ρ) :
    (k.rollFrom rolled n c).value.length ≤ rolled.length + n := by
  fun_induction rollFrom k rolled n c with
  | case1 rolled c => rw [List.length_reverse, Nat.add_zero]
  | case2 rolled n c face after hroll ih =>
    rw [List.length_cons] at ih
    omega
  | case3 rolled n c e after hroll =>
    rw [List.length_reverse]
    omega

theorem length_rerollFrom_le (condition : Condition) (limit : Nat) (rolled : List Die) (left : Nat)
    (c : Context ρ) :
    (k.rerollFrom condition limit rolled left c).value.length ≤ rolled.length + left + 1 := by
  fun_induction rerollFrom k condition limit rolled left c with
  | case1 rolled left c e after hroll =>
    rw [List.length_reverse]
    omega
  | case2 rolled c face after hroll die hface => rw [List.length_reverse, List.length_cons]
  | case3 rolled c face after hroll die hface left ih =>
    rw [List.length_cons] at ih
    omega
  | case4 rolled left c face after hroll die hface =>
    rw [List.length_reverse, List.length_cons]
    omega

/-- The dice that take the place of one die. -/
theorem length_reroll_le (repeats : Repeats) (condition : Condition) (c : Context ρ) :
    (k.reroll repeats condition c).value.length ≤ max 1 c.limits.maxIterations := by
  cases repeats with
  | once =>
    have hone := k.length_roll_le .reroll c
    simp only [reroll]
    omega
  | recursive =>
    have hchain := k.length_rerollFrom_le condition c.limits.maxIterations []
      (c.limits.maxIterations - 1) c
    rw [List.length_nil] at hchain
    simp only [reroll]
    omega

end DieKind

theorem length_reverseAux (front back : List Die) :
    (front.reverseAux back).length = front.length + back.length := by
  rw [List.reverseAux_eq, List.length_append, List.length_reverse]

namespace Sweep

variable {fires : Die → Bool} {mark : Die → Die} {answer : Context ρ → Run ρ (List Die)}

omit [Roller ρ] in
theorem length_passed_run (dice : List Die) (c : Context ρ) :
    (run fires mark answer dice c).value.passed.length = dice.length := by
  have hmark : ∀ d : Die, Function.const Die () (mark d) = Function.const Die () d := fun _ => rfl
  have hmap : (run fires mark answer dice c).value.passed.map (Function.const Die ()) = dice.map _ :=
    map_passed_runFrom hmark [] [] dice c
  simpa using congrArg List.length hmap

omit [Roller ρ] in
/-- If no answer holds more than `b` dice, at most `b` are rolled for each die gone through. -/
theorem length_rolled_runFrom_le {l : Limits} {b : Nat}
    (hanswer : ∀ c, c.limits = l → (answer c).value.length ≤ b)
    (hlimits : ∀ c, (answer c).context.limits = c.limits) (passed rolled dice : List Die)
    {c : Context ρ} (hc : c.limits = l) :
    (runFrom fires mark answer passed rolled dice c).value.rolled.length ≤
      rolled.length + dice.length * b := by
  fun_induction runFrom fires mark answer passed rolled dice c with
  | case1 passed rolled c =>
    rw [List.length_reverse]
    omega
  | case2 passed rolled d rest c hd new e hnew =>
    have hlength : new.value.length ≤ b := hanswer c hc
    simp only [length_reverseAux, List.length_cons, Nat.succ_mul]
    omega
  | case3 passed rolled d rest c hd new hnew ih =>
    have hlength : new.value.length ≤ b := hanswer c hc
    have hrest := ih ((hlimits c).trans hc)
    have hrolled := length_reverseAux new.value rolled
    rw [List.length_cons, Nat.succ_mul]
    omega
  | case4 passed rolled d rest c hd ih =>
    have hrest := ih hc
    rw [List.length_cons, Nat.succ_mul]
    omega

omit [Roller ρ] in
theorem length_dice_run_le {l : Limits} {b : Nat}
    (hanswer : ∀ c, c.limits = l → (answer c).value.length ≤ b)
    (hlimits : ∀ c, (answer c).context.limits = c.limits) (dice : List Die) {c : Context ρ}
    (hc : c.limits = l) :
    (run fires mark answer dice c).value.dice.length ≤ dice.length * (1 + b) := by
  have hrolled : (run fires mark answer dice c).value.rolled.length ≤ 0 + dice.length * b :=
    length_rolled_runFrom_le hanswer hlimits [] [] dice hc
  rw [Sweep.dice, List.length_append, length_passed_run, Nat.mul_add]
  omega

end Sweep

namespace Explosion

variable (k : DieKind) (condition : Condition)

theorem length_rolled_sweep_le (wave : List Die) (c : Context ρ) :
    (sweep k condition wave c).value.rolled.length ≤ wave.length := by
  have hrolled : (sweep k condition wave c).value.rolled.length ≤ 0 + wave.length * 1 :=
    Sweep.length_rolled_runFrom_le (fun c _ => k.length_roll_le .explosion c)
      (k.roll_limits .explosion) [] [] wave (Eq.refl c.limits)
  omega

theorem length_dice_sweep_le (wave : List Die) (c : Context ρ) :
    (sweep k condition wave c).value.dice.length ≤ wave.length + wave.length := by
  have hrolled := length_rolled_sweep_le k condition wave c
  have hpassed : (sweep k condition wave c).value.passed.length = wave.length :=
    Sweep.length_passed_run wave c
  rw [Sweep.dice, List.length_append]
  omega

/-- A wave is at most as large as the one before it, and only so many are allowed. -/
theorem length_wavesFrom_le (limit : Nat) (done : List Die) (left : Nat) (wave : List Die)
    (c : Context ρ) :
    (wavesFrom k condition limit done left wave c).value.length ≤
      done.length + (wave.length + wave.length * left) := by
  fun_induction wavesFrom k condition limit done left wave c with
  | case1 done wave c =>
    rw [length_reverseAux]
    omega
  | case2 done left wave c s e hs =>
    have hdice : s.value.dice.length ≤ wave.length + wave.length :=
      length_dice_sweep_le k condition wave c
    rw [length_reverseAux, Nat.mul_succ]
    omega
  | case3 done left wave c s hs hnew =>
    have hpassed : s.value.passed.length = wave.length := Sweep.length_passed_run wave c
    rw [length_reverseAux]
    omega
  | case4 done left wave c s hs hnew ih =>
    have hpassed : s.value.passed.length = wave.length := Sweep.length_passed_run wave c
    have hrolled : s.value.rolled.length ≤ wave.length := length_rolled_sweep_le k condition wave c
    have hlater := Nat.mul_le_mul_right left hrolled
    rw [length_reverseAux] at ih
    rw [Nat.mul_succ]
    omega

theorem length_run_le (repeats : Repeats) (dice : List Die) (c : Context ρ) :
    (run k repeats condition dice c).value.length ≤
      dice.length * (1 + max 1 c.limits.maxIterations) := by
  rw [Nat.mul_add, Nat.mul_one]
  cases repeats with
  | once =>
    have hdice := length_dice_sweep_le k condition dice c
    have hfactor := Nat.mul_le_mul_left dice.length (Nat.le_max_left 1 c.limits.maxIterations)
    simp only [run]
    omega
  | recursive =>
    have hwaves := length_wavesFrom_le k condition c.limits.maxIterations []
      c.limits.maxIterations dice c
    have hfactor := Nat.mul_le_mul_left dice.length (Nat.le_max_right 1 c.limits.maxIterations)
    rw [List.length_nil] at hwaves
    simp only [run]
    omega

end Explosion

namespace Pool

theorem length_dropAt (positions : List Nat) (dice : List Die) :
    (dropAt positions dice).length = dice.length := by
  rw [dropAt_eq_mapIdx, List.length_mapIdx]

/-- One modifier, whether or not it comes to its end. -/
theorem length_modify_le (p : Pool) (m : Modifier) (c : Context ρ) :
    (p.modify m c).value.dice.length ≤ p.dice.length * (1 + max 1 c.limits.maxIterations) := by
  have hgrown := Nat.le_mul_of_pos_right p.dice.length
    (show 0 < 1 + max 1 c.limits.maxIterations by omega)
  cases m with
  | select s =>
    rw [modify, select, length_dropAt]
    exact hgrown
  | clamp bound =>
    rw [modify, clamp, List.length_map]
    exact hgrown
  | countSuccesses condition => exact hgrown
  | reroll repeats condition =>
    refine Sweep.length_dice_run_le (l := c.limits) (fun c' hc' => ?_)
      (p.kind.reroll_limits repeats condition) p.dice rfl
    rw [← hc']
    exact p.kind.length_reroll_le repeats condition c'
  | explode repeats condition => exact Explosion.length_run_le p.kind condition repeats p.dice c

theorem modify_limits (p : Pool) (m : Modifier) (c : Context ρ) :
    (p.modify m c).context.limits = c.limits := (p.plays_modify m).limits_eq c

/-- Each modifier multiplies the dice of a pool by no more than one and the most rerolls of a die. -/
theorem length_modifyAll_le (modifiers : List Modifier) (p : Pool) (c : Context ρ) :
    (p.modifyAll modifiers c).value.dice.length ≤
      p.dice.length * (1 + max 1 c.limits.maxIterations) ^ modifiers.length := by
  fun_induction modifyAll modifiers p c with
  | case1 p c => rw [List.length_nil, Nat.pow_zero, Nat.mul_one]
  | case2 m rest p c r e hr =>
    have hfirst : r.value.dice.length ≤ p.dice.length * (1 + max 1 c.limits.maxIterations) :=
      p.length_modify_le m c
    have hpow : 0 < (1 + max 1 c.limits.maxIterations) ^ rest.length := Nat.pow_pos (by omega)
    rw [List.length_cons, Nat.pow_succ', ← Nat.mul_assoc]
    exact hfirst.trans (Nat.le_mul_of_pos_right _ hpow)
  | case3 m rest p c r hr ih =>
    have hfirst : r.value.dice.length ≤ p.dice.length * (1 + max 1 c.limits.maxIterations) :=
      p.length_modify_le m c
    rw [show r.context.limits = c.limits from p.modify_limits m c] at ih
    rw [List.length_cons, Nat.pow_succ', ← Nat.mul_assoc]
    exact ih.trans (Nat.mul_le_mul_right _ hfirst)

end Pool

end DiceNotation
