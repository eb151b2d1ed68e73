import DiceNotation.Proofs.Plays.Capping
import DiceNotation.Proofs.Plays.Evaluation

/-!
# Rolling under raised limits

What has been rolled within some limits is rolled in the same way within higher ones: they are asked at
the same places, and where the lower ones did not object the higher ones do not either. A loop that
settles within its allowance settles in as many rounds when it is allowed more.
-/

namespace DiceNotation

variable {α ρ : Type}

namespace Limits

/-- The one cap is at most the other; no cap at all stands above every number. -/
def CapLE : Option Nat → Option Nat → Prop
  | _, none => True
  | none, some _ => False
  | some m, some m' => m ≤ m'

/-- Every limit of an evaluation is at most the other one. -/
structure RollingLE (l l' : Limits) : Prop where
  maxRolls : CapLE l.maxRolls l'.maxRolls
  maxIterations : l.maxIterations ≤ l'.maxIterations

end Limits

/-- The same context under other limits. -/
def Context.withLimits (l : Limits) (c : Context ρ) : Context ρ := { c with limits := l }

/-- The same run under other limits. -/
def Run.withLimits (l : Limits) (r : Run ρ α) : Run ρ α :=
  ⟨r.value, r.failure, r.context.withLimits l⟩

/-- If the first run succeeds, the second one is the same but for its limits. -/
def Run.RaisedTo (l l' : Limits) (r r' : Run ρ α) : Prop :=
  r.failure = none → r.context.limits = l ∧ r' = r.withLimits l'

variable {l l' : Limits} {c : Context ρ}

theorem Context.refusal?_withLimits (hl : l.RollingLE l') (hc : c.limits = l) {n : Nat}
    (h : c.refusal? n = none) : (c.withLimits l').refusal? n = none := by
  have hcap := hl.maxRolls
  rw [← hc] at hcap
  unfold refusal? at h ⊢
  unfold withLimits
  simp only
  cases hm' : l'.maxRolls with
  | none => rfl
  | some m' =>
    cases hm : c.limits.maxRolls with
    | none =>
      rw [hm, hm'] at hcap
      exact hcap.elim
    | some m =>
      have hle : m ≤ m' := by
        rw [hm, hm'] at hcap
        exact hcap
      have hfits := le_of_refusal?_eq_none hm (by rw [refusal?]; exact h)
      exact if_neg (by omega)

variable [Roller ρ]

theorem Context.rollOne_withLimits (hl : l.RollingLE l') (hc : c.limits = l) {sides : Sides}
    {face : Int} {after : Context ρ} (h : c.rollOne sides = (.ok face, after)) :
    after.limits = l ∧ (c.withLimits l').rollOne sides = (.ok face, after.withLimits l') := by
  obtain ⟨hroom, hanswer, rfl⟩ := of_rollOne_eq_ok h
  have hroom' := refusal?_withLimits hl hc hroom
  rcases (c.withLimits l').rollOne_cases sides with ⟨e, hrefused, -⟩ | ⟨-, hroll⟩
  · rw [hroom'] at hrefused
    cases hrefused
  · rw [hroll]
    exact ⟨hc, Prod.ext hanswer rfl⟩

namespace DieKind

variable {k : DieKind}

theorem roll_raised (hl : l.RollingLE l') (source : Source) (hc : c.limits = l) :
    (k.roll source c).RaisedTo l l' (k.roll source (c.withLimits l')) := by
  intro hok
  cases hroll : c.rollOne k.sides with
  | mk answer after =>
    simp only [roll, hroll] at hok ⊢
    cases answer with
    | error e => cases hok
    | ok face =>
      obtain ⟨hafter, hroll'⟩ := Context.rollOne_withLimits hl hc hroll
      rw [hroll']
      exact ⟨hafter, rfl⟩

theorem rollFrom_raised (hl : l.RollingLE l') (rolled : List Die) (n : Nat) (hc : c.limits = l) :
    (k.rollFrom rolled n c).RaisedTo l l' (k.rollFrom rolled n (c.withLimits l')) := by
  fun_induction rollFrom k rolled n c with
  | case1 rolled c => exact fun _ => ⟨hc, rfl⟩
  | case2 rolled n c face after hroll ih =>
    obtain ⟨hafter, hroll'⟩ := Context.rollOne_withLimits hl hc hroll
    rw [rollFrom, hroll']
    exact ih hafter
  | case3 => exact fun hok => by cases hok

section Chain

variable {condition : Condition} {face : Int} {after : Context ρ}

theorem rerollFrom_of_holds (limit : Nat) (rolled : List Die) (left : Nat)
    (hroll : c.rollOne k.sides = (.ok face, after)) (hface : condition.holds face = true) :
    k.rerollFrom condition limit rolled (left + 1) c =
      k.rerollFrom condition limit ((Die.fresh k.group face .reroll).replace :: rolled) left after := by
  rw [rerollFrom]
  simp only [hroll, if_pos hface]

theorem rerollFrom_of_not_holds (limit : Nat) (rolled : List Die) (left : Nat)
    (hroll : c.rollOne k.sides = (.ok face, after)) (hface : ¬ condition.holds face = true) :
    k.rerollFrom condition limit rolled left c =
      ⟨(Die.fresh k.group face .reroll :: rolled).reverse, none, after⟩ := by
  unfold rerollFrom
  simp only [hroll, if_neg hface]

end Chain

/-- A chain of rerolls that settles does so whatever more it is allowed. -/
theorem rerollFrom_raised (hl : l.RollingLE l') (condition : Condition) (limit limit' : Nat)
    (rolled : List Die) (left : Nat) (hc : c.limits = l) : ∀ left', left ≤ left' →
      (k.rerollFrom condition limit rolled left c).RaisedTo l l'
        (k.rerollFrom condition limit' rolled left' (c.withLimits l')) := by
  fun_induction rerollFrom k condition limit rolled left c with
  | case1 => exact fun _ _ hok => by cases hok
  | case2 => exact fun _ _ hok => by cases hok
  | case3 rolled c face after hroll die hface left ih =>
    intro left' hleft
    obtain ⟨hafter, hroll'⟩ := Context.rollOne_withLimits hl hc hroll
    obtain ⟨more, rfl⟩ : ∃ more, left' = more + 1 := Nat.exists_eq_add_of_le' (by omega)
    rw [rerollFrom_of_holds limit' rolled more hroll' hface]
    exact ih hafter more (by omega)
  | case4 rolled left c face after hroll die hface =>
    intro left' _ _
    obtain ⟨hafter, hroll'⟩ := Context.rollOne_withLimits hl hc hroll
    exact ⟨hafter, rerollFrom_of_not_holds limit' rolled left' hroll' hface⟩

theorem reroll_raised (hl : l.RollingLE l') (repeats : Repeats) (condition : Condition)
    (hc : c.limits = l) : (k.reroll repeats condition c).RaisedTo l l'
      (k.reroll repeats condition (c.withLimits l')) := by
  cases repeats with
  | once => exact roll_raised hl .reroll hc
  | recursive =>
    refine rerollFrom_raised hl condition _ _ [] _ hc _ ?_
    exact Nat.sub_le_sub_right (hc ▸ hl.maxIterations) 1

end DieKind

namespace Sweep

variable {fires : Die → Bool} {mark : Die → Die} {answer : Context ρ → Run ρ (List Die)}

omit [Roller ρ] in
theorem runFrom_of_fires (passed rolled rest : List Die) {d : Die} (hd : fires d = true)
    (hnew : (answer c).failure = none) :
    runFrom fires mark answer passed rolled (d :: rest) c =
      runFrom fires mark answer (mark d :: passed) ((answer c).value.reverseAux rolled) rest
        (answer c).context := by
  rw [runFrom, if_pos hd]
  simp only [hnew]

omit [Roller ρ] in
/-- Where no die fires nothing happens. -/
theorem runFrom_of_not_fires (passed rolled : List Die) {dice : List Die}
    (h : dice.any fires = false) (c : Context ρ) :
    runFrom fires mark answer passed rolled dice c =
      ⟨⟨passed.reverse ++ dice, rolled.reverse⟩, none, c⟩ := by
  induction dice generalizing passed with
  | nil => simp [runFrom]
  | cons d rest ih =>
    rw [List.any_cons, Bool.or_eq_false_iff] at h
    rw [runFrom, if_neg (by simp [h.1]), ih _ h.2, List.reverse_cons, List.append_assoc,
      List.singleton_append]

omit [Roller ρ] in
theorem runFrom_raised
    (hanswer : ∀ c, c.limits = l → (answer c).RaisedTo l l' (answer (c.withLimits l')))
    (passed rolled dice : List Die) (hc : c.limits = l) :
    (runFrom fires mark answer passed rolled dice c).RaisedTo l l'
      (runFrom fires mark answer passed rolled dice (c.withLimits l')) := by
  fun_induction runFrom fires mark answer passed rolled dice c with
  | case1 passed rolled c => exact fun _ => ⟨hc, rfl⟩
  | case2 => exact fun hok => by cases hok
  | case3 passed rolled d rest c hd new hnew ih =>
    obtain ⟨hafter, hnew'⟩ := hanswer c hc hnew
    have hok' : (answer (c.withLimits l')).failure = none := by rw [hnew']; exact hnew
    rw [runFrom_of_fires passed rolled rest hd hok', hnew']
    exact ih hafter
  | case4 passed rolled d rest c hd ih =>
    rw [runFrom, if_neg hd]
    exact ih hc

end Sweep

namespace Explosion

variable {k : DieKind} {condition : Condition}

theorem sweep_raised (hl : l.RollingLE l') (wave : List Die) (hc : c.limits = l) :
    (sweep k condition wave c).RaisedTo l l' (sweep k condition wave (c.withLimits l')) := by
  have hanswer (c : Context ρ) (hc : c.limits = l) :
      (k.roll .explosion c).RaisedTo l l' (k.roll .explosion (c.withLimits l')) :=
    DieKind.roll_raised hl .explosion hc
  exact Sweep.runFrom_raised hanswer [] [] wave hc

/-- A wave in which no die ignites is the last one. -/
theorem wavesFrom_of_not_ignites (limit : Nat) (done : List Die) (left : Nat) {wave : List Die}
    (h : wave.any (·.ignites condition) = false) (c : Context ρ) :
    wavesFrom k condition limit done left wave c = ⟨done.reverseAux wave, none, c⟩ := by
  cases left with
  | zero => simp [wavesFrom, h]
  | succ left =>
    have hsweep : sweep k condition wave c = ⟨⟨wave, []⟩, none, c⟩ :=
      Sweep.runFrom_of_not_fires [] [] h c
    simp [wavesFrom, hsweep]

/-- An explosion that dies down does so whatever more it is allowed. -/
theorem wavesFrom_raised (hl : l.RollingLE l') (limit limit' : Nat) (done : List Die) (left : Nat)
    (wave : List Die) (hc : c.limits = l) : ∀ left', left ≤ left' →
      (wavesFrom k condition limit done left wave c).RaisedTo l l'
        (wavesFrom k condition limit' done left' wave (c.withLimits l')) := by
  fun_induction wavesFrom k condition limit done left wave c with
  | case1 done wave c =>
    intro left' _ hok
    have hlast : wave.any (·.ignites condition) = false := by
      by_contra hany
      rw [Bool.not_eq_false] at hany
      simp only [hany, if_true] at hok
      cases hok
    refine ⟨hc, ?_⟩
    rw [wavesFrom_of_not_ignites limit' done left' hlast]
    simp [hlast, Run.withLimits]
  | case2 => exact fun _ _ hok => by cases hok
  | case3 done left wave c s hs hnew =>
    intro left' hleft _
    obtain ⟨more, rfl⟩ : ∃ more, left' = more + 1 := Nat.exists_eq_add_of_le' (by omega)
    obtain ⟨hafter, hs'⟩ := sweep_raised hl wave hc hs
    refine ⟨hafter, ?_⟩
    have hok : (sweep k condition wave c).failure = none := hs
    have hempty : (sweep k condition wave c).value.rolled.isEmpty = true := hnew
    simp only [wavesFrom, hs', Run.withLimits, hok, hempty, if_true]
    rfl
  | case4 done left wave c s hs hnew ih =>
    intro left' hleft
    obtain ⟨more, rfl⟩ : ∃ more, left' = more + 1 := Nat.exists_eq_add_of_le' (by omega)
    obtain ⟨hafter, hs'⟩ := sweep_raised hl wave hc hs
    have hok : (sweep k condition wave c).failure = none := hs
    have hrolled : ¬ (sweep k condition wave c).value.rolled.isEmpty = true := hnew
    simp only [wavesFrom, hs', Run.withLimits, hok, if_neg hrolled]
    exact ih hafter more (by omega)

theorem run_raised (hl : l.RollingLE l') (repeats : Repeats) (dice : List Die) (hc : c.limits = l) :
    (run k repeats condition dice c).RaisedTo l l'
      (run k repeats condition dice (c.withLimits l')) := by
  cases repeats with
  | once =>
    intro hok
    obtain ⟨hafter, hs'⟩ := sweep_raised hl dice hc hok
    refine ⟨hafter, ?_⟩
    simp only [run, hs']
    rfl
  | recursive => exact wavesFrom_raised hl _ _ [] _ dice hc _ (hc ▸ hl.maxIterations)

end Explosion

/-- If the first answer has a value, the second one is the same but for the limits. -/
def AnswerRaisedTo (l l' : Limits) (r r' : Except RollError α × Context ρ) : Prop :=
  ∀ x after, r = (.ok x, after) → after.limits = l ∧ r' = (.ok x, after.withLimits l')

namespace Pool

theorem roll_raised (hl : l.RollingLE l') (index count : Nat) (sides : Sides) (hc : c.limits = l) :
    AnswerRaisedTo l l' (roll index count sides c) (roll index count sides (c.withLimits l')) := by
  intro p after h
  obtain ⟨hroom, hp, hrolled⟩ := of_roll_eq_ok h
  have hraised := DieKind.rollFrom_raised (k := ⟨index, sides⟩) hl [] count hc
  rw [hrolled] at hraised
  obtain ⟨hafter, hrolled'⟩ := hraised rfl
  refine ⟨hafter, ?_⟩
  rw [roll, Context.refusal?_withLimits hl hc hroom, hrolled', hp]
  rfl

theorem modify_raised (hl : l.RollingLE l') (p : Pool) (m : Modifier) (hc : c.limits = l) :
    (p.modify m c).RaisedTo l l' (p.modify m (c.withLimits l')) := by
  cases m with
  | select | clamp | countSuccesses => exact fun _ => ⟨hc, rfl⟩
  | reroll repeats condition =>
    intro hok
    have hanswer (c : Context ρ) (hc : c.limits = l) :
        (p.kind.reroll repeats condition c).RaisedTo l l'
          (p.kind.reroll repeats condition (c.withLimits l')) :=
      DieKind.reroll_raised hl repeats condition hc
    obtain ⟨hafter, hs'⟩ := Sweep.runFrom_raised hanswer [] [] p.dice hc hok
    refine ⟨hafter, ?_⟩
    simp only [modify, Sweep.run, hs']
    rfl
  | explode repeats condition =>
    intro hok
    obtain ⟨hafter, hr'⟩ := Explosion.run_raised (k := p.kind) hl repeats p.dice hc hok
    refine ⟨hafter, ?_⟩
    simp only [modify, hr']
    rfl

theorem modifyAll_raised (hl : l.RollingLE l') (modifiers : List Modifier) (p : Pool)
    (hc : c.limits = l) :
    (p.modifyAll modifiers c).RaisedTo l l' (p.modifyAll modifiers (c.withLimits l')) := by
  fun_induction modifyAll modifiers p c with
  | case1 p c => exact fun _ => ⟨hc, rfl⟩
  | case2 m rest p c r e hr =>
    intro hok
    rw [hr] at hok
    cases hok
  | case3 m rest p c r hr ih =>
    obtain ⟨hafter, hr'⟩ := modify_raised hl p m hc hr
    have hok : (p.modify m c).failure = none := hr
    simp only [modifyAll, hr', Run.withLimits, hok]
    exact ih hafter

end Pool

theorem DiceGroup.roll_raised (hl : l.RollingLE l') (g : DiceGroup) (hc : c.limits = l) :
    AnswerRaisedTo l l' (g.roll c) (g.roll (c.withLimits l')) := by
  intro e after h
  obtain ⟨first, last, middle, hfirst, hlast, hvalue, htrace⟩ := of_roll_eq_ok h
  let begun : Context ρ := { c with groups := c.groups + 1 }
  have hbegun : begun.limits = l := hc
  obtain ⟨hmiddle, hfirst'⟩ := Pool.roll_raised hl _ _ _ hbegun _ _ hfirst
  have hmodified := Pool.modifyAll_raised hl g.modifiers first hmiddle
  rw [hlast] at hmodified
  obtain ⟨hafter, hlast'⟩ := hmodified rfl
  refine ⟨hafter, ?_⟩
  have hstart : Pool.roll (c.withLimits l').groups g.count.toNat g.sides
      { c.withLimits l' with groups := (c.withLimits l').groups + 1 } =
        (.ok first, middle.withLimits l') := hfirst'
  rw [roll, hstart]
  simp only [hlast', Run.withLimits, hvalue, ← htrace]

namespace Expr

theorem roll_raised (hl : l.RollingLE l') (e : Expr) (hc : c.limits = l) :
    AnswerRaisedTo l l' (e.roll c) (e.roll (c.withLimits l')) := by
  induction e generalizing c with
  | literal x =>
    intro v after h
    cases h
    exact ⟨hc, rfl⟩
  | dice g => exact g.roll_raised hl hc
  | negate e ih =>
    intro v after h
    obtain ⟨operand, hoperand, hvalue, htrace⟩ := roll_negate_eq_ok h
    obtain ⟨hafter, hoperand'⟩ := ih hc _ _ hoperand
    refine ⟨hafter, ?_⟩
    simp only [roll, hoperand', hvalue, ← htrace]
  | binary op left right ihl ihr =>
    intro v after h
    obtain ⟨x, middle, y, hx, hy, hvalue, htrace⟩ := roll_binary_eq_ok h
    obtain ⟨hmiddle, hx'⟩ := ihl hc _ _ hx
    obtain ⟨hafter, hy'⟩ := ihr hmiddle _ _ hy
    refine ⟨hafter, ?_⟩
    simp only [roll, hx', hy', hvalue, ← htrace]

theorem evaluate_raised (hl : l.RollingLE l') (e : Expr) (hc : c.limits = l) :
    AnswerRaisedTo l l' (e.evaluate c) (e.evaluate (c.withLimits l')) :=
  roll_raised (c := { c with rolls := 0, groups := 0 }) hl e hc

end Expr

end DiceNotation
