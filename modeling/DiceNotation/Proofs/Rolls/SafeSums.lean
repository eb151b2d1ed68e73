import DiceNotation.Proofs.Plays.Capping
import DiceNotation.Proofs.Rolls.Frame
import Mathlib.Algebra.Order.BigOperators.Group.List

/-!
# Groups that cannot overflow

A cap on rolls is a cap on the dice of a group, since each of them takes a roll. As long as no die is
raised beyond its sides, dice that few cannot add up to more than a value can hold; counted successes
cannot whatever becomes of the values. What is left are the failures of a group before it adds up, and
none of these is an overflow.
-/

namespace DiceNotation

variable {ρ : Type}

/-! ## Failures that are no overflows -/

/-- The run was not cut short by an overflow. -/
def Run.Blameless {α : Type} (r : Run ρ α) : Prop := r.failure ≠ some .overflow

theorem Run.blameless_of_success {α : Type} {r : Run ρ α} (h : r.failure = none) : r.Blameless := by
  rw [Blameless, h]
  exact (Option.some_ne_none _).symm

theorem Run.blameless_of_failure {α : Type} {r : Run ρ α} {e : RollError} (h : r.failure = some e)
    (he : e ≠ .overflow) : r.Blameless := by
  rw [Blameless, h]
  exact fun heq => he (Option.some.inj heq)

theorem Sweep.runFrom_blameless {fires : Die → Bool} {mark : Die → Die}
    {answer : Context ρ → Run ρ (List Die)} (hanswer : ∀ c, (answer c).Blameless)
    (passed rolled dice : List Die) (c : Context ρ) :
    (runFrom fires mark answer passed rolled dice c).Blameless := by
  fun_induction runFrom fires mark answer passed rolled dice c with
  | case1 passed rolled c => exact Run.blameless_of_success rfl
  | case2 passed rolled d rest c hd new e hnew =>
    have hblameless : new.failure ≠ some .overflow := hanswer c
    exact hnew ▸ hblameless
  | case3 passed rolled d rest c hd new hnew ih => exact ih
  | case4 passed rolled d rest c hd ih => exact ih

section Rolling

variable [Roller ρ]

/-- No request is answered by an overflow, unless its bounds are crossed. -/
def Roller.NeverOverflows (ρ : Type) [Roller ρ] : Prop :=
  ∀ (r : ρ) (low high : Int), low ≤ high → (Roller.roll r low high).1 ≠ .error .overflow

theorem Roller.Reliable.neverOverflows (h : Roller.Reliable ρ) : Roller.NeverOverflows ρ := by
  intro r low high hle hoverflow
  obtain ⟨x, hx⟩ := h r low high hle
  cases hx.symm.trans hoverflow

theorem Context.rollOne_ne_overflow (hanswers : Roller.NeverOverflows ρ) {c after : Context ρ}
    {sides : Sides} {e : RollError} (hroll : c.rollOne sides = (.error e, after)) : e ≠ .overflow := by
  rintro rfl
  rcases c.rollOne_cases sides with ⟨e, hrefused, hfailed⟩ | ⟨-, hrolled⟩
  · obtain ⟨m, -, rfl⟩ := Context.of_refusal?_eq_some hrefused
    cases hroll.symm.trans hfailed
  · exact hanswers c.roller 1 sides.top sides.one_le_top
      (congrArg Prod.fst (hroll.symm.trans hrolled)).symm

section Blameless

variable (hanswers : Roller.NeverOverflows ρ)

include hanswers

namespace DieKind

variable (k : DieKind)

theorem rollFrom_blameless (rolled : List Die) (n : Nat) (c : Context ρ) :
    (k.rollFrom rolled n c).Blameless := by
  fun_induction rollFrom k rolled n c with
  | case1 rolled c => exact Run.blameless_of_success rfl
  | case2 rolled n c face after hroll ih => exact ih
  | case3 rolled n c e after hroll =>
    exact Run.blameless_of_failure rfl (Context.rollOne_ne_overflow hanswers hroll)

theorem roll_blameless (source : Source) (c : Context ρ) : (k.roll source c).Blameless := by
  unfold roll
  split
  · exact Run.blameless_of_success rfl
  · next e after hroll =>
    exact Run.blameless_of_failure rfl (Context.rollOne_ne_overflow hanswers hroll)

theorem rerollFrom_blameless (condition : Condition) (limit : Nat) (rolled : List Die) (left : Nat)
    (c : Context ρ) : (k.rerollFrom condition limit rolled left c).Blameless := by
  fun_induction rerollFrom k condition limit rolled left c with
  | case1 rolled left c e after hroll =>
    exact Run.blameless_of_failure rfl (Context.rollOne_ne_overflow hanswers hroll)
  | case2 rolled c face after hroll die hface =>
    exact Run.blameless_of_failure rfl RollError.noConfusion
  | case3 rolled c face after hroll die hface left ih => exact ih
  | case4 rolled left c face after hroll die hface => exact Run.blameless_of_success rfl

theorem reroll_blameless (repeats : Repeats) (condition : Condition) (c : Context ρ) :
    (k.reroll repeats condition c).Blameless := by
  cases repeats with
  | once => exact k.roll_blameless hanswers .reroll c
  | recursive => exact k.rerollFrom_blameless hanswers condition _ [] _ c

end DieKind

theorem Explosion.wavesFrom_blameless (k : DieKind) (condition : Condition) (limit : Nat)
    (done : List Die) (left : Nat) (wave : List Die) (c : Context ρ) :
    (wavesFrom k condition limit done left wave c).Blameless := by
  fun_induction wavesFrom k condition limit done left wave c with
  | case1 done wave c =>
    by_cases hignites : wave.any (·.ignites condition)
    · exact Run.blameless_of_failure (if_pos hignites) RollError.noConfusion
    · exact Run.blameless_of_success (if_neg hignites)
  | case2 done left wave c s e hs =>
    have hblameless : s.failure ≠ some .overflow :=
      Sweep.runFrom_blameless (k.roll_blameless hanswers .explosion) [] [] wave c
    exact hs ▸ hblameless
  | case3 done left wave c s hs hnew => exact Run.blameless_of_success rfl
  | case4 done left wave c s hs hnew ih => exact ih

namespace Pool

theorem modify_blameless (p : Pool) (m : Modifier) (c : Context ρ) : (p.modify m c).Blameless := by
  cases m with
  | select | clamp | countSuccesses => exact Run.blameless_of_success rfl
  | reroll repeats condition =>
    exact Sweep.runFrom_blameless (p.kind.reroll_blameless hanswers repeats condition) [] [] p.dice c
  | explode repeats condition =>
    cases repeats with
    | once =>
      exact Sweep.runFrom_blameless (p.kind.roll_blameless hanswers .explosion) [] [] p.dice c
    | recursive => exact Explosion.wavesFrom_blameless hanswers p.kind condition _ [] _ p.dice c

theorem modifyAll_blameless (modifiers : List Modifier) (p : Pool) (c : Context ρ) :
    (p.modifyAll modifiers c).Blameless := by
  fun_induction modifyAll modifiers p c with
  | case1 p c => exact Run.blameless_of_success rfl
  | case2 m rest p c r e hr => exact p.modify_blameless hanswers m c
  | case3 m rest p c r hr ih => exact ih

theorem roll_ne_overflow (index count : Nat) (sides : Sides) (c : Context ρ) :
    (Pool.roll index count sides c).1 ≠ .error .overflow := by
  unfold Pool.roll
  split
  · next e hrefused =>
    obtain ⟨m, -, rfl⟩ := Context.of_refusal?_eq_some hrefused
    exact nofun
  · have hblameless := DieKind.rollFrom_blameless hanswers ⟨index, sides⟩ [] count c
    dsimp only
    split
    · next e hfailed =>
      rw [Run.Blameless, hfailed] at hblameless
      exact fun h => hblameless (congrArg some (Except.error.inj h))
    · exact nofun

end Pool

end Blameless

/-! ## As many dice as rolls -/

namespace Context.Yields

variable {sides : Sides} {c after : Context ρ} {faces : List Int}

/-- Every face takes a roll. -/
theorem length_le (h : c.Yields sides faces after) : c.rolls + faces.length ≤ after.rolls := by
  induction h with
  | done => exact Nat.le_refl _
  | face hroll _ ih =>
    obtain ⟨-, -, rfl⟩ := Context.of_rollOne_eq_ok hroll
    rw [List.length_cons]
    dsimp only at ih
    omega
  | @refused c _ _ _ _ hroll _ ih =>
    rcases c.rollOne_cases sides with ⟨e, -, hrefused⟩ | ⟨-, hrolled⟩
    · rw [hroll] at hrefused
      cases hrefused
      exact ih
    · rw [hroll, Prod.mk.injEq] at hrolled
      rw [hrolled.2] at ih
      dsimp only at ih
      omega

theorem rolls_le {m : Nat} (h : c.Yields sides faces after) (hcap : c.limits.maxRolls = some m)
    (hc : c.rolls ≤ m) : after.rolls ≤ m := by
  induction h with
  | done => exact hc
  | @face c _ _ _ _ hroll _ ih | @refused c _ _ _ _ hroll _ ih =>
    have hlimits := c.rollOne_limits sides
    have hrolls := c.rollOne_rolls_le_cap hcap hc sides
    rw [hroll] at hlimits hrolls
    exact ih (hlimits ▸ hcap) hrolls

theorem bounds (hbounded : Roller.Bounded ρ) (h : c.Yields sides faces after) :
    ∀ face ∈ faces, 1 ≤ face ∧ face ≤ sides.top := by
  induction h with
  | done => exact nofun
  | face hroll _ ih => exact List.forall_mem_cons.2 ⟨Context.rollOne_bounds hbounded hroll, ih⟩
  | refused _ _ ih => exact ih

end Context.Yields

theorem DieKind.rollFrom_yields (k : DieKind) (rolled : List Die) (n : Nat) (c : Context ρ) :
    ∃ faces : List Int,
      (k.rollFrom rolled n c).value = rolled.reverse ++ faces.map (.fresh k.group · .initial) ∧
        c.Yields k.sides faces (k.rollFrom rolled n c).context := by
  fun_induction rollFrom k rolled n c with
  | case1 rolled c => exact ⟨[], (List.append_nil _).symm, .done c⟩
  | case2 rolled n c face after hroll ih =>
    obtain ⟨faces, hvalue, hyields⟩ := ih
    refine ⟨face :: faces, ?_, .face hroll hyields⟩
    rw [hvalue, List.reverse_cons, List.append_assoc]
    rfl
  | case3 rolled n c e after hroll =>
    exact ⟨[], (List.append_nil _).symm, .refused hroll (.done after)⟩

/-! ## Values within the sides -/

/-- The die counts for no more than it can show, and never against its group. -/
def Die.Fits (sides : Sides) (d : Die) : Prop := 0 ≤ d.value ∧ d.value ≤ sides.top

theorem fits_of_forall₂ {sides : Sides} {a b : List Die}
    (h : List.Forall₂ (Die.Becomes false) a b) (ha : ∀ d ∈ a, d.Fits sides) :
    ∀ d ∈ b, d.Fits sides := by
  induction h with
  | nil => exact nofun
  | cons hd _ ih =>
    obtain ⟨hfirst, hrest⟩ := List.forall_mem_cons.1 ha
    refine List.forall_mem_cons.2 ⟨?_, ih hrest⟩
    rwa [Die.Fits, hd.value rfl]

/-- Without clamps values stay what they are, and those of new dice are faces. -/
theorem Extends.fits (hbounded : Roller.Bounded ρ) {k : DieKind} {a b : List Die} {c after : Context ρ}
    (h : Extends false k a c b after) (ha : ∀ d ∈ a, d.Fits k.sides) : ∀ d ∈ b, d.Fits k.sides := by
  obtain ⟨old, new, rfl, hold, hnew, hyields⟩ := h
  intro d hd
  rcases List.mem_append.1 hd with hd | hd
  · exact fits_of_forall₂ hold ha d hd
  · obtain ⟨hlow, hhigh⟩ := hyields.bounds hbounded d.rolled (List.mem_map_of_mem hd)
    rw [Die.Fits, (hnew d hd).value rfl]
    exact ⟨by omega, hhigh⟩

namespace Pool

theorem clamp_maximum_fits {bound : Int} (hbound : 0 ≤ bound) {p : Pool}
    (hp : ∀ d ∈ p.dice, d.Fits p.sides) : ∀ d ∈ (p.clamp (.maximum bound)).dice, d.Fits p.sides := by
  intro d hd
  obtain ⟨d', hd', rfl⟩ := List.mem_map.1 hd
  obtain ⟨hlow, hhigh⟩ := hp d' hd'
  split
  · show 0 ≤ min d'.value bound ∧ min d'.value bound ≤ _
    omega
  · exact ⟨hlow, hhigh⟩

/-- Only a minimum can raise a value beyond the sides. -/
theorem modify_fits (hbounded : Roller.Bounded ρ) {p : Pool} {m : Modifier} (hm : m.Writable)
    (hmin : ∀ bound, m ≠ .clamp (.minimum bound)) (c : Context ρ) (hp : ∀ d ∈ p.dice, d.Fits p.sides) :
    ∀ d ∈ (p.modify m c).value.dice, d.Fits p.sides := by
  have hextends := p.modify_extends m c
  cases m with
  | clamp bound =>
    cases bound with
    | minimum bound => exact absurd rfl (hmin bound)
    | maximum bound => exact clamp_maximum_fits hm.1 hp
  | select | countSuccesses | reroll | explode => exact hextends.fits hbounded hp

theorem modifyAll_fits (hbounded : Roller.Bounded ρ) {modifiers : List Modifier} {p : Pool}
    {c : Context ρ} (hm : ∀ m ∈ modifiers, m.Writable)
    (hmin : ∀ bound, .clamp (.minimum bound) ∉ modifiers) (hp : ∀ d ∈ p.dice, d.Fits p.sides) :
    ∀ d ∈ (p.modifyAll modifiers c).value.dice, d.Fits p.sides := by
  have hne {m : Modifier} {rest : List Modifier}
      (h : ∀ bound, Modifier.clamp (.minimum bound) ∉ m :: rest) :
      (∀ bound, m ≠ .clamp (.minimum bound)) ∧ ∀ bound, .clamp (.minimum bound) ∉ rest :=
    ⟨fun bound heq => h bound (heq ▸ List.mem_cons_self),
      fun bound hmem => h bound (List.mem_cons_of_mem _ hmem)⟩
  fun_induction modifyAll modifiers p c with
  | case1 p c => exact hp
  | case2 m rest p c r e hr =>
    exact modify_fits hbounded (hm m List.mem_cons_self) (hne hmin).1 c hp
  | case3 m rest p c r hr ih =>
    obtain ⟨hwritable, hrest⟩ := List.forall_mem_cons.1 hm
    have hsides : r.value.sides = p.sides := p.modify_sides m c
    have hfits := modify_fits hbounded hwritable (hne hmin).1 c hp
    rw [← hsides] at hfits ⊢
    exact ih hrest (hne hmin).2 hfits

end Pool

/-! ## Adding up -/

namespace Pool

/-- So many dice that are worth so little add up. -/
theorem subtotal_of_worth_le {p : Pool} {m bound : Nat} (hlength : p.dice.length ≤ m)
    (hworth : ∀ d ∈ p.dice, 0 ≤ d.worth ∧ d.worth ≤ bound)
    (hsafe : ((m * bound : Nat) : Int) ≤ maxInt) :
    ∃ v, p.subtotal = .ok v ∧ 0 ≤ v ∧ v ≤ (m * bound : Nat) := by
  have hterms : ∀ x ∈ p.dice.map Die.worth, 0 ≤ x ∧ x ≤ bound := by
    intro x hx
    obtain ⟨d, hd, rfl⟩ := List.mem_map.1 hx
    exact hworth d hd
  have hlow : 0 ≤ (p.dice.map Die.worth).sum := List.sum_nonneg fun x hx => (hterms x hx).1
  have hhigh : (p.dice.map Die.worth).sum ≤ (m * bound : Nat) :=
    calc (p.dice.map Die.worth).sum
        ≤ (p.dice.map Die.worth).length • (bound : Int) :=
          List.sum_le_card_nsmul _ _ fun x hx => (hterms x hx).2
      _ = (p.dice.length * bound : Nat) := by rw [List.length_map, nsmul_eq_mul, Nat.cast_mul]
      _ ≤ (m * bound : Nat) := Int.ofNat_le.2 (Nat.mul_le_mul_right bound hlength)
  have hrange : InRange (p.dice.map Die.worth).sum := by
    refine ⟨?_, Int.le_trans hhigh hsafe⟩
    have hmin : minInt ≤ 0 := by decide
    exact Int.le_trans hmin hlow
  refine ⟨_, ?_, hlow, hhigh⟩
  rw [subtotal_eq fun d hd => (hworth d hd).1, checked_of_inRange hrange]

/-- A new pool is made of the faces that its requests were answered with. -/
theorem roll_yields {index count : Nat} {sides : Sides} {c after : Context ρ} {p : Pool}
    (h : Pool.roll index count sides c = (.ok p, after)) :
    ∃ faces : List Int, p = ⟨index, sides, faces.map (.fresh index · .initial), none⟩ ∧
      c.Yields sides faces after := by
  obtain ⟨-, hp, hrolled⟩ := of_roll_eq_ok h
  obtain ⟨faces, hvalue, hyields⟩ := DieKind.rollFrom_yields ⟨index, sides⟩ [] count c
  rw [hrolled] at hvalue hyields
  exact ⟨faces, hp.trans (congrArg (Pool.mk index sides · none) hvalue), hyields⟩

theorem roll_fits (hbounded : Roller.Bounded ρ) {index count : Nat} {sides : Sides}
    {c after : Context ρ} {p : Pool} (h : Pool.roll index count sides c = (.ok p, after)) :
    p.sides = sides ∧ ∀ d ∈ p.dice, d.Fits p.sides := by
  obtain ⟨faces, rfl, hyields⟩ := roll_yields h
  refine ⟨rfl, fun d hd => ?_⟩
  obtain ⟨face, hface, rfl⟩ := List.mem_map.1 hd
  obtain ⟨hlow, hhigh⟩ := hyields.bounds hbounded face hface
  exact ⟨Int.le_trans (by decide) hlow, hhigh⟩

theorem markSuccesses_fits {sides : Sides} (p : Pool) (hp : ∀ d ∈ p.dice, d.Fits sides) :
    ∀ d ∈ p.markSuccesses.dice, d.Fits sides := by
  intro d hd
  have hvalue : d.value ∈ p.markSuccesses.dice.map Die.value := List.mem_map_of_mem hd
  rw [p.map_markSuccesses fun _ _ => rfl] at hvalue
  obtain ⟨d', hd', heq⟩ := List.mem_map.1 hvalue
  rw [Die.Fits, ← heq]
  exact hp d' hd'

end Pool

/-- A die counts for at most a success if successes are counted. -/
theorem Die.worth_le {d : Die} {bound : Nat} (hbound : 1 ≤ bound)
    (hd : d.success = none → 0 ≤ d.value ∧ d.value ≤ bound) : 0 ≤ d.worth ∧ d.worth ≤ bound := by
  unfold worth
  split
  · split
    · next hnone => exact hd hnone
    · omega
    · omega
  · omega

namespace DiceGroup

variable {g : DiceGroup} {c middle after : Context ρ} {first last : Pool} {m : Nat}

/-- Under a cap a group has no more dice than the cap allows rolls. -/
theorem length_le_of_modifyAll (hcap : c.limits.maxRolls = some m)
    (hfirst : Pool.roll c.groups g.count.toNat g.sides { c with groups := c.groups + 1 } =
      (.ok first, middle))
    (hlast : first.modifyAll g.modifiers middle = ⟨last, none, after⟩) : last.dice.length ≤ m := by
  obtain ⟨hroom, -, -⟩ := Pool.of_roll_eq_ok hfirst
  have hbegun := Context.le_of_refusal?_eq_none (m := m) hcap hroom
  obtain ⟨faces, rfl, hyields⟩ := Pool.roll_yields hfirst
  obtain ⟨old, new, hdice, hold, -, hyields'⟩ := Pool.modifyAll_extends g.modifiers _ middle
  rw [hlast] at hdice hyields'
  have hall := hyields.trans hyields'
  have hlength : last.dice.length = (faces ++ new.map Die.rolled).length := by
    rw [hdice, List.length_append, List.length_append, ← hold.length_eq, List.length_map,
      List.length_map]
  have hrolls : c.rolls + (faces ++ new.map Die.rolled).length ≤ after.rolls := hall.length_le
  have hle : after.rolls ≤ m := hall.rolls_le hcap (Nat.le_trans (Nat.le_add_right _ _) hbegun)
  omega

/-- The group does not overflow, and its value lies between nothing and the bound. -/
def SettlesWithin (g : DiceGroup) (bound : Nat) (c : Context ρ) : Prop :=
  (g.roll c).1 ≠ .error .overflow ∧ ∀ v, (g.roll c).1 = .ok v → 0 ≤ v.value ∧ v.value ≤ bound

theorem settlesWithin_of_modifyAll (hanswers : Roller.NeverOverflows ρ)
    (hcap : c.limits.maxRolls = some m) {bound : Nat} (hbound : 1 ≤ bound)
    (hsafe : ((m * bound : Nat) : Int) ≤ maxInt)
    (hdice : ∀ {first last : Pool} {middle after : Context ρ},
      Pool.roll c.groups g.count.toNat g.sides { c with groups := c.groups + 1 } =
        (.ok first, middle) →
      first.modifyAll g.modifiers middle = ⟨last, none, after⟩ →
      ∀ d ∈ last.markSuccesses.dice, d.success = none → 0 ≤ d.value ∧ d.value ≤ bound) :
    g.SettlesWithin (m * bound) c := by
  unfold SettlesWithin roll
  split
  · next e after hfirst =>
    have hne := Pool.roll_ne_overflow hanswers c.groups g.count.toNat g.sides
      { c with groups := c.groups + 1 }
    rw [hfirst] at hne
    exact ⟨fun h => hne (congrArg Except.error (Except.error.inj h)), nofun⟩
  · next first middle hfirst =>
    have hblameless := first.modifyAll_blameless hanswers g.modifiers middle
    dsimp only
    split
    · next e hfailed =>
      rw [Run.Blameless, hfailed] at hblameless
      exact ⟨fun h => hblameless (congrArg some (Except.error.inj h)), nofun⟩
    · next hok =>
      have hlast : first.modifyAll g.modifiers middle =
          ⟨(first.modifyAll g.modifiers middle).value, none,
            (first.modifyAll g.modifiers middle).context⟩ := by
        rw [← hok]
      generalize (first.modifyAll g.modifiers middle).value = last at hlast ⊢
      have hlength : last.markSuccesses.dice.length ≤ m := by
        have hmarked := congrArg List.length (last.map_markSuccesses (f := Die.group) fun _ _ => rfl)
        rw [List.length_map, List.length_map] at hmarked
        exact hmarked ▸ length_le_of_modifyAll hcap hfirst hlast
      obtain ⟨v, hv, hlow, hhigh⟩ := Pool.subtotal_of_worth_le hlength
        (fun d hd => Die.worth_le hbound (hdice hfirst hlast d hd)) hsafe
      rw [hv]
      refine ⟨nofun, ?_⟩
      rintro _ ⟨⟩
      exact ⟨hlow, hhigh⟩

theorem fits_of_modifyAll (hbounded : Roller.Bounded ρ) (hw : g.Writable)
    (hmin : ∀ bound, .clamp (.minimum bound) ∉ g.modifiers)
    (hfirst : Pool.roll c.groups g.count.toNat g.sides { c with groups := c.groups + 1 } =
      (.ok first, middle))
    (hlast : first.modifyAll g.modifiers middle = ⟨last, none, after⟩) :
    ∀ d ∈ last.markSuccesses.dice, d.Fits g.sides := by
  obtain ⟨hsides, hnew⟩ := Pool.roll_fits hbounded hfirst
  have hfits := Pool.modifyAll_fits (c := middle) hbounded hw.2 hmin hnew
  rw [hlast, hsides] at hfits
  exact last.markSuccesses_fits hfits

theorem settlesWithin (hbounded : Roller.Bounded ρ) (hanswers : Roller.NeverOverflows ρ)
    (hw : g.Writable) (hcap : c.limits.maxRolls = some m) (hm : m ≤ 2 ^ 31) :
    ((∀ bound, .clamp (.minimum bound) ∉ g.modifiers) → g.SettlesWithin (m * g.sides.toNat) c) ∧
      ((∃ condition, .countSuccesses condition ∈ g.modifiers) → g.SettlesWithin m c) := by
  have hsafe {bound : Nat} (hbound : bound ≤ maxSides) : ((m * bound : Nat) : Int) ≤ maxInt := by
    have hproduct : m * bound ≤ 2 ^ 31 * maxSides := Nat.mul_le_mul hm hbound
    exact Int.le_trans (Int.ofNat_le.2 hproduct) (by decide)
  constructor
  · intro hmin
    exact settlesWithin_of_modifyAll hanswers hcap g.sides.pos (hsafe g.sides.le_max)
      fun hfirst hlast d hd _ => fits_of_modifyAll hbounded hw hmin hfirst hlast d hd
  · intro hcounts
    have hone := settlesWithin_of_modifyAll hanswers hcap (Nat.le_refl 1) (hsafe (by decide))
      fun hfirst hlast d hd hnone => by
        obtain ⟨faces, rfl, -⟩ := Pool.roll_yields hfirst
        have hmarked := Pool.isSome_success_of_modifyAll hlast d hd
        rw [hnone, (Modifier.isSome_lastSuccessCondition?_iff g.modifiers).2 hcounts] at hmarked
        cases hmarked
    rwa [Nat.mul_one] at hone

end DiceGroup

namespace Expr

/-- Under a cap of at most `2 ^ 31` rolls no group of dice read from a text overflows, provided that no
minimum raises its values or that it counts successes. -/
theorem settlesWithin_of_parse (hbounded : Roller.Bounded ρ) (hanswers : Roller.NeverOverflows ρ)
    {text : String} {e : Expr} {g : DiceGroup} (hparse : Expr.parse text = .ok e) (hmem : g ∈ e.groups)
    {c : Context ρ} {m : Nat} (hcap : c.limits.maxRolls = some m) (hm : m ≤ 2 ^ 31) :
    ((∀ bound, .clamp (.minimum bound) ∉ g.modifiers) → g.SettlesWithin (m * g.sides.toNat) c) ∧
      ((∃ condition, .countSuccesses condition ∈ g.modifiers) → g.SettlesWithin m c) :=
  DiceGroup.settlesWithin hbounded hanswers (writable_of_mem_groups (writable_of_parse hparse) hmem)
    hcap hm

/-- Sixes explode, and then nothing counts for more than five. -/
def cappedDice : DiceGroup :=
  ⟨⟨8, by decide, by decide⟩, .usual, [.explode .recursive (.equalTo 6), .clamp (.maximum 5)]⟩

/-- Values beyond the sides, which are only counted. -/
def raisedDice : DiceGroup :=
  ⟨⟨7, by decide, by decide⟩, .usual, [.countSuccesses (.equalTo 9), .clamp (.minimum 9)]⟩

theorem cappedDice_settlesWithin :
    Roller.Bounded Playback ∧ Roller.NeverOverflows Playback ∧
      Expr.parse "8d6!ma5-7d6cs9mi9" = .ok (.binary .sub (.dice cappedDice) (.dice raisedDice)) ∧
      cappedDice.SettlesWithin (2 ^ 31 * 6) (.start ⟨some (2 ^ 31), 100, 0⟩ (Playback.ofList [6, 4])) ∧
      raisedDice.SettlesWithin 10 (.start ⟨some 10, 100, 0⟩ (Playback.ofList [6, 4])) := by
  have hanswers : Roller.NeverOverflows Playback := Playback.reliable.neverOverflows
  have hparse : Expr.parse "8d6!ma5-7d6cs9mi9" =
      .ok (.binary .sub (.dice cappedDice) (.dice raisedDice)) := by decide
  refine ⟨Playback.bounded, hanswers, hparse, ?_, ?_⟩
  · exact (settlesWithin_of_parse Playback.bounded hanswers hparse (by simp [groups]) rfl
      (Nat.le_refl _)).1 (by simp [cappedDice])
  · exact (settlesWithin_of_parse Playback.bounded hanswers hparse (by simp [groups]) rfl
      (by decide)).2 ⟨.equalTo 9, by simp [raisedDice]⟩

end Expr

end Rolling

end DiceNotation
