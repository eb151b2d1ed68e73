import DiceNotation.Proofs.Plays.Groups
import DiceNotation.Proofs.Plays.Running

/-!
# Dice are conserved

A die that is replaced or explodes owes one more roll, and a die that was rolled for another pays for
it. `Account` counts both, once for rerolls and once for explosions. While a modifier is at work a
die may owe; when it is done every debt is paid, so dice neither get lost nor appear from nowhere.
-/

namespace DiceNotation

variable {ρ : Type}

/-- Which dice owe another roll, and which were rolled to pay for one. -/
structure Account where
  owes : Die → Bool
  pays : Die → Bool

namespace Account

/-- A replaced die is paid for by a die of a reroll. -/
def rerolls : Account := ⟨(·.status == .rerolled), (·.source == .reroll)⟩

/-- A die that exploded is paid for by a die of an explosion. -/
def explosions : Account := ⟨(·.exploded), (·.source == .explosion)⟩

/-- What has been paid beyond what is owed. -/
def balance (a : Account) (dice : List Die) : Int := dice.countP a.pays - dice.countP a.owes

@[simp] theorem balance_nil (a : Account) : a.balance [] = 0 := rfl

theorem balance_singleton (a : Account) (d : Die) :
    a.balance [d] = (if a.pays d then 1 else 0) - if a.owes d then 1 else 0 := by
  unfold balance
  rw [List.countP_singleton, List.countP_singleton]
  push_cast
  rfl

theorem balance_append (a : Account) (front back : List Die) :
    a.balance (front ++ back) = a.balance front + a.balance back := by
  simp only [balance, List.countP_append]
  omega

theorem balance_cons (a : Account) (d : Die) (dice : List Die) :
    a.balance (d :: dice) = a.balance [d] + a.balance dice := a.balance_append [d] dice

@[simp] theorem balance_reverse (a : Account) (dice : List Die) :
    a.balance dice.reverse = a.balance dice := by
  simp only [balance, List.countP_reverse]

/-- An account that the mark of a firing die and the answer to it leave as it was. -/
def IsSettledBy (a : Account) (fires : Die → Bool) (mark : Die → Die)
    (answer : Context ρ → Run ρ (List Die)) : Prop :=
  ∃ price, (∀ d, fires d = true → a.balance [mark d] + price = a.balance [d]) ∧
    ∀ c, (answer c).failure = none → a.balance (answer c).value = price

end Account

/-! ## Sweeps -/

namespace Sweep

variable {fires : Die → Bool} {mark : Die → Die} {answer : Context ρ → Run ρ (List Die)}

theorem balance_runFrom {a : Account} (h : a.IsSettledBy fires mark answer)
    {passed rolled dice : List Die} {c : Context ρ}
    (hok : (runFrom fires mark answer passed rolled dice c).failure = none) :
    a.balance (runFrom fires mark answer passed rolled dice c).value.dice =
      a.balance passed + a.balance rolled + a.balance dice := by
  obtain ⟨price, hmark, hprice⟩ := h
  fun_induction runFrom fires mark answer passed rolled dice c with
  | case1 passed rolled c => simp [Sweep.dice, Account.balance_append]
  | case2 => cases hok
  | case3 passed rolled d rest c hd new hnew ih =>
    have hcost := hmark d hd
    have hpaid : a.balance new.value = price := hprice c hnew
    rw [ih hok, a.balance_cons (mark d), List.reverseAux_eq, a.balance_append, a.balance_reverse,
      a.balance_cons d rest]
    omega
  | case4 passed rolled d rest c hd ih =>
    rw [ih hok, a.balance_cons d passed, a.balance_cons d rest]
    omega

/-- A sweep changes no die it goes through beyond its mark. -/
theorem map_passed_runFrom {α : Type} {f : Die → α} (hmark : ∀ d, f (mark d) = f d)
    (passed rolled dice : List Die) (c : Context ρ) :
    (runFrom fires mark answer passed rolled dice c).value.passed.map f =
      (passed.reverse ++ dice).map f := by
  fun_induction runFrom fires mark answer passed rolled dice c with
  | case1 passed rolled c => simp
  | case2 passed rolled d rest c hd new e hnew => simp [List.reverseAux_eq, hmark]
  | case3 passed rolled d rest c hd new hnew ih =>
    rw [ih]
    simp [hmark]
  | case4 passed rolled d rest c hd ih =>
    rw [ih]
    simp

/-- All that a sweep rolls are answers. -/
theorem forall_rolled_runFrom {P : Die → Prop} (hanswer : ∀ c, ∀ d ∈ (answer c).value, P d)
    (passed rolled dice : List Die) (c : Context ρ) (hrolled : ∀ d ∈ rolled, P d) :
    ∀ d ∈ (runFrom fires mark answer passed rolled dice c).value.rolled, P d := by
  fun_induction runFrom fires mark answer passed rolled dice c with
  | case1 passed rolled c => simpa using hrolled
  | case2 passed rolled d rest c hd new e hnew =>
    intro d' hd'
    exact (List.mem_reverseAux.1 hd').elim (hrolled d') (hanswer c d')
  | case3 passed rolled d rest c hd new hnew ih =>
    refine ih fun d' hd' => ?_
    exact (List.mem_reverseAux.1 hd').elim (hanswer c d') (hrolled d')
  | case4 passed rolled d rest c hd ih => exact ih hrolled

end Sweep

/-! ## What a modifier keeps -/

namespace Die

/-- What a die was rolled for and the face it showed. -/
def origin (d : Die) : Source × Int := (d.source, d.rolled)

theorem origin_replace (d : Die) : d.replace.origin = d.origin := rfl

theorem origin_explode (d : Die) : d.explode.origin = d.origin := rfl

end Die

/-- The origin of a die that was rolled after the first dice of its group. -/
def IsLater (sides : Sides) (origin : Source × Int) : Prop :=
  origin.1 ≠ .initial ∧ 1 ≤ origin.2 ∧ origin.2 ≤ sides.top

/-- Behind the dice from before come later ones, and no debt is left unpaid. -/
structure Conserves (sides : Sides) (before after : List Die) : Prop where
  origins : ∃ later, after.map Die.origin = before.map Die.origin ++ later ∧
    ∀ o ∈ later, IsLater sides o
  rerolls : Account.rerolls.balance after = Account.rerolls.balance before
  explosions : Account.explosions.balance after = Account.explosions.balance before

namespace Conserves

variable {sides : Sides} {a b c : List Die}

theorem refl (sides : Sides) (dice : List Die) : Conserves sides dice dice :=
  ⟨⟨[], by simp, by simp⟩, rfl, rfl⟩

theorem trans (h : Conserves sides a b) (h' : Conserves sides b c) : Conserves sides a c := by
  obtain ⟨later, hb, hlater⟩ := h.origins
  obtain ⟨later', hc, hlater'⟩ := h'.origins
  refine ⟨⟨later ++ later', ?_, ?_⟩, h'.rerolls.trans h.rerolls, h'.explosions.trans h.explosions⟩
  · rw [hc, hb, List.append_assoc]
  · intro o ho
    exact (List.mem_append.1 ho).elim (hlater o) (hlater' o)

theorem append_left (front : List Die) (h : Conserves sides a b) :
    Conserves sides (front ++ a) (front ++ b) := by
  obtain ⟨later, hb, hlater⟩ := h.origins
  refine ⟨⟨later, ?_, hlater⟩, ?_, ?_⟩
  · rw [List.map_append, List.map_append, hb, List.append_assoc]
  · rw [Account.balance_append, Account.balance_append, h.rerolls]
  · rw [Account.balance_append, Account.balance_append, h.explosions]

/-- What becomes of the value and the standing of dice does not matter. -/
theorem of_map_eq (sides : Sides)
    (h : a.map (fun d => (d.origin, d.status == .rerolled, d.exploded)) =
      b.map fun d => (d.origin, d.status == .rerolled, d.exploded)) : Conserves sides a b := by
  have hcount (p : (Source × Int) × Bool × Bool → Bool) :
      b.countP (fun d => p (d.origin, d.status == .rerolled, d.exploded)) =
        a.countP fun d => p (d.origin, d.status == .rerolled, d.exploded) := by
    have hmap := congrArg (List.countP p) h.symm
    rwa [List.countP_map, List.countP_map] at hmap
  have horigins : b.map Die.origin = a.map Die.origin := by
    have hmap := congrArg (List.map Prod.fst) h.symm
    rwa [List.map_map, List.map_map] at hmap
  refine ⟨⟨[], by simpa using horigins, by simp⟩, ?_, ?_⟩
  · have hpays := hcount fun r => r.1.1 == .reroll
    have howes := hcount fun r => r.2.1
    exact congrArg₂ (fun x y : Nat => (x : Int) - y) hpays howes
  · have hpays := hcount fun r => r.1.1 == .explosion
    have howes := hcount fun r => r.2.2
    exact congrArg₂ (fun x y : Nat => (x : Int) - y) hpays howes

/-- A sweep conserves dice if its answers pay for its marks. -/
theorem of_sweep {fires : Die → Bool} {mark : Die → Die} {answer : Context ρ → Run ρ (List Die)}
    (hmark : ∀ d, (mark d).origin = d.origin)
    (hanswer : ∀ c, ∀ d ∈ (answer c).value, IsLater sides d.origin)
    (hrerolls : Account.rerolls.IsSettledBy fires mark answer)
    (hexplosions : Account.explosions.IsSettledBy fires mark answer) {dice : List Die}
    {c : Context ρ} (hok : (Sweep.run fires mark answer dice c).failure = none) :
    Conserves sides dice (Sweep.run fires mark answer dice c).value.dice := by
  refine ⟨⟨(Sweep.run fires mark answer dice c).value.rolled.map Die.origin, ?_, ?_⟩, ?_, ?_⟩
  · rw [Sweep.dice, List.map_append, Sweep.run, Sweep.map_passed_runFrom hmark]
    rfl
  · intro o ho
    obtain ⟨d, hd, rfl⟩ := List.mem_map.1 ho
    exact Sweep.forall_rolled_runFrom hanswer [] [] dice c (by simp) d hd
  · simpa [Sweep.run] using Sweep.balance_runFrom hrerolls hok
  · simpa [Sweep.run] using Sweep.balance_runFrom hexplosions hok

end Conserves

/-! ## Rolling more dice -/

section Rolling

variable [Roller ρ]

theorem Context.rollOne_bounds (hbounded : Roller.Bounded ρ) {c after : Context ρ} {sides : Sides}
    {face : Int} (h : c.rollOne sides = (.ok face, after)) : 1 ≤ face ∧ face ≤ sides.top := by
  obtain ⟨-, hanswer, -⟩ := Context.of_rollOne_eq_ok h
  exact hbounded _ _ _ _ sides.one_le_top hanswer

namespace DieKind

variable {k : DieKind}

theorem roll_value (source : Source) {c : Context ρ} (hok : (k.roll source c).failure = none) :
    ∃ face, (k.roll source c).value = [.fresh k.group face source] := by
  cases hroll : c.rollOne k.sides with
  | mk answer after =>
    simp only [roll, hroll] at hok ⊢
    cases answer with
    | ok face => exact ⟨face, rfl⟩
    | error e => cases hok

theorem roll_isLater (hbounded : Roller.Bounded ρ) {source : Source} (hsource : source ≠ .initial)
    (c : Context ρ) : ∀ d ∈ (k.roll source c).value, IsLater k.sides d.origin := by
  unfold roll
  split
  · next face after hroll =>
    intro d hd
    rw [List.mem_singleton.1 hd]
    exact ⟨hsource, Context.rollOne_bounds hbounded hroll⟩
  · simp

theorem rerollFrom_isLater (hbounded : Roller.Bounded ρ) (condition : Condition) (limit : Nat)
    (rolled : List Die) (left : Nat) (c : Context ρ)
    (hrolled : ∀ d ∈ rolled, IsLater k.sides d.origin) :
    ∀ d ∈ (k.rerollFrom condition limit rolled left c).value, IsLater k.sides d.origin := by
  have hdie {c after : Context ρ} {face : Int} (hroll : c.rollOne k.sides = (.ok face, after)) :
      IsLater k.sides (Die.fresh k.group face .reroll).origin :=
    ⟨Source.noConfusion, Context.rollOne_bounds hbounded hroll⟩
  fun_induction rerollFrom k condition limit rolled left c with
  | case1 rolled left c e after hroll => simpa using hrolled
  | case2 rolled c face after hroll die hface =>
    have hall : ∀ d ∈ die :: rolled, IsLater k.sides d.origin :=
      List.forall_mem_cons.2 ⟨hdie hroll, hrolled⟩
    exact fun d hd => hall d (List.mem_reverse.1 hd)
  | case3 rolled c face after hroll die hface left ih =>
    exact ih (List.forall_mem_cons.2 ⟨hdie hroll, hrolled⟩)
  | case4 rolled left c face after hroll die hface =>
    have hall : ∀ d ∈ die :: rolled, IsLater k.sides d.origin :=
      List.forall_mem_cons.2 ⟨hdie hroll, hrolled⟩
    exact fun d hd => hall d (List.mem_reverse.1 hd)

/-- The last die of a chain of rerolls pays; those before pay for each other. -/
theorem balance_rerollFrom (a : Account) {price : Int}
    (hfresh : ∀ face, a.balance [.fresh k.group face .reroll] = price)
    (hreplaced : ∀ face, a.balance [(Die.fresh k.group face .reroll).replace] = 0)
    (condition : Condition) (limit : Nat) {rolled : List Die} {left : Nat} {c : Context ρ}
    (hok : (k.rerollFrom condition limit rolled left c).failure = none) :
    a.balance (k.rerollFrom condition limit rolled left c).value = a.balance rolled + price := by
  fun_induction rerollFrom k condition limit rolled left c with
  | case1 => cases hok
  | case2 => cases hok
  | case3 rolled c face after hroll die hface left ih =>
    rw [ih hok, a.balance_cons, hreplaced]
    omega
  | case4 rolled left c face after hroll die hface =>
    rw [a.balance_reverse, a.balance_cons, hfresh]
    omega

theorem reroll_isLater (hbounded : Roller.Bounded ρ) (repeats : Repeats) (condition : Condition)
    (c : Context ρ) : ∀ d ∈ (k.reroll repeats condition c).value, IsLater k.sides d.origin := by
  cases repeats with
  | once => exact roll_isLater hbounded Source.noConfusion c
  | recursive => exact rerollFrom_isLater hbounded condition _ [] _ c (by simp)

theorem balance_reroll (a : Account) {price : Int}
    (hfresh : ∀ face, a.balance [.fresh k.group face .reroll] = price)
    (hreplaced : ∀ face, a.balance [(Die.fresh k.group face .reroll).replace] = 0)
    (repeats : Repeats) (condition : Condition) {c : Context ρ}
    (hok : (k.reroll repeats condition c).failure = none) :
    a.balance (k.reroll repeats condition c).value = price := by
  cases repeats with
  | once =>
    obtain ⟨face, hvalue⟩ := roll_value .reroll hok
    rw [reroll, hvalue, hfresh]
  | recursive =>
    have hvalue := balance_rerollFrom a hfresh hreplaced condition _ hok
    rwa [a.balance_nil, zero_add] at hvalue

end DieKind

namespace Account

variable (k : DieKind) (condition : Condition)

theorem rerolls_isSettledBy_reroll (repeats : Repeats) :
    rerolls.IsSettledBy (·.meets condition) Die.replace
      (k.reroll repeats condition : Context ρ → Run ρ (List Die)) := by
  refine ⟨1, fun d hd => ?_, fun c => k.balance_reroll rerolls (fun _ => rfl) (fun _ => rfl) _ _⟩
  have hkept : d.status = .kept := Die.status_of_meets hd
  simp [balance_singleton, rerolls, Die.replace, hkept]

theorem explosions_isSettledBy_reroll (repeats : Repeats) :
    explosions.IsSettledBy (·.meets condition) Die.replace
      (k.reroll repeats condition : Context ρ → Run ρ (List Die)) :=
  ⟨0, fun _ _ => by simp [balance_singleton, explosions, Die.replace],
    fun c => k.balance_reroll explosions (fun _ => rfl) (fun _ => rfl) _ _⟩

theorem rerolls_isSettledBy_explosion :
    rerolls.IsSettledBy (·.ignites condition) Die.explode
      (k.roll .explosion : Context ρ → Run ρ (List Die)) := by
  refine ⟨0, fun d _ => by simp [balance_singleton, rerolls, Die.explode], fun c hok => ?_⟩
  obtain ⟨face, hvalue⟩ := DieKind.roll_value .explosion hok
  rw [hvalue]
  rfl

/-- A die that ignites has not exploded before, so that it owes nothing yet. -/
theorem explosions_isSettledBy_explosion :
    explosions.IsSettledBy (·.ignites condition) Die.explode
      (k.roll .explosion : Context ρ → Run ρ (List Die)) := by
  refine ⟨1, fun d hd => ?_, fun c hok => ?_⟩
  · have hfresh : d.exploded = false := by
      simp only [Die.ignites, Bool.and_eq_true, Bool.not_eq_true'] at hd
      exact hd.2
    simp [balance_singleton, explosions, Die.explode, hfresh]
  · obtain ⟨face, hvalue⟩ := DieKind.roll_value .explosion hok
    rw [hvalue]
    rfl

end Account

/-! ## Modifiers -/

namespace Explosion

variable {k : DieKind} {condition : Condition}

theorem sweep_conserves (hbounded : Roller.Bounded ρ) {wave : List Die} {c : Context ρ}
    (hok : (sweep k condition wave c).failure = none) :
    Conserves k.sides wave (sweep k condition wave c).value.dice :=
  .of_sweep Die.origin_explode (DieKind.roll_isLater hbounded Source.noConfusion)
    (Account.rerolls_isSettledBy_explosion k condition)
    (Account.explosions_isSettledBy_explosion k condition) hok

/-- Each wave pays for the one before it. -/
theorem wavesFrom_conserves (hbounded : Roller.Bounded ρ) {limit : Nat} {done : List Die}
    {left : Nat} {wave : List Die} {c : Context ρ}
    (hok : (wavesFrom k condition limit done left wave c).failure = none) :
    Conserves k.sides (done.reverse ++ wave)
      (wavesFrom k condition limit done left wave c).value := by
  fun_induction wavesFrom k condition limit done left wave c with
  | case1 done wave c =>
    rw [List.reverseAux_eq]
    exact .refl _ _
  | case2 => cases hok
  | case3 done left wave c s hs hnew =>
    have hdice : s.value.dice = s.value.passed := by
      rw [Sweep.dice, List.isEmpty_iff.1 hnew, List.append_nil]
    have hsweep : Conserves k.sides wave s.value.dice := sweep_conserves hbounded hs
    rw [List.reverseAux_eq, ← hdice]
    exact hsweep.append_left done.reverse
  | case4 done left wave c s hs hnew ih =>
    have hsweep : Conserves k.sides wave s.value.dice := sweep_conserves hbounded hs
    have hdone : (s.value.passed.reverseAux done).reverse ++ s.value.rolled =
        done.reverse ++ s.value.dice := by
      rw [List.reverseAux_eq, List.reverse_append, List.reverse_reverse, List.append_assoc]
      rfl
    exact (hsweep.append_left done.reverse).trans (hdone ▸ ih hok)

theorem run_conserves (hbounded : Roller.Bounded ρ) {repeats : Repeats} {dice : List Die}
    {c : Context ρ} (hok : (run k repeats condition dice c).failure = none) :
    Conserves k.sides dice (run k repeats condition dice c).value := by
  cases repeats with
  | once => exact sweep_conserves hbounded hok
  | recursive => exact wavesFrom_conserves hbounded hok

end Explosion

namespace Pool

theorem isKept_of_mem_ranking {rank : Rank} {dice : List Die} {i : Nat}
    (h : i ∈ ranking rank dice) {d : Die} (hd : dice[i]? = some d) : d.isKept = true := by
  obtain ⟨⟨d', j⟩, hmem, rfl⟩ := List.mem_map.1 h
  rw [List.mem_mergeSort, keptDice, List.mem_filter] at hmem
  rw [List.mk_mem_zipIdx_iff_getElem?.1 hmem.1] at hd
  cases hd
  exact hmem.2

/-- Only dice in play are dropped, so that no replaced die is forgotten. -/
theorem dropAt_conserves (sides : Sides) {positions : List Nat} {dice : List Die}
    (h : ∀ i ∈ positions, ∀ d, dice[i]? = some d → d.isKept = true) :
    Conserves sides dice (dropAt positions dice) := by
  refine .of_map_eq _ (map_dropAt fun i hi d hd => ?_).symm
  have hstatus : d.status = .kept := beq_iff_eq.1 (h i hi d hd)
  simp [Die.drop, Die.origin, hstatus]

/-- A selection drops dice in play only. -/
theorem exists_select_eq (s : Selection) (p : Pool) :
    ∃ positions, (p.select s).dice = dropAt positions p.dice ∧
      ∀ i ∈ positions, ∀ d, p.dice[i]? = some d → d.isKept = true := by
  refine ⟨_, rfl, fun i hi d hd => ?_⟩
  have hranked : i ∈ ranking s.rank p.dice := by
    split at hi
    · exact List.mem_of_mem_drop hi
    · exact List.mem_of_mem_take hi
  exact isKept_of_mem_ranking hranked hd

theorem select_conserves (s : Selection) (p : Pool) :
    Conserves p.sides p.dice (p.select s).dice := by
  obtain ⟨positions, hselect, hkept⟩ := p.exists_select_eq s
  rw [hselect]
  exact dropAt_conserves p.sides hkept

theorem clamp_conserves (bound : Clamp) (p : Pool) :
    Conserves p.sides p.dice (p.clamp bound).dice :=
  .of_map_eq _ (p.map_clamp (fun _ _ => rfl) bound).symm

theorem modify_conserves (hbounded : Roller.Bounded ρ) {p : Pool} {m : Modifier} {c : Context ρ}
    (hok : (p.modify m c).failure = none) :
    Conserves p.sides p.dice (p.modify m c).value.dice := by
  cases m with
  | select s => exact p.select_conserves s
  | clamp bound => exact p.clamp_conserves bound
  | countSuccesses condition => exact .refl _ _
  | reroll repeats condition =>
    exact .of_sweep Die.origin_replace (p.kind.reroll_isLater hbounded repeats condition)
      (Account.rerolls_isSettledBy_reroll p.kind condition repeats)
      (Account.explosions_isSettledBy_reroll p.kind condition repeats) hok
  | explode repeats condition => exact Explosion.run_conserves (k := p.kind) hbounded hok

theorem modify_sides (p : Pool) (m : Modifier) (c : Context ρ) :
    (p.modify m c).value.sides = p.sides := by
  cases m <;> rfl

theorem modifyAll_conserves (hbounded : Roller.Bounded ρ) {modifiers : List Modifier} {p : Pool}
    {c : Context ρ} (hok : (p.modifyAll modifiers c).failure = none) :
    Conserves p.sides p.dice (p.modifyAll modifiers c).value.dice := by
  fun_induction modifyAll modifiers p c with
  | case1 p c => exact .refl _ _
  | case2 m rest p c r e hr =>
    rw [hr] at hok
    cases hok
  | case3 m rest p c r hr ih =>
    have hm : Conserves p.sides p.dice r.value.dice := modify_conserves hbounded hr
    have hsides : r.value.sides = p.sides := p.modify_sides m c
    exact hm.trans (hsides ▸ ih hok)

end Pool

/-! ## Whole groups -/

namespace DieKind

theorem rollFrom_value (hbounded : Roller.Bounded ρ) {k : DieKind} {rolled : List Die} {n : Nat}
    {c : Context ρ} (hok : (k.rollFrom rolled n c).failure = none) :
    ∃ faces : List Int, (k.rollFrom rolled n c).value =
        rolled.reverse ++ faces.map (.fresh k.group · .initial) ∧
      faces.length = n ∧ ∀ face ∈ faces, 1 ≤ face ∧ face ≤ k.sides.top := by
  fun_induction rollFrom k rolled n c with
  | case1 rolled c => exact ⟨[], by simp, rfl, by simp⟩
  | case2 rolled n c face after hroll ih =>
    obtain ⟨faces, hvalue, hlength, hfaces⟩ := ih hok
    refine ⟨face :: faces, ?_, by rw [List.length_cons, hlength], ?_⟩
    · rw [hvalue, List.reverse_cons, List.append_assoc]
      rfl
    · exact List.forall_mem_cons.2 ⟨Context.rollOne_bounds hbounded hroll, hfaces⟩
  | case3 => cases hok

end DieKind

theorem Account.balance_initial (a : Account) (group : Nat)
    (hfresh : ∀ face, a.balance [.fresh group face .initial] = 0) (faces : List Int) :
    a.balance (faces.map (.fresh group · .initial)) = 0 := by
  induction faces with
  | nil => rfl
  | cons face faces ih => rw [List.map_cons, a.balance_cons, hfresh, ih, add_zero]

/-- The dice of a group: those rolled first, and one more for each die rerolled or exploded. -/
structure DiceGroup.Conserved (g : DiceGroup) (dice : List Die) : Prop where
  initial : ∃ later, dice.map Die.source = List.replicate g.count.toNat .initial ++ later ∧
    .initial ∉ later
  rerolls : dice.countP (·.source == .reroll) = dice.countP (·.status == .rerolled)
  explosions : dice.countP (·.source == .explosion) = dice.countP (·.exploded)
  inPlay : dice.countP (·.status == .kept) + dice.countP (·.status == .dropped) =
    g.count.toNat + dice.countP (·.source == .explosion)
  faces : ∀ d ∈ dice, 1 ≤ d.rolled ∧ d.rolled ≤ g.sides.top
  counted : (∃ condition, .countSuccesses condition ∈ g.modifiers) →
    ∀ d ∈ dice, d.success.isSome = true
  uncounted : (∀ condition, .countSuccesses condition ∉ g.modifiers) → ∀ d ∈ dice, d.success = none

namespace Pool

theorem countP_status (dice : List Die) :
    dice.countP (·.status == .kept) + dice.countP (·.status == .dropped) +
      dice.countP (·.status == .rerolled) = dice.length := by
  induction dice with
  | nil => rfl
  | cons d dice ih =>
    simp only [List.countP_cons, List.length_cons]
    cases d.status <;> simp <;> omega

theorem countP_source (dice : List Die) :
    dice.countP (·.source == .initial) + dice.countP (·.source == .reroll) +
      dice.countP (·.source == .explosion) = dice.length := by
  induction dice with
  | nil => rfl
  | cons d dice ih =>
    simp only [List.countP_cons, List.length_cons]
    cases d.source <;> simp <;> omega

end Pool

namespace Modifier

theorem isSome_lastSuccessCondition?_iff (modifiers : List Modifier) :
    (lastSuccessCondition? modifiers).isSome = true ↔
      ∃ condition, .countSuccesses condition ∈ modifiers := by
  unfold lastSuccessCondition?
  rw [List.isSome_findSome?, List.any_reverse, List.any_eq_true]
  constructor
  · rintro ⟨m, hm, hcondition⟩
    cases m with
    | countSuccesses condition => exact ⟨condition, hm⟩
    | _ => cases hcondition
  · rintro ⟨condition, hm⟩
    exact ⟨_, hm, rfl⟩

end Modifier

namespace Pool

theorem markSuccesses_conserves (sides : Sides) (p : Pool) :
    Conserves sides p.dice p.markSuccesses.dice :=
  .of_map_eq sides (p.map_markSuccesses fun _ _ => rfl).symm

theorem isSome_success_markSuccesses {p : Pool} (hp : p.Unmarked) :
    ∀ d ∈ p.markSuccesses.dice, d.success.isSome = p.successes.isSome := by
  unfold markSuccesses
  split
  · next hnone =>
    intro d hd
    rw [hp d hd, hnone]
    rfl
  · next condition hsome =>
    intro d hd
    obtain ⟨d', -, rfl⟩ := List.mem_map.1 hd
    rw [hsome]
    rfl

end Pool

namespace Pool

theorem roll_value (hbounded : Roller.Bounded ρ) {index count : Nat} {sides : Sides}
    {c after : Context ρ} {p : Pool} (h : Pool.roll index count sides c = (.ok p, after)) :
    ∃ faces : List Int, p = ⟨index, sides, faces.map (.fresh index · .initial), none⟩ ∧
      faces.length = count ∧ ∀ face ∈ faces, 1 ≤ face ∧ face ≤ sides.top := by
  obtain ⟨-, hp, hrolled⟩ := of_roll_eq_ok h
  obtain ⟨faces, hvalue, hlength, hfaces⟩ :=
    DieKind.rollFrom_value hbounded (congrArg Run.failure hrolled)
  rw [hrolled, List.reverse_nil, List.nil_append] at hvalue
  exact ⟨faces, hp.trans (congrArg (Pool.mk index sides · none) hvalue), hlength, hfaces⟩

theorem modified_of_modifyAll {p last : Pool} {modifiers : List Modifier} {c after : Context ρ}
    (h : p.modifyAll modifiers c = ⟨last, none, after⟩) :
    ∃ faces, p.Modified modifiers faces last := by
  obtain ⟨t, hleads, -, -, hrun⟩ := p.plays_modifyAll modifiers
  have hplayed : t.run c = ⟨last, none, after⟩ := (hrun ρ c).symm.trans h
  have hvalue := hleads.value (c := c)
  rw [hplayed] at hvalue
  exact ⟨_, hvalue rfl⟩

theorem Modified.unmarked {p after : Pool} {modifiers : List Modifier} {faces : List Int}
    (h : p.Modified modifiers faces after) (hp : p.Unmarked) : after.Unmarked := by
  intro d hd
  have himprint : d.imprint ∈ after.dice.map Die.imprint := List.mem_map_of_mem hd
  rw [h.dice, List.mem_append] at himprint
  rcases himprint with himprint | himprint
  · obtain ⟨d', hd', heq⟩ := List.mem_map.1 himprint
    exact (congrArg Imprint.success heq).symm.trans (hp d' hd')
  · obtain ⟨face, -, heq⟩ := List.mem_map.1 himprint
    exact (congrArg Imprint.success heq).symm

/-- In a pool of new dice that its modifiers have gone through, either all dice get marked or none. -/
theorem isSome_success_of_modifyAll {index : Nat} {sides : Sides} {faces : List Int}
    {modifiers : List Modifier} {c after : Context ρ} {last : Pool}
    (h : Pool.modifyAll modifiers ⟨index, sides, faces.map (.fresh index · .initial), none⟩ c =
      ⟨last, none, after⟩) :
    ∀ d ∈ last.markSuccesses.dice,
      d.success.isSome = (Modifier.lastSuccessCondition? modifiers).isSome := by
  obtain ⟨_, hmodified⟩ := modified_of_modifyAll h
  have hfresh : Pool.Unmarked ⟨index, sides, faces.map (.fresh index · .initial), none⟩ := by
    intro d hd
    obtain ⟨face, -, rfl⟩ := List.mem_map.1 hd
    rfl
  have hsuccesses := hmodified.successes
  rw [Option.or_none] at hsuccesses
  rw [← hsuccesses]
  exact isSome_success_markSuccesses (hmodified.unmarked hfresh)

end Pool

namespace DiceGroup

variable {g : DiceGroup} {dice : List Die}

theorem countP_initial {n : Nat} {later : List Source}
    (h : dice.map Die.source = List.replicate n .initial ++ later) (hlater : .initial ∉ later) :
    dice.countP (·.source == .initial) = n := by
  have hcount : dice.countP (·.source == .initial) = (dice.map Die.source).count .initial := by
    rw [List.count, List.countP_map]
    rfl
  rw [hcount, h, List.count_append, List.count_replicate_self, List.count_eq_zero_of_not_mem hlater,
    Nat.add_zero]

theorem conserved_of_conserves {index : Nat} {faces : List Int}
    (hlength : faces.length = g.count.toNat)
    (hfaces : ∀ face ∈ faces, 1 ≤ face ∧ face ≤ g.sides.top)
    (h : Conserves g.sides (faces.map (.fresh index · .initial)) dice)
    (hsuccess : ∀ d ∈ dice,
      d.success.isSome = (Modifier.lastSuccessCondition? g.modifiers).isSome) :
    g.Conserved dice := by
  obtain ⟨later, horigins, hlater⟩ := h.origins
  have hsources : dice.map Die.source =
      List.replicate g.count.toNat .initial ++ later.map Prod.fst := by
    have hfst := congrArg (List.map Prod.fst) horigins
    rw [List.map_append, List.map_map, List.map_map, List.map_map] at hfst
    rw [← hlength, ← List.map_const']
    exact hfst
  have hinitial : .initial ∉ later.map Prod.fst := by
    intro hmem
    obtain ⟨o, ho, heq⟩ := List.mem_map.1 hmem
    exact (hlater o ho).1 heq
  have hrerolls : dice.countP (·.source == .reroll) = dice.countP (·.status == .rerolled) := by
    have hbalance := h.rerolls
    rw [Account.balance_initial _ index fun _ => rfl] at hbalance
    simp only [Account.balance, Account.rerolls] at hbalance
    omega
  have hexplosions : dice.countP (·.source == .explosion) = dice.countP (·.exploded) := by
    have hbalance := h.explosions
    rw [Account.balance_initial _ index fun _ => rfl] at hbalance
    simp only [Account.balance, Account.explosions] at hbalance
    omega
  have hmarked := Modifier.isSome_lastSuccessCondition?_iff g.modifiers
  refine ⟨⟨_, hsources, hinitial⟩, hrerolls, hexplosions, ?_, ?_, ?_, ?_⟩
  · have hcount := countP_initial hsources hinitial
    have hstatus := Pool.countP_status dice
    have hsource := Pool.countP_source dice
    omega
  · intro d hd
    have horigin : d.origin ∈ dice.map Die.origin := List.mem_map_of_mem hd
    rw [horigins, List.mem_append, List.map_map] at horigin
    rcases horigin with horigin | horigin
    · obtain ⟨face, hface, heq⟩ := List.mem_map.1 horigin
      have hrolled : face = d.rolled := congrArg Prod.snd heq
      exact hrolled ▸ hfaces face hface
    · exact (hlater _ horigin).2
  · intro hcounts d hd
    rw [hsuccess d hd, hmarked]
    exact hcounts
  · intro hnone d hd
    rw [← Option.not_isSome_iff_eq_none, hsuccess d hd, hmarked]
    rintro ⟨condition, hcondition⟩
    exact hnone condition hcondition

/-- However its modifiers reroll, explode, select and clamp, a group loses no dice and makes none up. -/
theorem roll_conserved (hbounded : Roller.Bounded ρ) {c after : Context ρ} {e : Evaluated}
    (h : g.roll c = (.ok e, after)) : g.Conserved e.trace := by
  obtain ⟨first, last, middle, hfirst, hlast, -, htrace⟩ := of_roll_eq_ok h
  obtain ⟨faces, rfl, hlength, hfaces⟩ := Pool.roll_value hbounded hfirst
  have hmodifiers := Pool.modifyAll_conserves hbounded (congrArg Run.failure hlast)
  rw [hlast] at hmodifiers
  rw [htrace]
  exact conserved_of_conserves hlength hfaces
    (hmodifiers.trans (last.markSuccesses_conserves g.sides)) (Pool.isSome_success_of_modifyAll hlast)

/-- Four dice of which ones are rerolled and sixes explode; what shows four or more is counted. -/
def livelyDice : DiceGroup :=
  ⟨⟨4, by decide, by decide⟩, .usual,
    [.reroll .recursive (.equalTo 1), .explode .recursive (.equalTo 6),
      .countSuccesses ⟨.greaterEqual, 4⟩]⟩

theorem livelyDice_conserved :
    Roller.Bounded Playback ∧ ∃ e after,
      livelyDice.roll (.start .usual (Playback.ofList [1, 6, 3, 2, 1, 5, 6, 2])) = (.ok e, after) ∧
        e.trace.map Die.source =
          [.initial, .initial, .initial, .initial, .reroll, .reroll, .explosion, .explosion] ∧
        e.trace.map Die.exploded = [false, true, false, false, false, false, true, false] ∧
        livelyDice.Conserved e.trace :=
  ⟨Playback.bounded, _, _, rfl, rfl, rfl,
    roll_conserved (c := .start .usual (Playback.ofList [1, 6, 3, 2, 1, 5, 6, 2])) Playback.bounded rfl⟩

end DiceGroup

end Rolling

end DiceNotation
