import DiceNotation.Proofs.Rolls.ClampsFirst
import DiceNotation.Proofs.Rolls.Conservation

/-!
# What modifiers leave alone

Modifiers write to the dice of a pool while they roll more of them, and one that fails leaves its writes
behind. Whatever it has come to, the dice from before stand where they stood with the faces they rolled, a
die out of play is as it was, and new dice stand behind the old ones in the order of their rolls.

The frame says this of two moments and of the rolls between them. It is a preorder, so that it has to be
shown for the single writes only: a mark, an answer to it, a drop, a clamp.
-/

namespace DiceNotation

variable {ρ : Type}

namespace Die

/-- What may become of a die, whose value only clamps change. -/
structure Becomes (clamped : Bool) (d d' : Die) : Prop where
  group : d'.group = d.group
  rolled : d'.rolled = d.rolled
  source : d'.source = d.source
  success : d'.success = d.success
  exploded : d.exploded = true → d'.exploded = true
  status : d'.status = d.status ∨
    d.status = .kept ∧ (d'.status = .dropped ∨ d'.status = .rerolled)
  value : clamped = false → d'.value = d.value
  frozen : d.status ≠ .kept → d' = d

/-- What holds of a die that joined a pool. -/
structure Joins (clamped : Bool) (k : DieKind) (d : Die) : Prop where
  group : d.group = k.group
  source : d.source = .reroll ∨ d.source = .explosion
  success : d.success = none
  value : clamped = false → d.value = d.rolled

variable {clamped clamped' : Bool} {k : DieKind} {d d' d'' : Die}

theorem Becomes.refl (clamped : Bool) (d : Die) : Becomes clamped d d :=
  ⟨rfl, rfl, rfl, rfl, id, .inl rfl, fun _ => rfl, fun _ => rfl⟩

theorem Becomes.trans (h : Becomes clamped d d') (h' : Becomes clamped' d' d'') :
    Becomes (clamped || clamped') d d'' where
  group := h'.group.trans h.group
  rolled := h'.rolled.trans h.rolled
  source := h'.source.trans h.source
  success := h'.success.trans h.success
  exploded := h'.exploded ∘ h.exploded
  status := by
    by_cases hkept : d'.status = .kept
    · rcases h.status with hsame | ⟨-, hout | hout⟩
      · rw [← hsame]
        exact h'.status
      · cases hkept.symm.trans hout
      · cases hkept.symm.trans hout
    · rw [h'.frozen hkept]
      exact h.status
  value := by
    intro hclamped
    obtain ⟨hfirst, hsecond⟩ := Bool.or_eq_false_iff.1 hclamped
    rw [h'.value hsecond, h.value hfirst]
  frozen := by
    intro hout
    obtain rfl := h.frozen hout
    exact h'.frozen hout

theorem Joins.becomes (h : Joins clamped k d) (h' : Becomes clamped' d d') :
    Joins (clamped || clamped') k d' where
  group := h'.group.trans h.group
  source := by
    rw [h'.source]
    exact h.source
  success := h'.success.trans h.success
  value := by
    intro hclamped
    obtain ⟨hfirst, hsecond⟩ := Bool.or_eq_false_iff.1 hclamped
    rw [h'.value hsecond, h'.rolled, h.value hfirst]

theorem Joins.mono (h : Joins clamped k d) (clamped' : Bool) : Joins (clamped || clamped') k d :=
  h.becomes (.refl clamped' d)

theorem joins_fresh (k : DieKind) (face : Int) {source : Source}
    (hsource : source = .reroll ∨ source = .explosion) :
    Joins false k (.fresh k.group face source) :=
  ⟨rfl, hsource, rfl, fun _ => rfl⟩

theorem becomes_drop (h : d.status = .kept) : Becomes false d d.drop :=
  ⟨rfl, rfl, rfl, rfl, id, .inr ⟨h, .inl rfl⟩, fun _ => rfl, fun hout => absurd h hout⟩

theorem becomes_replace (h : d.status = .kept) : Becomes false d d.replace :=
  ⟨rfl, rfl, rfl, rfl, id, .inr ⟨h, .inr rfl⟩, fun _ => rfl, fun hout => absurd h hout⟩

theorem becomes_explode (h : d.status = .kept) : Becomes false d d.explode :=
  ⟨rfl, rfl, rfl, rfl, fun _ => rfl, .inl rfl, fun _ => rfl, fun hout => absurd h hout⟩

theorem becomes_clamp (h : d.status = .kept) (value : Int) : Becomes true d { d with value } :=
  ⟨rfl, rfl, rfl, rfl, id, .inl rfl, nofun, fun hout => absurd h hout⟩

end Die

namespace Context

variable [Roller ρ]

/-- Some requests for dice take one context to the other; those that were answered gave these faces. -/
inductive Yields (sides : Sides) : Context ρ → List Int → Context ρ → Prop
  | done (c : Context ρ) : Yields sides c [] c
  | face {c middle after : Context ρ} {face : Int} {faces : List Int}
      (hroll : c.rollOne sides = (.ok face, middle)) (rest : Yields sides middle faces after) :
      Yields sides c (face :: faces) after
  | refused {c middle after : Context ρ} {e : RollError} {faces : List Int}
      (hroll : c.rollOne sides = (.error e, middle)) (rest : Yields sides middle faces after) :
      Yields sides c faces after

theorem Yields.trans {sides : Sides} {c middle after : Context ρ} {front back : List Int}
    (h : Yields sides c front middle) (h' : Yields sides middle back after) :
    Yields sides c (front ++ back) after := by
  induction h with
  | done => exact h'
  | face hroll _ ih => exact .face hroll (ih h')
  | refused hroll _ ih => exact .refused hroll (ih h')

end Context

section Rolling

variable [Roller ρ]

/-- Behind the dice of the first moment, changed at most as they may be, stand those rolled since. -/
def Extends (clamped : Bool) (k : DieKind) (before : List Die) (c : Context ρ) (after : List Die)
    (c' : Context ρ) : Prop :=
  ∃ old new, after = old ++ new ∧ List.Forall₂ (Die.Becomes clamped) before old ∧
    (∀ d ∈ new, d.Joins clamped k) ∧ c.Yields k.sides (new.map Die.rolled) c'

theorem joins_of_forall₂ {clamped clamped' : Bool} {k : DieKind} {new new' : List Die}
    (h : List.Forall₂ (Die.Becomes clamped') new new') (hnew : ∀ d ∈ new, d.Joins clamped k) :
    (∀ d ∈ new', d.Joins (clamped || clamped') k) ∧ new'.map Die.rolled = new.map Die.rolled := by
  induction h with
  | nil => exact ⟨nofun, rfl⟩
  | cons hd _ ih =>
    obtain ⟨hfirst, hrest⟩ := List.forall_mem_cons.1 hnew
    obtain ⟨hjoins, hrolled⟩ := ih hrest
    refine ⟨List.forall_mem_cons.2 ⟨hfirst.becomes hd, hjoins⟩, ?_⟩
    rw [List.map_cons, List.map_cons, hd.rolled, hrolled]

theorem forall₂_becomes_trans {clamped clamped' : Bool} {a b c : List Die}
    (h : List.Forall₂ (Die.Becomes clamped) a b) (h' : List.Forall₂ (Die.Becomes clamped') b c) :
    List.Forall₂ (Die.Becomes (clamped || clamped')) a c := by
  induction h generalizing c with
  | nil =>
    cases h'
    exact .nil
  | cons hd _ ih =>
    cases h' with
    | cons hd' hrest => exact .cons (hd.trans hd') (ih hrest)

namespace Extends

variable {clamped clamped' : Bool} {k : DieKind} {a b dice : List Die} {c middle after : Context ρ}

theorem of_forall₂ (h : List.Forall₂ (Die.Becomes clamped) a b) (k : DieKind) (c : Context ρ) :
    Extends clamped k a c b c :=
  ⟨b, [], (List.append_nil b).symm, h, nofun, .done c⟩

theorem refl (clamped : Bool) (k : DieKind) (dice : List Die) (c : Context ρ) :
    Extends clamped k dice c dice c :=
  of_forall₂ (List.forall₂_same.2 fun d _ => .refl clamped d) k c

theorem trans {last : List Die} (h : Extends clamped k a c b middle)
    (h' : Extends clamped' k b middle last after) :
    Extends (clamped || clamped') k a c last after := by
  obtain ⟨old, new, rfl, hold, hnew, hyields⟩ := h
  obtain ⟨old', later, rfl, hold', hlater, hyields'⟩ := h'
  -- What the second run made of all the dice it found splits into the oldest and those of the first run.
  have holdest : List.Forall₂ (Die.Becomes clamped') old (old'.take old.length) :=
    (List.forall₂_take_append old' old new hold'.flip).flip
  have hmiddle : List.Forall₂ (Die.Becomes clamped') new (old'.drop old.length) :=
    (List.forall₂_drop_append old' old new hold'.flip).flip
  obtain ⟨hjoined, hrolled⟩ := joins_of_forall₂ hmiddle hnew
  refine ⟨old'.take old.length, old'.drop old.length ++ later, ?_,
    forall₂_becomes_trans hold holdest, ?_, ?_⟩
  · rw [← List.append_assoc, List.take_append_drop]
  · intro d hd
    rcases List.mem_append.1 hd with hd | hd
    · exact hjoined d hd
    · rw [Bool.or_comm]
      exact (hlater d hd).mono clamped
  · rw [List.map_append, hrolled]
    exact hyields.trans hyields'

theorem append_left (front : List Die) (h : Extends clamped k a c b after) :
    Extends clamped k (front ++ a) c (front ++ b) after := by
  obtain ⟨old, new, rfl, hold, hnew, hyields⟩ := h
  have hfront : List.Forall₂ (Die.Becomes clamped) front front :=
    List.forall₂_same.2 fun d _ => .refl clamped d
  exact ⟨front ++ old, new, (List.append_assoc ..).symm, List.rel_append hfront hold, hnew, hyields⟩

/-- One die more. -/
theorem of_rollOne {face : Int} (hroll : c.rollOne k.sides = (.ok face, after)) {d : Die}
    (hd : d.Joins clamped k) (hrolled : d.rolled = face) (dice : List Die) :
    Extends clamped k dice c (dice ++ [d]) after := by
  subst hrolled
  exact ⟨dice, [d], rfl, List.forall₂_same.2 fun d _ => .refl clamped d,
    fun d' hd' => List.mem_singleton.1 hd' ▸ hd, .face hroll (.done after)⟩

/-- A roll that failed. -/
theorem of_rollOne_error {e : RollError} (hroll : c.rollOne k.sides = (.error e, after))
    (clamped : Bool) (dice : List Die) : Extends clamped k dice c dice after :=
  ⟨dice, [], (List.append_nil dice).symm, List.forall₂_same.2 fun d _ => .refl clamped d, nofun,
    .refused hroll (.done after)⟩

/-- A die is marked, and the answer to it comes to stand behind all others. -/
theorem of_answer {mark : Die → Die} {d : Die} (hmark : Die.Becomes false d (mark d))
    {answer : Run ρ (List Die)} (hanswer : Extends false k [] c answer.value answer.context)
    (front back : List Die) :
    Extends false k (front ++ d :: back) c (front ++ mark d :: back ++ answer.value)
      answer.context := by
  have hback : List.Forall₂ (Die.Becomes false) back back :=
    List.forall₂_same.2 fun d _ => .refl false d
  have hmarked : Extends false k (front ++ d :: back) c (front ++ mark d :: back) c :=
    (of_forall₂ (.cons hmark hback) k c).append_left front
  have hanswered := hanswer.append_left (front ++ mark d :: back)
  rw [List.append_nil] at hanswered
  exact hmarked.trans hanswered

end Extends

/-! ## Sweeps and loops -/

/-- While a sweep is at work, the dice it has rolled stand behind those it has yet to go through. -/
theorem Sweep.runFrom_extends {fires : Die → Bool} {mark : Die → Die}
    {answer : Context ρ → Run ρ (List Die)} {k : DieKind}
    (hmark : ∀ d, fires d = true → Die.Becomes false d (mark d))
    (hanswer : ∀ c, Extends false k [] c (answer c).value (answer c).context)
    (passed rolled dice : List Die) (c : Context ρ) :
    Extends false k (passed.reverse ++ dice ++ rolled.reverse) c
      (runFrom fires mark answer passed rolled dice c).value.dice
      (runFrom fires mark answer passed rolled dice c).context := by
  fun_induction runFrom fires mark answer passed rolled dice c with
  | case1 passed rolled c =>
    rw [List.append_nil]
    exact .refl ..
  | case2 passed rolled d rest c hd new e hnew =>
    have hstep := Extends.of_answer (hmark d hd) (hanswer c) passed.reverse (rest ++ rolled.reverse)
    simpa [Sweep.dice, List.reverseAux_eq] using hstep
  | case3 passed rolled d rest c hd new hnew ih =>
    have hstep := Extends.of_answer (hmark d hd) (hanswer c) passed.reverse (rest ++ rolled.reverse)
    have hbefore : passed.reverse ++ d :: rest ++ rolled.reverse =
        passed.reverse ++ d :: (rest ++ rolled.reverse) := List.append_assoc ..
    have hafter : (mark d :: passed).reverse ++ rest ++ (new.value.reverseAux rolled).reverse =
        passed.reverse ++ mark d :: (rest ++ rolled.reverse) ++ new.value := by
      simp [List.reverseAux_eq]
    rw [hafter] at ih
    rw [hbefore]
    exact hstep.trans ih
  | case4 passed rolled d rest c hd ih => simpa using ih

theorem Sweep.run_extends {fires : Die → Bool} {mark : Die → Die}
    {answer : Context ρ → Run ρ (List Die)} {k : DieKind}
    (hmark : ∀ d, fires d = true → Die.Becomes false d (mark d))
    (hanswer : ∀ c, Extends false k [] c (answer c).value (answer c).context) (dice : List Die)
    (c : Context ρ) :
    Extends false k dice c (run fires mark answer dice c).value.dice
      (run fires mark answer dice c).context := by
  have hrun := runFrom_extends hmark hanswer [] [] dice c
  rwa [List.reverse_nil, List.nil_append, List.append_nil] at hrun

namespace DieKind

variable (k : DieKind)

theorem roll_extends {source : Source} (hsource : source = .reroll ∨ source = .explosion)
    (c : Context ρ) : Extends false k [] c (k.roll source c).value (k.roll source c).context := by
  unfold roll
  split
  · next face after hroll => exact .of_rollOne hroll (Die.joins_fresh k face hsource) rfl []
  · next e after hroll => exact .of_rollOne_error hroll false []

theorem rerollFrom_extends (condition : Condition) (limit : Nat) (rolled : List Die) (left : Nat)
    (c : Context ρ) :
    Extends false k rolled.reverse c (k.rerollFrom condition limit rolled left c).value
      (k.rerollFrom condition limit rolled left c).context := by
  have hjoins (face : Int) : (Die.fresh k.group face .reroll).Joins false k :=
    Die.joins_fresh k face (.inl rfl)
  fun_induction rerollFrom k condition limit rolled left c with
  | case1 rolled left c e after hroll => exact .of_rollOne_error hroll false _
  | case2 rolled c face after hroll die hface =>
    rw [List.reverse_cons]
    exact .of_rollOne hroll (hjoins face) rfl _
  | case3 rolled c face after hroll die hface left ih =>
    have hreplaced : die.replace.Joins false k := (hjoins face).becomes (Die.becomes_replace rfl)
    have hstep := Extends.of_rollOne hroll hreplaced rfl rolled.reverse
    rw [← List.reverse_cons] at hstep
    exact hstep.trans ih
  | case4 rolled left c face after hroll die hface =>
    rw [List.reverse_cons]
    exact .of_rollOne hroll (hjoins face) rfl _

theorem reroll_extends (repeats : Repeats) (condition : Condition) (c : Context ρ) :
    Extends false k [] c (k.reroll repeats condition c).value
      (k.reroll repeats condition c).context := by
  cases repeats with
  | once => exact k.roll_extends (.inl rfl) c
  | recursive => exact k.rerollFrom_extends condition _ [] _ c

end DieKind

namespace Explosion

variable (k : DieKind) (condition : Condition)

theorem sweep_extends (wave : List Die) (c : Context ρ) :
    Extends false k wave c (sweep k condition wave c).value.dice (sweep k condition wave c).context :=
  Sweep.run_extends (fun _ hd => Die.becomes_explode (Die.status_of_ignites hd))
    (k.roll_extends (.inr rfl)) wave c

theorem wavesFrom_extends (limit : Nat) (done : List Die) (left : Nat) (wave : List Die)
    (c : Context ρ) :
    Extends false k (done.reverse ++ wave) c (wavesFrom k condition limit done left wave c).value
      (wavesFrom k condition limit done left wave c).context := by
  fun_induction wavesFrom k condition limit done left wave c with
  | case1 done wave c =>
    rw [List.reverseAux_eq]
    exact .refl ..
  | case2 done left wave c s e hs =>
    rw [List.reverseAux_eq]
    exact (sweep_extends k condition wave c).append_left done.reverse
  | case3 done left wave c s hs hnew =>
    have hdice : s.value.dice = s.value.passed := by
      rw [Sweep.dice, List.isEmpty_iff.1 hnew, List.append_nil]
    rw [List.reverseAux_eq, ← hdice]
    exact (sweep_extends k condition wave c).append_left done.reverse
  | case4 done left wave c s hs hnew ih =>
    have hdone : (s.value.passed.reverseAux done).reverse ++ s.value.rolled =
        done.reverse ++ s.value.dice := by
      rw [List.reverseAux_eq, List.reverse_append, List.reverse_reverse, List.append_assoc]
      rfl
    rw [hdone] at ih
    exact ((sweep_extends k condition wave c).append_left done.reverse).trans ih

theorem run_extends (repeats : Repeats) (dice : List Die) (c : Context ρ) :
    Extends false k dice c (run k repeats condition dice c).value
      (run k repeats condition dice c).context := by
  cases repeats with
  | once => exact sweep_extends k condition dice c
  | recursive => exact wavesFrom_extends k condition _ [] _ dice c

end Explosion

/-! ## Modifiers -/

namespace Pool

theorem forall₂_dropAt {positions : List Nat} {dice : List Die}
    (h : ∀ i ∈ positions, ∀ d, dice[i]? = some d → d.isKept = true) :
    List.Forall₂ (Die.Becomes false) dice (dropAt positions dice) := by
  rw [dropAt_eq_mapIdx]
  refine List.forall₂_of_length_eq_of_get List.length_mapIdx.symm fun i hi _ => ?_
  simp only [List.get_eq_getElem, List.getElem_mapIdx]
  split
  · next hdropped =>
    exact Die.becomes_drop (beq_iff_eq.1 (h i hdropped _ (List.getElem?_eq_getElem hi)))
  · exact .refl false _

theorem forall₂_select (s : Selection) (p : Pool) :
    List.Forall₂ (Die.Becomes false) p.dice (p.select s).dice := by
  obtain ⟨positions, hselect, hkept⟩ := p.exists_select_eq s
  rw [hselect]
  exact forall₂_dropAt hkept

theorem forall₂_clamp (bound : Clamp) (p : Pool) :
    List.Forall₂ (Die.Becomes true) p.dice (p.clamp bound).dice := by
  refine List.forall₂_map_right_iff.2 (List.forall₂_same.2 fun d _ => ?_)
  split
  · next hkept => exact Die.becomes_clamp (beq_iff_eq.1 hkept) _
  · exact .refl true d

/-- Whether it succeeds or fails, a modifier keeps to the frame. -/
theorem modify_extends (p : Pool) (m : Modifier) (c : Context ρ) :
    Extends m.isClamp p.kind p.dice c (p.modify m c).value.dice (p.modify m c).context := by
  cases m with
  | select s => exact .of_forall₂ (p.forall₂_select s) p.kind c
  | clamp bound => exact .of_forall₂ (p.forall₂_clamp bound) p.kind c
  | countSuccesses condition => exact .refl false p.kind p.dice c
  | reroll repeats condition =>
    exact Sweep.run_extends (fun _ hd => Die.becomes_replace (Die.status_of_meets hd))
      (p.kind.reroll_extends repeats condition) p.dice c
  | explode repeats condition => exact Explosion.run_extends p.kind condition repeats p.dice c

theorem modify_kind (p : Pool) (m : Modifier) (c : Context ρ) : (p.modify m c).value.kind = p.kind := by
  cases m <;> rfl

/-- The modifiers of a group, up to the first that fails. -/
theorem modifyAll_extends (modifiers : List Modifier) (p : Pool) (c : Context ρ) :
    Extends (modifiers.any Modifier.isClamp) p.kind p.dice c (p.modifyAll modifiers c).value.dice
      (p.modifyAll modifiers c).context := by
  fun_induction modifyAll modifiers p c with
  | case1 p c => exact .refl ..
  | case2 m rest p c r e hr => exact (p.modify_extends m c).trans (.refl ..)
  | case3 m rest p c r hr ih =>
    have hkind : r.value.kind = p.kind := p.modify_kind m c
    rw [hkind] at ih
    exact (p.modify_extends m c).trans ih

/-- Carries out the modifiers one after another, each on what the one before it has left, even if that
one failed. -/
def attemptAll : List Modifier → Pool → Context ρ → Pool × Context ρ
  | [], p, c => (p, c)
  | m :: rest, p, c => attemptAll rest (p.modify m c).value (p.modify m c).context

/-- Modifiers only append, and a die that has left the pool is frozen. So it is in any pool and any context,
for any modifiers one after another, whether each of them succeeds or fails; the value of a die changes only
if one of them is a clamp. -/
theorem attemptAll_extends (modifiers : List Modifier) (p : Pool) (c : Context ρ) :
    (p.attemptAll modifiers c).1.kind = p.kind ∧
      Extends (modifiers.any Modifier.isClamp) p.kind p.dice c (p.attemptAll modifiers c).1.dice
        (p.attemptAll modifiers c).2 := by
  induction modifiers generalizing p c with
  | nil => exact ⟨rfl, .refl ..⟩
  | cons m rest ih =>
    obtain ⟨hkind, hrest⟩ := ih (p.modify m c).value (p.modify m c).context
    rw [p.modify_kind m c] at hkind hrest
    exact ⟨hkind, (p.modify_extends m c).trans hrest⟩

end Pool

end Rolling

end DiceNotation
