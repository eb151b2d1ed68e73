import Mathlib.Tactic.Choose
import DiceNotation.Proofs.Plays.Basic
import DiceNotation.Sweep

/-!
# Routines are plays

Every loop that rolls dice for a group is one play, whatever the roller. The loops differ in where they
put the dice; that they add exactly one die for each face, in the order of the faces, is part of what
is shown here for each of them.
-/

namespace DiceNotation

variable {α β : Type}

theorem Play.Leads.imp {Q S : List Int → α → Prop} {t : Play α} (ht : t.Leads Q)
    (hQ : ∀ faces value, Q faces value → S faces value) : t.Leads S := by
  induction t generalizing Q S with
  | done value failure => exact fun h => hQ [] value (ht h)
  | ask sides lost next ih =>
    exact fun face => ih face (ht face) fun rest value => hQ (face :: rest) value
  | makeRoom n lost next ih => exact ih ht hQ
  | openGroup next ih => exact fun index => ih index (ht index) hQ
  | readLimit next ih => exact fun limit => ih limit (ht limit) hQ

/-- Something to do in a context, written once for every roller. -/
abbrev Routine (α : Type) := (ρ : Type) → [Roller ρ] → Context ρ → Run ρ α

namespace Routine

/-- The routine is a play within one group, and `Q` relates the faces it sees to what it comes to. -/
def Plays (Q : List Int → α → Prop) (f : Routine α) : Prop :=
  ∃ t : Play α, t.Leads Q ∧ t.Thrifty ∧ t.StaysInGroup ∧
    ∀ (ρ : Type) [Roller ρ] (c : Context ρ), f ρ c = t.run c

namespace Plays

variable {Q S : List Int → α → Prop} {f g : Routine α}

theorem done {value : α} {failure : Option RollError} (h : failure = none → Q [] value) :
    Plays Q fun _ _ c => ⟨value, failure, c⟩ :=
  ⟨.done value failure, h, trivial, trivial, fun _ _ _ => rfl⟩

theorem ask (sides : Sides) (lost : α) (next : Int → Routine α)
    (h : ∀ face, Plays (fun rest value => Q (face :: rest) value) (next face)) :
    Plays Q fun ρ _ c =>
      match c.rollOne sides with
      | (.ok face, c) => next face ρ c
      | (.error e, c) => ⟨lost, some e, c⟩ := by
  choose t hleads hthrifty hstays hrun using h
  refine ⟨.ask sides lost t, hleads, hthrifty, hstays, fun ρ _ c => ?_⟩
  dsimp only
  rw [Play.run]
  obtain ⟨answer, after⟩ := c.rollOne sides
  cases answer with
  | ok face => exact hrun face ρ after
  | error e => rfl

theorem readLimit {next : Nat → Routine α} (h : ∀ limit, Plays Q (next limit)) :
    Plays Q fun ρ _ c => next c.limits.maxIterations ρ c := by
  choose t hleads hthrifty hstays hrun using h
  exact ⟨.readLimit t, hleads, hthrifty, hstays, fun ρ _ c => hrun c.limits.maxIterations ρ c⟩

theorem andThen {R : α → List Int → β → Prop} {S : List Int → β → Prop} (hf : Plays Q f)
    (keep : α → β) (next : α → Routine β) (hnext : ∀ value, Plays (R value) (next value))
    (hS : ∀ front value rest w, Q front value → R value rest w → S (front ++ rest) w) :
    Plays S fun ρ _ c =>
      match (f ρ c).failure with
      | some e => ⟨keep (f ρ c).value, some e, (f ρ c).context⟩
      | none => next (f ρ c).value ρ (f ρ c).context := by
  obtain ⟨t, hleads, hthrifty, hstays, hrun⟩ := hf
  choose u huleads huthrifty hustays hurun using hnext
  refine ⟨t.andThen keep u, ?_, Play.thrifty_andThen hthrifty huthrifty,
    Play.staysInGroup_andThen hstays hustays, fun ρ _ c => ?_⟩
  · exact Play.leads_andThen hleads fun front value h =>
      (huleads value).imp fun rest w => hS front value rest w h
  · dsimp only
    rw [Play.run_andThen, ← hrun]
    cases (f ρ c).failure with
    | none => exact hurun _ ρ _
    | some e => rfl

theorem congr (hf : Plays Q f)
    (h : ∀ (ρ : Type) [Roller ρ] (c : Context ρ), g ρ c = f ρ c) : Plays Q g := by
  obtain ⟨t, hleads, hthrifty, hstays, hrun⟩ := hf
  exact ⟨t, hleads, hthrifty, hstays, fun ρ _ c => (h ρ c).trans (hrun ρ c)⟩

theorem imp (hf : Plays Q f) (h : ∀ faces value, Q faces value → S faces value) : Plays S f := by
  obtain ⟨t, hleads, hrest⟩ := hf
  exact ⟨t, hleads.imp h, hrest⟩

theorem map {S : List Int → β → Prop} {h : α → β} (hf : Plays Q f)
    (hS : ∀ faces value, Q faces value → S faces (h value)) :
    Plays S fun ρ _ c => (f ρ c).map h := by
  have hend : ∀ value, Plays (fun rest w => rest = [] ∧ w = h value) fun _ _ c => ⟨h value, none, c⟩ :=
    fun value => done fun _ => ⟨rfl, rfl⟩
  refine (hf.andThen h _ hend ?_).congr fun ρ _ c => ?_
  · intro front value rest w hQ hw
    obtain ⟨rfl, rfl⟩ := hw
    rw [List.append_nil]
    exact hS front value hQ
  · unfold Run.map
    cases (f ρ c).failure with
    | none => rfl
    | some e => rfl

end Plays

end Routine

/-- What no modifier changes about a die. -/
structure Imprint where
  group : Nat
  rolled : Int
  success : Option Bool

namespace Die

def imprint (d : Die) : Imprint := ⟨d.group, d.rolled, d.success⟩

@[simp] theorem imprint_drop (d : Die) : d.drop.imprint = d.imprint := rfl

@[simp] theorem imprint_replace (d : Die) : d.replace.imprint = d.imprint := rfl

@[simp] theorem imprint_explode (d : Die) : d.explode.imprint = d.imprint := rfl

end Die

namespace DieKind

/-- The imprint of a new die of the kind. -/
def imprint (k : DieKind) (face : Int) : Imprint := ⟨k.group, face, none⟩

@[simp] theorem imprint_fresh (k : DieKind) (face : Int) (source : Source) :
    (Die.fresh k.group face source).imprint = k.imprint face := rfl

/-- Behind the old dice come new ones, one for each face. -/
def Adds (k : DieKind) (old : List Die) (faces : List Int) (dice : List Die) : Prop :=
  dice.map Die.imprint = old.map Die.imprint ++ faces.map k.imprint

variable {k : DieKind}

theorem Adds.refl (dice : List Die) : k.Adds dice [] dice := (List.append_nil _).symm

/-- The first of the new dice may be counted among the old ones. -/
theorem Adds.cons {rolled : List Die} {d : Die} {face : Int} {faces : List Int} {dice : List Die}
    (h : k.Adds (d :: rolled).reverse faces dice) (hd : d.imprint = k.imprint face) :
    k.Adds rolled.reverse (face :: faces) dice := by
  unfold Adds at *
  rw [h, List.reverse_cons, List.map_append, List.map_singleton, hd, List.append_assoc]
  rfl

/-- Dice that are rolled behind the dice of an earlier roll. -/
theorem Adds.append {old dice new : List Die} {front back : List Int} (h : k.Adds [] front new)
    (hdice : k.Adds (old ++ new) back dice) : k.Adds old (front ++ back) dice := by
  unfold Adds at *
  rw [hdice, List.map_append, h, List.map_append, List.append_assoc]
  rfl

theorem plays_roll (source : Source) : Routine.Plays (k.Adds []) fun _ _ c => k.roll source c := by
  have hface : ∀ face, Routine.Plays (fun rest dice => k.Adds [] (face :: rest) dice)
      fun _ _ c => ⟨[.fresh k.group face source], none, c⟩ := fun face => .done fun _ => rfl
  exact (Routine.Plays.ask k.sides [] _ hface).congr fun _ _ _ => rfl

theorem plays_rerollFrom (condition : Condition) (limit : Nat) (rolled : List Die) (left : Nat) :
    Routine.Plays (k.Adds rolled.reverse) fun _ _ c => k.rerollFrom condition limit rolled left c := by
  induction left generalizing rolled with
  | zero =>
    refine (Routine.Plays.ask k.sides rolled.reverse
      (fun face _ _ c => if condition.holds face then
        ⟨(.fresh k.group face .reroll :: rolled).reverse, some (.rerollLoopExceeded limit), c⟩
        else ⟨(.fresh k.group face .reroll :: rolled).reverse, none, c⟩) fun face => ?_).congr ?_
    · by_cases h : condition.holds face
      · simp only [if_pos h]
        exact .done fun hnone => by cases hnone
      · simp only [if_neg h]
        exact .done fun _ => Adds.cons (.refl _) rfl
    · intro ρ _ c
      rw [rerollFrom]
      obtain ⟨answer, after⟩ := c.rollOne k.sides
      cases answer with
      | ok face => rfl
      | error e => rfl
  | succ left ih =>
    refine (Routine.Plays.ask k.sides rolled.reverse
      (fun face _ _ c => if condition.holds face then
        k.rerollFrom condition limit ((Die.fresh k.group face .reroll).replace :: rolled) left c
        else ⟨(.fresh k.group face .reroll :: rolled).reverse, none, c⟩) fun face => ?_).congr ?_
    · by_cases h : condition.holds face
      · simp only [if_pos h]
        exact (ih _).imp fun rest dice hdice => hdice.cons rfl
      · simp only [if_neg h]
        exact .done fun _ => Adds.cons (.refl _) rfl
    · intro ρ _ c
      rw [rerollFrom]
      obtain ⟨answer, after⟩ := c.rollOne k.sides
      cases answer with
      | ok face => rfl
      | error e => rfl

theorem plays_reroll (repeats : Repeats) (condition : Condition) :
    Routine.Plays (k.Adds []) fun _ _ c => k.reroll repeats condition c := by
  cases repeats with
  | once => exact plays_roll .reroll
  | recursive => exact .readLimit fun limit => plays_rerollFrom condition limit [] (limit - 1)

/-- The dice of a new pool are asked for one after another and nothing else is done. -/
theorem exists_play_rollFrom (k : DieKind) (rolled : List Die) (n : Nat) :
    ∃ t : Play (List Die),
      (t.Leads fun faces dice => k.Adds rolled.reverse faces dice ∧ dice.length = rolled.length + n) ∧
        t.Asks n ∧ t.Thrifty ∧ t.StaysInGroup ∧
        ∀ (ρ : Type) [Roller ρ] (c : Context ρ), k.rollFrom rolled n c = t.run c := by
  induction n generalizing rolled with
  | zero =>
    have hleads : k.Adds rolled.reverse [] rolled.reverse ∧ rolled.reverse.length = rolled.length + 0 :=
      ⟨.refl _, List.length_reverse⟩
    exact ⟨.done rolled.reverse none, fun _ => hleads, trivial, trivial, trivial, fun _ _ _ => rfl⟩
  | succ n ih =>
    choose t hleads hasks hthrifty hstays hrun using
      fun face : Int => ih (.fresh k.group face .initial :: rolled)
    refine ⟨.ask k.sides rolled.reverse t, fun face => ?_, hasks, hthrifty, hstays, fun ρ _ c => ?_⟩
    · refine (hleads face).imp fun rest dice h => ⟨h.1.cons rfl, ?_⟩
      rw [h.2, List.length_cons]
      omega
    · rw [rollFrom, Play.run]
      obtain ⟨answer, after⟩ := c.rollOne k.sides
      cases answer with
      | ok face => exact hrun face ρ after
      | error e => rfl

end DieKind

namespace Sweep

variable {k : DieKind}

/-- A sweep that has gone through some dice, changing nothing of their imprints, and has rolled new
ones. -/
structure Covers (k : DieKind) (old rolled : List Die) (faces : List Int) (s : Sweep) : Prop where
  passed : s.passed.map Die.imprint = old.map Die.imprint
  rolled : k.Adds rolled faces s.rolled

theorem Covers.dice {old : List Die} {faces : List Int} {s : Sweep} (h : Covers k old [] faces s) :
    k.Adds old faces s.dice := by
  unfold DieKind.Adds Sweep.dice
  rw [List.map_append, h.passed, h.rolled]
  rfl

theorem plays_runFrom {fires : Die → Bool} {mark : Die → Die} {answer : Routine (List Die)}
    (hmark : ∀ d, (mark d).imprint = d.imprint) (hanswer : Routine.Plays (k.Adds []) answer)
    (passed rolled dice : List Die) :
    Routine.Plays (Covers k (passed.reverse ++ dice) rolled.reverse)
      fun ρ _ c => runFrom fires mark (answer ρ) passed rolled dice c := by
  induction dice generalizing passed rolled with
  | nil =>
    have hpassed : (passed.reverse ++ []).map Die.imprint = passed.reverse.map Die.imprint := by
      rw [List.append_nil]
    exact .done fun _ => ⟨hpassed.symm, .refl _⟩
  | cons d rest ih =>
    have hsplit (e : Die) : (e :: passed).reverse ++ rest = passed.reverse ++ e :: rest := by
      rw [List.reverse_cons, List.append_assoc, List.singleton_append]
    by_cases h : fires d
    · refine (hanswer.andThen
        (fun new => ⟨passed.reverseAux (mark d :: rest), rolled.reverseAux new⟩)
        (fun new ρ _ c =>
          runFrom fires mark (answer ρ) (mark d :: passed) (new.reverseAux rolled) rest c)
        (fun new => ih (mark d :: passed) (new.reverseAux rolled)) ?_).congr fun ρ _ c => ?_
      · intro front new back s hnew hs
        obtain ⟨hpassed, hrolled⟩ := hs
        refine ⟨?_, hnew.append ?_⟩
        · rw [hpassed, hsplit]
          simp [hmark]
        · rw [List.reverseAux_eq, List.reverse_append, List.reverse_reverse] at hrolled
          exact hrolled
      · cases hfailure : (answer ρ c).failure with
        | none => simp only [runFrom, if_pos h, hfailure]
        | some e => simp only [runFrom, if_pos h, hfailure]
    · have hrest := ih (d :: passed) rolled
      rw [hsplit] at hrest
      refine hrest.congr fun ρ _ c => ?_
      rw [runFrom, if_neg h]

theorem plays_run (fires : Die → Bool) {mark : Die → Die} {answer : Routine (List Die)}
    (hmark : ∀ d, (mark d).imprint = d.imprint) (hanswer : Routine.Plays (k.Adds []) answer)
    (dice : List Die) :
    Routine.Plays (Covers k dice []) fun ρ _ c => run fires mark (answer ρ) dice c :=
  plays_runFrom hmark hanswer [] [] dice

end Sweep

namespace Explosion

variable {k : DieKind}

theorem plays_sweep (condition : Condition) (wave : List Die) :
    Routine.Plays (Sweep.Covers k wave []) fun _ _ c => sweep k condition wave c :=
  Sweep.plays_run _ Die.imprint_explode (DieKind.plays_roll .explosion) wave

theorem plays_wavesFrom (condition : Condition) (limit : Nat) (done : List Die) (left : Nat)
    (wave : List Die) :
    Routine.Plays (k.Adds (done.reverse ++ wave))
      fun _ _ c => wavesFrom k condition limit done left wave c := by
  induction left generalizing done wave with
  | zero =>
    have hkept : k.Adds (done.reverse ++ wave) [] (done.reverseAux wave) := by
      rw [List.reverseAux_eq]
      exact .refl _
    have hdone : Routine.Plays (k.Adds (done.reverse ++ wave)) fun _ _ c =>
        ⟨done.reverseAux wave,
          if wave.any (·.ignites condition) then some (.explodeLoopExceeded limit) else none, c⟩ :=
      .done fun _ => hkept
    exact hdone.congr fun _ _ _ => rfl
  | succ left ih =>
    have hnext : ∀ s : Sweep, Routine.Plays (k.Adds (done.reverse ++ s.passed ++ s.rolled))
        fun _ _ c => if s.rolled.isEmpty then ⟨done.reverseAux s.passed, none, c⟩
          else wavesFrom k condition limit (s.passed.reverseAux done) left s.rolled c := by
      intro s
      by_cases h : s.rolled.isEmpty
      · have hrolled := List.isEmpty_iff.1 h
        have hkept : k.Adds (done.reverse ++ s.passed ++ s.rolled) [] (done.reverseAux s.passed) := by
          rw [hrolled, List.append_nil, List.reverseAux_eq]
          exact .refl _
        simp only [if_pos h]
        exact .done fun _ => hkept
      · have hrest := ih (s.passed.reverseAux done) s.rolled
        have hdone : (s.passed.reverseAux done).reverse = done.reverse ++ s.passed := by
          rw [List.reverseAux_eq, List.reverse_append, List.reverse_reverse]
        simp only [if_neg h]
        rwa [hdone] at hrest
    have hsweep := plays_sweep (k := k) condition wave
    refine (hsweep.andThen (fun s => done.reverseAux s.dice) _ hnext ?_).congr
      fun ρ _ c => ?_
    · intro front s back dice hs hdice
      have hnew := hs.rolled.append hdice
      have hpassed : (done.reverse ++ s.passed).map Die.imprint =
          (done.reverse ++ wave).map Die.imprint := by
        simp only [List.map_append, hs.passed]
      unfold DieKind.Adds at hnew ⊢
      rw [hnew, hpassed]
    · cases hfailure : (sweep k condition wave c).failure with
      | none => simp only [wavesFrom, hfailure]
      | some e => simp only [wavesFrom, hfailure]

theorem plays_run (repeats : Repeats) (condition : Condition) (dice : List Die) :
    Routine.Plays (k.Adds dice) fun _ _ c => run k repeats condition dice c := by
  cases repeats with
  | once => exact (plays_sweep condition dice).map fun faces s hs => hs.dice
  | recursive => exact .readLimit fun limit => plays_wavesFrom condition limit [] limit dice

end Explosion

end DiceNotation
