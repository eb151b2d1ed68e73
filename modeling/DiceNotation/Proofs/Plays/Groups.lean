import DiceNotation.Evaluation
import DiceNotation.Proofs.Plays.Routines
import DiceNotation.Proofs.Rolls.Pools

/-!
# What a group rolls

Modifiers may drop, clamp, reroll and explode as they like: the dice of a group keep the order in which
they were rolled, none is lost, and the value of the group is the sum of what is in play, or the number
of successes there.
-/

namespace DiceNotation

namespace Modifier

def successCondition? : Modifier → Option Condition
  | countSuccesses condition => some condition
  | _ => none

/-- The condition of the last modifier that counts successes. -/
def lastSuccessCondition? (modifiers : List Modifier) : Option Condition :=
  modifiers.reverse.findSome? successCondition?

theorem lastSuccessCondition?_cons (m : Modifier) (rest : List Modifier) :
    lastSuccessCondition? (m :: rest) = (lastSuccessCondition? rest).or m.successCondition? := by
  unfold lastSuccessCondition?
  rw [List.reverse_cons, List.findSome?_append, List.findSome?_singleton]

end Modifier

namespace DiceGroup

/-- What the group is worth when it has rolled the given dice. -/
def score (g : DiceGroup) (dice : List Die) : Int :=
  match Modifier.lastSuccessCondition? g.modifiers with
  | none => (Pool.keptValues dice).sum
  | some condition => ((Pool.keptValues dice).countP condition.holds : Nat)

end DiceGroup

theorem DieKind.Adds.facts {k : DieKind} {faces : List Int} {dice : List Die}
    (h : k.Adds [] faces dice) :
    dice.map Die.rolled = faces ∧ ∀ d ∈ dice, d.group = k.group ∧ d.success = none := by
  have himprints : dice.map Die.imprint = faces.map k.imprint := h
  constructor
  · have hfaces := congrArg (List.map Imprint.rolled) himprints
    rw [List.map_map, List.map_map] at hfaces
    exact hfaces.trans (List.map_id faces)
  · intro d hd
    have hmem := List.mem_map_of_mem (f := Die.imprint) hd
    rw [himprints] at hmem
    obtain ⟨face, -, himprint⟩ := List.mem_map.1 hmem
    exact ⟨congrArg Imprint.group himprint.symm, congrArg Imprint.success himprint.symm⟩

namespace Pool

/-- What modifiers come to: dice are rolled behind the old ones, and conditions for success are
replaced. -/
structure Modified (p : Pool) (modifiers : List Modifier) (faces : List Int) (after : Pool) :
    Prop where
  kind : after.kind = p.kind
  dice : p.kind.Adds p.dice faces after.dice
  successes : after.successes = (Modifier.lastSuccessCondition? modifiers).or p.successes

theorem Modified.trans {p middle after : Pool} {m : Modifier} {rest : List Modifier}
    {front back : List Int} (h : p.Modified [m] front middle)
    (hrest : middle.Modified rest back after) : p.Modified (m :: rest) (front ++ back) after := by
  refine ⟨hrest.kind.trans h.kind, ?_, ?_⟩
  · have hold := h.dice
    have hnew := hrest.dice
    rw [h.kind] at hnew
    unfold DieKind.Adds at *
    rw [hnew, hold, List.map_append, List.append_assoc]
  · have hm : Modifier.lastSuccessCondition? [m] = m.successCondition? :=
      (Modifier.lastSuccessCondition?_cons m []).trans (Option.none_or ..)
    rw [hrest.successes, h.successes, ← Option.or_assoc, hm, Modifier.lastSuccessCondition?_cons]

section Unchanged

variable {α : Type} {f : Die → α}

/-- What dropping does not change is the same of all dice. -/
theorem map_dropAt {positions : List Nat} {dice : List Die}
    (h : ∀ i ∈ positions, ∀ d, dice[i]? = some d → f d.drop = f d) :
    (dropAt positions dice).map f = dice.map f := by
  refine List.ext_getElem? fun i => ?_
  rw [dropAt_eq_mapIdx, List.getElem?_map, List.getElem?_mapIdx, List.getElem?_map]
  cases hd : dice[i]? with
  | none => rfl
  | some d =>
    rw [Option.map_some, Option.map_some]
    split
    · next hi => rw [Option.map_some, h i hi d hd]
    · rfl

theorem map_clamp (hf : ∀ d value, f { d with value } = f d) (bound : Clamp) (p : Pool) :
    (p.clamp bound).dice.map f = p.dice.map f := by
  unfold clamp
  rw [List.map_map]
  refine List.map_congr_left fun d _ => ?_
  rw [Function.comp_apply]
  split
  · exact hf d _
  · rfl

theorem map_markSuccesses (hf : ∀ d success, f { d with success } = f d) (p : Pool) :
    p.markSuccesses.dice.map f = p.dice.map f := by
  unfold markSuccesses
  split
  · rfl
  · rw [List.map_map]
    exact List.map_congr_left fun d _ => hf d _

end Unchanged

theorem plays_modify (p : Pool) (m : Modifier) :
    Routine.Plays (p.Modified [m]) fun _ _ c => p.modify m c := by
  cases m with
  | select s =>
    have hdice : (p.select s).dice.map Die.imprint = p.dice.map Die.imprint :=
      map_dropAt fun _ _ _ _ => rfl
    exact .done fun _ => ⟨rfl, hdice.trans (List.append_nil _).symm, rfl⟩
  | clamp bound =>
    have hdice : (p.clamp bound).dice.map Die.imprint = p.dice.map Die.imprint :=
      p.map_clamp (fun _ _ => rfl) bound
    exact .done fun _ => ⟨rfl, hdice.trans (List.append_nil _).symm, rfl⟩
  | countSuccesses condition => exact .done fun _ => ⟨rfl, .refl _, rfl⟩
  | reroll repeats condition =>
    have hanswer := DieKind.plays_reroll (k := p.kind) repeats condition
    have hsweep := Sweep.plays_run (·.meets condition) Die.imprint_replace hanswer p.dice
    exact hsweep.map (S := p.Modified [.reroll repeats condition])
      (h := fun s => { p with dice := s.dice }) fun faces s hs => ⟨rfl, hs.dice, rfl⟩
  | explode repeats condition =>
    have hrun := Explosion.plays_run (k := p.kind) repeats condition p.dice
    exact hrun.map (S := p.Modified [.explode repeats condition])
      (h := fun dice => { p with dice }) fun faces dice hdice => ⟨rfl, hdice, rfl⟩

theorem plays_modifyAll (p : Pool) (modifiers : List Modifier) :
    Routine.Plays (p.Modified modifiers) fun _ _ c => p.modifyAll modifiers c := by
  induction modifiers generalizing p with
  | nil => exact .done fun _ => ⟨rfl, .refl _, rfl⟩
  | cons m rest ih =>
    refine ((p.plays_modify m).andThen id _ (fun middle => ih middle) ?_).congr
      fun ρ _ c => ?_
    · exact fun front middle back after h hrest => h.trans hrest
    · rw [modifyAll]
      cases hfailure : (p.modify m c).failure with
      | none => rfl
      | some e =>
        simp only [id_eq, ← hfailure]

section Sums

theorem sumFrom_eq_ok {start v : Int} {dice : List Die} (h : sumFrom start dice = .ok v) :
    v = start + (dice.map Die.worth).sum := by
  induction dice generalizing start with
  | nil =>
    cases h
    exact (Int.add_zero v).symm
  | cons d rest ih =>
    rw [sumFrom, List.foldlM_cons] at h
    cases hsum : checked (start + d.worth) with
    | error e =>
      rw [hsum] at h
      cases h
    | ok sum =>
      obtain ⟨-, rfl⟩ := checked_eq_ok_iff.1 hsum
      rw [hsum] at h
      rw [ih h, List.map_cons, List.sum_cons, Int.add_assoc]

/-- Where the dice can be added up, so can the first ones of them. -/
theorem inRange_sum_take {start v : Int} {dice : List Die} (hstart : InRange start)
    (h : sumFrom start dice = .ok v) (n : Nat) :
    InRange (start + ((dice.take n).map Die.worth).sum) := by
  induction dice generalizing start n with
  | nil => simpa using hstart
  | cons d rest ih =>
    rw [sumFrom, List.foldlM_cons] at h
    cases hsum : checked (start + d.worth) with
    | error e =>
      rw [hsum] at h
      cases h
    | ok sum =>
      obtain ⟨hrange, rfl⟩ := checked_eq_ok_iff.1 hsum
      rw [hsum] at h
      cases n with
      | zero => simpa using hstart
      | succ n =>
        have hrest := ih hrange h n
        rwa [List.take_succ_cons, List.map_cons, List.sum_cons, ← Int.add_assoc]

end Sums

section Marks

variable {p : Pool}

theorem group_of_mem_markSuccesses {i : Nat} (h : ∀ d ∈ p.dice, d.group = i) :
    ∀ d ∈ p.markSuccesses.dice, d.group = i := by
  unfold markSuccesses
  split
  · exact h
  · intro d hd
    obtain ⟨old, hold, rfl⟩ := List.mem_map.1 hd
    exact h old hold

theorem keptValues_markSuccesses : keptValues p.markSuccesses.dice = keptValues p.dice := by
  unfold markSuccesses
  split
  · rfl
  · unfold keptValues
    rw [List.filter_map, List.map_map]
    rfl

/-- A pool that can be added up comes to the sum of the dice in play, or to the number of successes. -/
theorem score_of_subtotal {g : DiceGroup} (hunmarked : p.Unmarked)
    (hsuccesses : p.successes = Modifier.lastSuccessCondition? g.modifiers) {v : Int}
    (h : p.markSuccesses.subtotal = .ok v) : v = g.score p.markSuccesses.dice := by
  have hv := sumFrom_eq_ok h
  rw [Int.zero_add] at hv
  rw [hv, DiceGroup.score, keptValues_markSuccesses, ← hsuccesses]
  unfold markSuccesses
  cases p.successes with
  | none => exact sum_worth_eq hunmarked
  | some condition => exact sum_worth_marked condition p.dice

end Marks

end Pool

namespace DiceGroup

/-- What a group comes to: a log of the faces it has seen, and the value of its dice. -/
structure Rolled (g : DiceGroup) (index : Nat) (faces : List Int) (e : Evaluated) : Prop where
  log : e.trace.map Die.rolled = faces
  group_eq : ∀ d ∈ e.trace, d.group = index
  trace_ne_nil : e.trace ≠ []
  sum : Pool.sumFrom 0 e.trace = .ok e.value
  score : e.value = g.score e.trace

theorem rolled_of_modified {g : DiceGroup} {index : Nat} {dice : List Die} {front back : List Int}
    {after : Pool} {v : Int} (hdice : DieKind.Adds ⟨index, g.sides⟩ [] front dice)
    (hlength : dice.length = g.count.toNat)
    (hafter : Pool.Modified ⟨index, g.sides, dice, none⟩ g.modifiers back after)
    (hv : after.markSuccesses.subtotal = .ok v) :
    g.Rolled index (front ++ back) ⟨v, after.markSuccesses.dice⟩ := by
  have hall : DieKind.Adds ⟨index, g.sides⟩ [] (front ++ back) after.dice := hdice.append hafter.dice
  obtain ⟨hlog, hfacts⟩ := hall.facts
  have hrolled : after.markSuccesses.dice.map Die.rolled = after.dice.map Die.rolled :=
    after.map_markSuccesses fun _ _ => rfl
  refine ⟨hrolled.trans hlog, Pool.group_of_mem_markSuccesses fun d hd => (hfacts d hd).1, ?_, hv, ?_⟩
  · intro hnil
    have hfront := hdice.facts.1
    rw [hlog, show after.markSuccesses.dice = [] from hnil] at hrolled
    have hnone : front.length = 0 := by
      have := congrArg List.length hrolled
      rw [List.length_append, List.map_nil, List.length_nil] at this
      omega
    rw [← hfront, List.length_map, hlength] at hnone
    have := g.count.pos
    omega
  · refine Pool.score_of_subtotal (fun d hd => (hfacts d hd).2) ?_ hv
    rw [hafter.successes, Option.or_none]

/-- The last step of a group, which rolls nothing. -/
def settle (p : Pool) : Play Evaluated :=
  match p.markSuccesses.subtotal with
  | .error e => .done ⟨0, []⟩ (some (.ofArithmetic e))
  | .ok value => .done ⟨value, p.markSuccesses.dice⟩ none

theorem leads_settle (p : Pool) : (settle p).Leads fun faces e =>
    faces = [] ∧ p.markSuccesses.subtotal = .ok e.value ∧ e.trace = p.markSuccesses.dice := by
  unfold settle
  split
  · intro h
    cases h
  · next v hv => exact fun _ => ⟨rfl, hv, rfl⟩

theorem thrifty_settle (p : Pool) : (settle p).Thrifty := by
  unfold settle
  split
  · trivial
  · trivial

theorem staysInGroup_settle (p : Pool) : (settle p).StaysInGroup := by
  unfold settle
  split
  · trivial
  · trivial

/-- What follows the initial dice of a group is a play. -/
theorem exists_play_finish (p : Pool) (modifiers : List Modifier) :
    ∃ t : Play Evaluated,
      (t.Leads fun faces e => ∃ after, p.Modified modifiers faces after ∧
        after.markSuccesses.subtotal = .ok e.value ∧ e.trace = after.markSuccesses.dice) ∧
      t.Thrifty ∧ t.StaysInGroup ∧ ∀ (ρ : Type) [Roller ρ] (c : Context ρ),
        (t.run c).answer =
          match (p.modifyAll modifiers c).failure with
          | some e => (.error e, (p.modifyAll modifiers c).context)
          | none =>
            ((settle (p.modifyAll modifiers c).value).run (p.modifyAll modifiers c).context).answer := by
  obtain ⟨t, hleads, hthrifty, hstays, hrun⟩ := p.plays_modifyAll modifiers
  refine ⟨t.andThen (fun _ => ⟨0, []⟩) settle, ?_, Play.thrifty_andThen hthrifty thrifty_settle,
    Play.staysInGroup_andThen hstays staysInGroup_settle, fun ρ _ c => ?_⟩
  · refine Play.leads_andThen hleads fun front after hafter => ?_
    refine (leads_settle after).imp fun back e h => ⟨after, ?_, h.2⟩
    rw [h.1, List.append_nil]
    exact hafter
  · have hmodified : p.modifyAll modifiers c = t.run c := hrun ρ c
    rw [Play.run_andThen, hmodified]
    cases (t.run c).failure with
    | none => rfl
    | some e => rfl

/-- To roll a group is to take the next index, to make room for the dice, and to go on from there. -/
theorem exists_play (g : DiceGroup) :
    ∃ t : Nat → Play Evaluated,
      (∀ i, (t i).Leads (g.Rolled i) ∧ (t i).Thrifty ∧ (t i).StaysInGroup) ∧
        ∀ (ρ : Type) [Roller ρ] (c : Context ρ), g.roll c = ((Play.openGroup t).run c).answer := by
  choose initial hinitial hasks hthrifty hstays hrun using
    fun i : Nat => DieKind.exists_play_rollFrom ⟨i, g.sides⟩ [] g.count.toNat
  choose finish hfinish hfthrifty hfstays hfrun using
    fun p : Pool => exists_play_finish p g.modifiers
  let start (i : Nat) : Play Evaluated :=
    (initial i).andThen (fun _ => ⟨0, []⟩) fun dice => finish ⟨i, g.sides, dice, none⟩
  refine ⟨fun i => .makeRoom g.count.toNat ⟨0, []⟩ (start i), fun i => ⟨?_, ⟨?_, ?_⟩, ?_⟩,
    fun ρ _ c => ?_⟩
  · refine Play.leads_andThen (hinitial i) fun front dice hdice => ?_
    have hlength : dice.length = g.count.toNat := by simpa using hdice.2
    refine (hfinish _).imp fun back e he => ?_
    obtain ⟨after, hafter, hvalue, htrace⟩ := he
    have hrolled := rolled_of_modified hdice.1 hlength hafter hvalue
    rw [← htrace] at hrolled
    exact hrolled
  · exact Play.asks_andThen (hasks i)
  · exact Play.thrifty_andThen (hthrifty i) fun dice => hfthrifty _
  · exact Play.staysInGroup_andThen (hstays i) fun dice => hfstays _
  · rw [roll, Pool.roll, Play.run, Play.run]
    cases Context.refusal? { c with groups := c.groups + 1 } g.count.toNat with
    | some e => rfl
    | none =>
      simp only [start, Play.run_andThen, ← hrun]
      generalize DieKind.rollFrom ⟨c.groups, g.sides⟩ [] g.count.toNat
        { c with groups := c.groups + 1 } = r
      cases r.failure with
      | some e => rfl
      | none =>
        simp only [hfrun, settle]
        generalize Pool.modifyAll g.modifiers ⟨c.groups, g.sides, r.value, none⟩ r.context = s
        cases s.failure with
        | some e => rfl
        | none =>
          simp only
          cases s.value.markSuccesses.subtotal with
          | error e => rfl
          | ok v => rfl

end DiceGroup

section Values

variable {ρ : Type} [Roller ρ]

theorem Pool.of_roll_eq_ok {index count : Nat} {sides : Sides} {c after : Context ρ} {p : Pool}
    (h : Pool.roll index count sides c = (.ok p, after)) :
    c.refusal? count = none ∧ p = ⟨index, sides, p.dice, none⟩ ∧
      DieKind.rollFrom ⟨index, sides⟩ [] count c = ⟨p.dice, none, after⟩ := by
  unfold Pool.roll at h
  split at h
  · cases h
  · next hroom =>
    dsimp only at h
    split at h
    · cases h
    · next hrolled =>
      cases h
      exact ⟨hroom, rfl, by rw [← hrolled]⟩

/-- What a group goes through on the way to its value. -/
theorem DiceGroup.of_roll_eq_ok {g : DiceGroup} {c after : Context ρ} {e : Evaluated}
    (h : g.roll c = (.ok e, after)) :
    ∃ (first last : Pool) (middle : Context ρ),
      Pool.roll c.groups g.count.toNat g.sides { c with groups := c.groups + 1 } =
        (.ok first, middle) ∧
      first.modifyAll g.modifiers middle = ⟨last, none, after⟩ ∧
      last.markSuccesses.subtotal = .ok e.value ∧ e.trace = last.markSuccesses.dice := by
  unfold roll at h
  split at h
  · cases h
  · next first middle hfirst =>
    dsimp only at h
    split at h
    · cases h
    · next hlast =>
      split at h
      · cases h
      · next value hvalue =>
        cases h
        exact ⟨first, _, middle, hfirst, by rw [← hlast], hvalue, rfl⟩

end Values

end DiceNotation
