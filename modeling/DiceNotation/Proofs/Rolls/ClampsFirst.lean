import DiceNotation.Proofs.Plays.Groups
import DiceNotation.Proofs.Rolls.Conservation
import DiceNotation.Proofs.Rolls.Playing

/-!
# Clamps before selections

A clamp keeps the order of values, so it makes no difference to what a group shows whether dice are
clamped before or after a selection. Which dice are kept may change, because a clamp can make values
equal. Counting successes touches no value and can wait until the end, where only the last condition is
left. Thus the modifiers of a group that rolls its dice once have a normal order.
-/

namespace DiceNotation

namespace Modifier

def isClamp : Modifier → Bool
  | clamp _ => true
  | _ => false

theorem isClamp_or_isSelection_of_mem {m : Modifier} (modifiers : List Modifier)
    (h : m ∈ modifiers.filter isClamp ++ modifiers.filter isSelection) :
    m.isClamp ∨ m.isSelection :=
  (List.mem_append.1 h).imp (fun h => (List.mem_filter.1 h).2) fun h => (List.mem_filter.1 h).2

/-- All clamps, then all selections, then the last condition for a success. -/
def clampsFirst (modifiers : List Modifier) : List Modifier :=
  modifiers.filter isClamp ++
    (modifiers.filter isSelection ++ (lastSuccessCondition? modifiers).toList.map countSuccesses)

theorem mem_of_lastSuccessCondition?_eq {modifiers : List Modifier} {condition : Condition}
    (h : lastSuccessCondition? modifiers = some condition) :
    countSuccesses condition ∈ modifiers := by
  obtain ⟨m, hm, hcondition⟩ := List.exists_of_findSome?_eq_some h
  cases m with
  | countSuccesses other =>
    cases hcondition
    exact List.mem_reverse.1 hm
  | select | clamp | reroll | explode => cases hcondition

/-- No modifier is made up. -/
theorem mem_of_mem_clampsFirst {modifiers : List Modifier} {m : Modifier}
    (h : m ∈ clampsFirst modifiers) : m ∈ modifiers := by
  simp only [clampsFirst, List.mem_append] at h
  rcases h with hclamp | hselection | hcount
  · exact List.mem_of_mem_filter hclamp
  · exact List.mem_of_mem_filter hselection
  · obtain ⟨condition, hlast, rfl⟩ := List.mem_map.1 hcount
    exact mem_of_lastSuccessCondition?_eq (Option.mem_toList.1 hlast)

end Modifier

namespace Showing

/-- A modifier that can be exchanged with each of the others can be carried out after them. -/
theorem foldl_act_comm {m : Modifier} {others : List Modifier}
    (h : ∀ other ∈ others, ∀ s : Showing, (s.act m).act other = (s.act other).act m) (s : Showing) :
    others.foldl act (s.act m) = (others.foldl act s).act m := by
  induction others generalizing s with
  | nil => rfl
  | cons other rest ih =>
    rw [List.foldl_cons, h other List.mem_cons_self, List.foldl_cons]
    exact ih (fun other hother => h other (List.mem_cons_of_mem _ hother)) _

theorem act_select_clamp {m : Modifier} (hm : m.isClamp) (selection : Selection) (s : Showing) :
    (s.act (.select selection)).act m = (s.act m).act (.select selection) := by
  cases m with
  | clamp c => exact congrArg (Showing.mk · s.successes) (selection.pick_map c.apply s.hand).symm
  | select | reroll | explode | countSuccesses => cases hm

theorem act_countSuccesses_comm {m : Modifier} (hm : m.isClamp ∨ m.isSelection)
    (condition : Condition) (s : Showing) :
    (s.act (.countSuccesses condition)).act m = (s.act m).act (.countSuccesses condition) := by
  cases m with
  | clamp | select | reroll | explode => rfl
  | countSuccesses => simp [Modifier.isClamp, Modifier.isSelection] at hm

/-- In the normal order the modifiers leave the same to be shown. -/
theorem foldl_act_clampsFirst {modifiers : List Modifier} (hm : ∀ m ∈ modifiers, m.rollsDice = false)
    (s : Showing) : (Modifier.clampsFirst modifiers).foldl act s = modifiers.foldl act s := by
  induction modifiers generalizing s with
  | nil => rfl
  | cons m rest ih =>
    have hrest := ih (fun m hm' => hm m (List.mem_cons_of_mem _ hm'))
    have hlast := Modifier.lastSuccessCondition?_cons m rest
    rw [List.foldl_cons, ← hrest]
    cases m with
    | clamp c =>
      simp only [Modifier.successCondition?, Option.or_none] at hlast
      simp only [Modifier.clampsFirst, hlast]
      rfl
    | select selection =>
      simp only [Modifier.successCondition?, Option.or_none] at hlast
      have hclamps := foldl_act_comm (m := .select selection) (s := s)
        fun m (hm : m ∈ rest.filter Modifier.isClamp) =>
          act_select_clamp (List.mem_filter.1 hm).2 selection
      simp only [Modifier.clampsFirst, hlast, List.foldl_append, hclamps]
      rfl
    | countSuccesses condition =>
      have hbefore := foldl_act_comm (m := .countSuccesses condition) (s := s)
        fun m hm =>
          act_countSuccesses_comm (Modifier.isClamp_or_isSelection_of_mem rest hm) condition
      rw [List.foldl_append] at hbefore
      simp only [Modifier.clampsFirst, List.foldl_append, hlast, hbefore]
      -- A later condition makes up for this one, which otherwise comes last.
      cases Modifier.lastSuccessCondition? rest with
      | none => rfl
      | some later => rfl
    | reroll | explode => cases hm _ List.mem_cons_self

end Showing

namespace DiceGroup

/-- The same group with its modifiers in the normal order. -/
def clampsFirst (g : DiceGroup) : DiceGroup :=
  { g with modifiers := Modifier.clampsFirst g.modifiers }

variable {g : DiceGroup}

theorem writable_clampsFirst (h : g.Writable) : g.clampsFirst.Writable :=
  ⟨h.1, fun m hm => h.2 m (Modifier.mem_of_mem_clampsFirst hm)⟩

theorem rollsOnce_clampsFirst (h : g.RollsOnce) : g.clampsFirst.RollsOnce :=
  fun m hm => h m (Modifier.mem_of_mem_clampsFirst hm)

theorem worth_clampsFirst (h : g.RollsOnce) (faces : List Int) :
    g.clampsFirst.worth faces = g.worth faces :=
  congrArg Showing.worth (Showing.foldl_act_clampsFirst h _)

/-- The value that the group comes to, or what keeps it from one. -/
def outcome {ρ : Type} [Roller ρ] (g : DiceGroup) (c : Context ρ) : Except RollError Int :=
  (g.roll c).1.map Evaluated.value

/-- Without a cap a group comes to the worth of the faces it rolls, unless that is out of range. -/
theorem outcome_of_offers {faces : List Int} (hw : g.Writable) (hg : g.RollsOnce)
    (hlength : faces.length = g.count.toNat) (hfaces : ∀ x ∈ faces, x ∈ g.sides.faces)
    {c : Context Playback} (hc : c.Offers faces) :
    g.outcome c = (checked (g.worth faces)).mapError .ofArithmetic := by
  have hanswers : Answers [] (g.roll c) (checked (g.worth faces)) :=
    roll_answers hw hg hlength hfaces (by rwa [List.append_nil])
  cases htotal : checked (g.worth faces) with
  | error a =>
    rw [htotal] at hanswers
    obtain ⟨after, hroll⟩ := hanswers
    rw [outcome, hroll]
    rfl
  | ok value =>
    rw [htotal] at hanswers
    obtain ⟨trace, after, hroll, -⟩ := hanswers
    rw [outcome, hroll]
    rfl

/-- Once a group has its dice, the order of its modifiers makes no difference to what becomes of it,
whatever the roller and the cap on rolls are. -/
theorem outcome_clampsFirst {ρ : Type} [Roller ρ] (hbounded : Roller.Bounded ρ) (hw : g.Writable)
    (hg : g.RollsOnce) (c : Context ρ) :
    g.clampsFirst.outcome c = g.outcome c ∧ (g.clampsFirst.roll c).2 = (g.roll c).2 := by
  cases hpool : Pool.roll c.groups g.count.toNat g.sides { c with groups := c.groups + 1 } with
  | mk answer after =>
    cases answer with
    | error e => simp [outcome, roll, clampsFirst, hpool]
    | ok p =>
      obtain ⟨faces, rfl, -, hbounds⟩ := Pool.roll_value hbounded hpool
      have hfaces : ∀ x ∈ faces, x ∈ g.sides.faces := fun x hx => Sides.mem_faces.2 (hbounds x hx)
      obtain ⟨trace, hroll⟩ := exists_roll_eq hw hg hfaces hpool
      obtain ⟨trace', hroll'⟩ :=
        exists_roll_eq (writable_clampsFirst hw) (rollsOnce_clampsFirst hg) hfaces hpool
      rw [worth_clampsFirst hg] at hroll'
      rw [outcome, outcome, hroll, hroll']
      cases checked (g.worth faces) with
      | error a => exact ⟨rfl, rfl⟩
      | ok value => exact ⟨rfl, rfl⟩

end DiceGroup

namespace Expr

theorem writable_of_mem_groups {e : Expr} {g : DiceGroup} (he : e.Writable) (hg : g ∈ e.groups) :
    g.Writable := by
  induction e with
  | literal x => cases hg
  | dice g' =>
    rw [List.mem_singleton.1 hg]
    exact he
  | negate e ih => exact ih he hg
  | binary op l r ihl ihr => exact (List.mem_append.1 hg).elim (ihl he.1) (ihr he.2)

/-- In a group read from a text whose modifiers roll no dice, all clamps may come first, in their order,
then all selections, in theirs, and of the conditions for a success only the last one at the end. On every
throw of its dice the group comes to its worth, unless that is out of range, and the order makes no
difference to it. Nor does it under any cap or on any other roller that answers within bounds. -/
theorem outcome_clampsFirst_of_parse {text : String} {e : Expr} {g : DiceGroup}
    (hparse : Expr.parse text = .ok e) (hmem : g ∈ e.groups) (honce : g.RollsOnce) :
    (∀ (faces : List Int) (c : Context Playback), (dice g).IsThrow faces → c.Offers faces →
      g.outcome c = (checked (g.worth faces)).mapError .ofArithmetic ∧
        g.clampsFirst.outcome c = g.outcome c) ∧
      ∀ (ρ : Type) [Roller ρ] (c : Context ρ), Roller.Bounded ρ →
        g.clampsFirst.outcome c = g.outcome c ∧ (g.clampsFirst.roll c).2 = (g.roll c).2 := by
  have hw := writable_of_mem_groups (writable_of_parse hparse) hmem
  refine ⟨fun faces c hthrow hc => ⟨?_, ?_⟩,
    fun ρ _ c hbounded => g.outcome_clampsFirst hbounded hw honce c⟩
  · have hdraw := mem_throws.2 hthrow
    rw [throws, mem_draws] at hdraw
    exact DiceGroup.outcome_of_offers hw honce hdraw.1 hdraw.2 hc
  · exact (g.outcome_clampsFirst Playback.bounded hw honce c).1

/-- The second and the fourth die are kept. Had all been moved down to three before, it would be the first
and the second. -/
def lateClamp : DiceGroup :=
  ⟨⟨5, by decide, by decide⟩, .usual,
    [.countSuccesses (.equalTo 6), .select ⟨.keep, .highest, 2⟩, .clamp (.maximum 3),
      .countSuccesses (.equalTo 3)]⟩

theorem lateClamp_clampsFirst :
    Expr.parse "1+5d6cs6kh2ma3cs3" = .ok (.binary .add (.literal 1) (.dice lateClamp)) ∧
      lateClamp.clampsFirst.modifiers =
        [.clamp (.maximum 3), .select ⟨.keep, .highest, 2⟩, .countSuccesses (.equalTo 3)] ∧
      lateClamp.outcome (.start ⟨none, 100, 0⟩ (Playback.ofList [4, 6, 2, 5, 1])) = .ok 2 ∧
      lateClamp.clampsFirst.outcome (.start ⟨none, 100, 0⟩ (Playback.ofList [4, 6, 2, 5, 1])) = .ok 2 := by
  have hparse : Expr.parse "1+5d6cs6kh2ma3cs3" =
      .ok (.binary .add (.literal 1) (.dice lateClamp)) := by decide
  have honce : lateClamp.RollsOnce := by
    simp [lateClamp, DiceGroup.RollsOnce, Modifier.rollsDice]
  have hthrow : (dice lateClamp).IsThrow [4, 6, 2, 5, 1] := by
    unfold IsThrow
    decide
  have htwo : (checked (lateClamp.worth [4, 6, 2, 5, 1])).mapError RollError.ofArithmetic = .ok 2 := by
    decide
  obtain ⟨houtcome, hsame⟩ :=
    (outcome_clampsFirst_of_parse hparse (by simp [groups]) honce).1 [4, 6, 2, 5, 1]
      (.start ⟨none, 100, 0⟩ (Playback.ofList [4, 6, 2, 5, 1])) hthrow ⟨rfl, rfl⟩
  rw [htwo] at houtcome
  exact ⟨hparse, rfl, houtcome, hsame.trans houtcome⟩

end Expr

end DiceNotation
