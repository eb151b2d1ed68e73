import DiceNotation.Proofs.Results.Parts

/-!
# The trace as a log

The trace of a successful evaluation holds the answers of the roller, all of them and in order, sorted by
group. Nothing else about the roller matters: played back, the faces of the trace give the same value
and the same trace.
-/

namespace DiceNotation

variable {ρ : Type}

namespace Expr

variable [Roller ρ]

/-- The trace of an evaluation from `c` to `after` is a complete log of its rolls. -/
structure LogsRolls (e : Expr) (c : Context ρ) (v : Evaluated) (after : Context ρ) : Prop where
  /-- Recording the roller changes nothing and shows the faces of the trace. -/
  recorded : ∃ r, e.evaluate c.recorded = (.ok v, r) ∧ r.unrecorded = after ∧
    r.roller.answers = v.trace.map fun d => .ok d.rolled
  rolls_eq : after.rolls = v.trace.length
  groups_pairwise : (v.trace.map Die.group).Pairwise (· ≤ ·)
  mem_groups_iff : ∀ i, i ∈ v.trace.map Die.group ↔ i < e.diceGroups
  /-- Playing the faces of the trace back gives the same value and the same trace. -/
  replayed : ∀ d : Context Playback, d.limits = c.limits →
    d.roller = .ofList (v.trace.map Die.rolled) → (e.evaluate d).1 = .ok v

theorem evaluate_logsRolls (hbounded : Roller.Bounded ρ) {e : Expr} {c after : Context ρ}
    {v : Evaluated} (h : e.evaluate c = (.ok v, after)) : e.LogsRolls c v after := by
  obtain ⟨t, hleads, -, hrun⟩ := e.exists_play
  obtain ⟨parts, hrolled, hmade⟩ := exists_parts h
  have hgroups := DiceGroup.allRolled_of_rollAll hrolled
  let start : Context ρ := { c with rolls := 0, groups := 0 }
  have hplain : t.run start = ⟨v, none, after⟩ := Run.of_answer_eq_ok ((hrun ρ start).symm.trans h)
  have hlog : v.trace.map Die.rolled = t.faces start := by
    have := hleads.value (c := start)
    rw [hplain] at this
    exact this rfl
  constructor
  · have hrecorded : e.evaluate c.recorded = (t.run start.recorded).answer := hrun _ start.recorded
    have hboth := (e.evaluate_unrecorded c).symm.trans h
    obtain ⟨hvalue, hafter⟩ := Prod.mk.inj hboth
    have hok : e.evaluate c.recorded = (.ok v, (e.evaluate c.recorded).2) := Prod.ext hvalue rfl
    refine ⟨_, hok, hafter, ?_⟩
    have hr := Run.of_answer_eq_ok (hrecorded.symm.trans hok)
    have hseen := hleads.value (c := start.recorded) (by rw [hr])
    have hanswers := Play.answers_eq (t := t) (c := start.recorded) (by rw [hr])
    rw [← hseen, hr, List.map_map] at hanswers
    exact hanswers
  · have hcount := Play.rolls_eq (t := t) (c := start) (by rw [hplain])
    rw [hplain, ← hlog, List.length_map] at hcount
    exact hcount.trans (Nat.zero_add _)
  · rw [hmade.trace]
    exact hgroups.groups_pairwise
  · intro i
    have hindex := hgroups.mem_groups_iff i
    rw [length_groups] at hindex
    simp only at hindex
    rw [hmade.trace, hindex]
    omega
  · intro d hlimits hroller
    have hmirrors : Play.Mirrors { d with rolls := 0, groups := 0 } start (t.faces start ++ []) := by
      refine ⟨hlimits, rfl, rfl, ?_⟩
      rw [hroller, List.append_nil, ← hlog]
      rfl
    obtain ⟨hvalue, hfailure⟩ := Play.run_mirrored hbounded (by rw [hplain]) hmirrors
    rw [hplain] at hvalue
    refine (congrArg Prod.fst (hrun _ _)).trans ?_
    unfold Run.answer
    rw [hfailure, hvalue]

/-- A die that is rerolled on a one, and one that explodes on a six. -/
def unevenPair : Expr :=
  .binary .add (.dice ⟨.one, .usual, [.reroll .once (.equalTo 1)]⟩)
    (.dice ⟨.one, .usual, [.explode .recursive (.equalTo 6)]⟩)

theorem unevenPair_logsRolls :
    Roller.Bounded Playback ∧ ∃ v after,
      unevenPair.evaluate (.start .usual (Playback.ofList [1, 5, 6, 3])) = (.ok v, after) ∧
        v.value = 14 ∧ v.trace.map Die.rolled = [1, 5, 6, 3] ∧
        v.trace.map Die.group = [0, 0, 1, 1] ∧
        unevenPair.LogsRolls (.start .usual (Playback.ofList [1, 5, 6, 3])) v after :=
  ⟨Playback.bounded, _, _, rfl, rfl, rfl, rfl, evaluate_logsRolls Playback.bounded rfl⟩

end Expr

end DiceNotation
