import DiceNotation.Proofs.Results.Parts

/-!
# Working the total out again

Evaluating an expression, sorting its trace by group and refolding the sorted trace are three walks
that number the groups alike: a result has one group for each group of dice, which is worth what it was
worth in the evaluation, and from these values alone the total comes out again.
-/

namespace DiceNotation

variable {ρ : Type}

namespace DiceGroup

variable {index : Nat} {groups : List DiceGroup} {parts : List Evaluated}

theorem AllRolled.scores (h : AllRolled index groups parts) :
    List.Forall₂ (fun g part => part.value = g.score part.trace) groups parts := by
  induction h with
  | nil => exact .nil
  | cons hpart _ ih => exact .cons hpart.score ih

theorem AllRolled.trace_ne_nil (h : AllRolled index groups parts) :
    ∀ part ∈ parts, part.trace ≠ [] := by
  induction h with
  | nil => simp
  | cons hpart _ ih => exact List.forall_mem_cons.2 ⟨hpart.trace_ne_nil, ih⟩

/-- The sorted trace has a record of every part. -/
theorem AllRolled.find?_ofTrace (h : AllRolled 0 groups parts) {i : Nat} {part : Evaluated}
    (hpart : parts[i]? = some part) :
    (GroupRolls.find? (GroupRolls.ofTrace (traceOf parts)) i).map GroupRolls.subtotal =
      some part.value := by
  have hgroup := h.ofGroup_eq hpart
  rw [Nat.zero_add] at hgroup
  obtain ⟨hi, -⟩ := List.getElem?_eq_some_iff.1 hpart
  have hindex : i ∈ GroupRolls.indices (traceOf parts) := by
    rw [h.indices_eq, List.mem_range'_1, ← h.length_eq]
    omega
  rw [GroupRolls.ofTrace_eq, GroupRolls.find?_map_of_mem (fun _ => rfl) hindex, hgroup]
  rfl

end DiceGroup

/-- A result accounts for the values that the groups of an expression had in its evaluation. -/
structure RollResult.AccountsFor (r : RollResult) (e : Expr) (parts : List Evaluated) : Prop where
  groups_eq : r.groups = parts.mapIdx fun i part => ⟨i, part.value, part.trace.toArray⟩
  length_eq : r.groups.length = e.diceGroups
  rolls_ne_empty : ∀ g ∈ r.groups, g.rolls ≠ #[]
  /-- A part is worth the sum of its dice in play, or the number of successes among them. -/
  scores : List.Forall₂ (fun g part => part.value = g.score part.trace) e.groups parts
  built : r.groups = GroupRolls.ofTrace (parts.flatMap Evaluated.trace)
  /-- No subtotal is out of range while the result is built, die by die. -/
  inRange : ∀ n, ∀ g ∈ GroupRolls.ofTrace ((parts.flatMap Evaluated.trace).take n),
    InRange g.subtotal
  refold_eq : r.refold e = .ok r.total

namespace Expr

variable [Roller ρ]

theorem rollResult_accountsFor {e : Expr} {roller after : ρ} {limits : Limits} {r : RollResult}
    (h : e.rollResult roller limits = (.ok r, after)) :
    ∃ parts last, DiceGroup.rollAll e.groups (.start limits roller) = (.ok parts, last) ∧
      last.roller = after ∧ r.AccountsFor e parts := by
  rw [rollResult] at h
  split at h
  · cases h
  · next v last hv =>
    cases h
    obtain ⟨parts, hrolled, hmade⟩ := exists_parts hv
    have hall : DiceGroup.AllRolled 0 e.groups parts := DiceGroup.allRolled_of_rollAll hrolled
    have hbuilt : GroupRolls.ofTrace v.trace = GroupRolls.ofTrace (DiceGroup.traceOf parts) := by
      rw [hmade.trace]
    have hgroups := hbuilt.trans hall.ofTrace_eq
    refine ⟨parts, last, hrolled, rfl, hgroups, ?_, ?_, hall.scores, hbuilt, hall.inRange_subtotal, ?_⟩
    · rw [RollResult.ofTrace, hgroups, List.length_mapIdx, hall.length_eq, length_groups]
    · intro g hg
      rw [RollResult.ofTrace, hgroups] at hg
      obtain ⟨i, hi, rfl⟩ := List.mem_mapIdx.1 hg
      have hne := hall.trace_ne_nil _ (List.getElem_mem hi)
      simpa using hne
    · have hrecords : ∀ i part, parts[i]? = some part →
          (GroupRolls.find? (GroupRolls.ofTrace v.trace) (0 + i)).map GroupRolls.subtotal =
            some part.value := by
        intro i part hpart
        rw [hbuilt, Nat.zero_add]
        exact hall.find?_ofTrace hpart
      rw [RollResult.refold, RollResult.ofTrace, hmade.refold _ 0 hrecords]
      rfl

/-- Successes against the sum of dice that explode. -/
def contest : Expr :=
  .binary .sub
    (.negate (.dice
      ⟨.one, .usual, [.explode .once (.equalTo 6), .countSuccesses ⟨.greater, 4⟩]⟩))
    (.binary .mul (.literal 2) (.dice ⟨.one, .usual, [.explode .recursive (.equalTo 6)]⟩))

theorem contest_accountsFor :
    ∃ r after, contest.rollResult (Playback.ofList [6, 5, 6, 3]) .usual = (.ok r, after) ∧
      r.total = -20 ∧ r.groups.map GroupRolls.subtotal = [2, 9] ∧
      ∃ parts last,
        DiceGroup.rollAll contest.groups (.start .usual (Playback.ofList [6, 5, 6, 3])) =
          (.ok parts, last) ∧
        last.roller = after ∧ r.AccountsFor contest parts :=
  ⟨_, _, rfl, rfl, rfl, rollResult_accountsFor rfl⟩

end Expr

end DiceNotation
