import DiceNotation.Proofs.Plays.Evaluation
import DiceNotation.Proofs.Results.Grouping

/-!
# Traces made of parts

The groups of an expression are rolled one after another, so the trace falls into one part for each of
them. Sorted by group, the trace falls into the same parts.
-/

namespace DiceNotation

namespace DiceGroup

variable {index : Nat} {groups : List DiceGroup} {parts : List Evaluated}

/-- The trace of all groups. -/
abbrev traceOf (parts : List Evaluated) : List Die := parts.flatMap Evaluated.trace

theorem AllRolled.length_eq (h : AllRolled index groups parts) : parts.length = groups.length := by
  induction h with
  | nil => rfl
  | cons _ _ ih => rw [List.length_cons, List.length_cons, ih]

theorem AllRolled.rolled (h : AllRolled index groups parts) {i : Nat} {part : Evaluated}
    (hpart : parts[i]? = some part) :
    ∃ g faces, groups[i]? = some g ∧ g.Rolled (index + i) faces part := by
  induction h generalizing i with
  | nil => cases hpart
  | @cons index g rest faces first parts hfirst _ ih =>
    cases i with
    | zero =>
      cases hpart
      exact ⟨g, faces, rfl, hfirst⟩
    | succ i =>
      obtain ⟨g', faces', hg', hrolled⟩ := ih hpart
      rw [Nat.add_assoc, Nat.add_comm 1 i] at hrolled
      exact ⟨g', faces', hg', hrolled⟩

theorem Rolled.filter_eq {g : DiceGroup} {faces : List Int} {part : Evaluated}
    (h : g.Rolled index faces part) :
    (part.trace.filter fun d => d.group = index) = part.trace :=
  List.filter_eq_self.2 fun d hd => decide_eq_true (h.group_eq d hd)

theorem Rolled.map_group {g : DiceGroup} {faces : List Int} {part : Evaluated}
    (h : g.Rolled index faces part) :
    part.trace.map Die.group = List.replicate part.trace.length index := by
  refine List.eq_replicate_iff.2 ⟨List.length_map .., fun i hi => ?_⟩
  obtain ⟨d, hd, rfl⟩ := List.mem_map.1 hi
  exact h.group_eq d hd

theorem AllRolled.le_group (h : AllRolled index groups parts) :
    ∀ d ∈ traceOf parts, index ≤ d.group := by
  induction h with
  | nil => simp
  | @cons index g rest faces part parts hpart hrest ih =>
    intro d hd
    rw [traceOf, List.flatMap_cons, List.mem_append] at hd
    rcases hd with hd | hd
    · exact Nat.le_of_eq (hpart.group_eq d hd).symm
    · have := ih d hd
      omega

/-- Sorting the trace gives every part back its own dice. -/
theorem AllRolled.filter_eq (h : AllRolled index groups parts) {i : Nat} {part : Evaluated}
    (hpart : parts[i]? = some part) :
    ((traceOf parts).filter fun d => d.group = index + i) = part.trace := by
  induction h generalizing i with
  | nil => cases hpart
  | @cons index g rest faces first parts hfirst hrest ih =>
    rw [traceOf, List.flatMap_cons, List.filter_append]
    cases i with
    | zero =>
      cases hpart
      have hnone : (traceOf parts).filter (fun d => d.group = index) = [] := by
        rw [List.filter_eq_nil_iff]
        intro d hd heq
        have := hrest.le_group d hd
        have := of_decide_eq_true heq
        omega
      rw [Nat.add_zero, hfirst.filter_eq, hnone, List.append_nil]
    | succ i =>
      have hnone : first.trace.filter (fun d => d.group = index + (i + 1)) = [] := by
        rw [List.filter_eq_nil_iff]
        intro d hd heq
        have := hfirst.group_eq d hd
        have := of_decide_eq_true heq
        omega
      have hindex : index + (i + 1) = index + 1 + i := by omega
      rw [hnone, List.nil_append, hindex]
      exact ih hpart

theorem AllRolled.indices_eq (h : AllRolled index groups parts) :
    GroupRolls.indices (traceOf parts) = List.range' index groups.length := by
  induction h with
  | nil => rfl
  | @cons index g rest faces part parts hpart hrest ih =>
    have hlength : part.trace.length ≠ 0 := fun hnil =>
      hpart.trace_ne_nil (List.length_eq_zero_iff.1 hnil)
    have hnew : index ∉ (traceOf parts).map Die.group := by
      intro hmem
      obtain ⟨d, hd, heq⟩ := List.mem_map.1 hmem
      have := hrest.le_group d hd
      omega
    rw [GroupRolls.indices, traceOf, List.flatMap_cons, List.map_append, hpart.map_group,
      eraseDups_replicate_append hlength hnew, List.length_cons, List.range'_succ]
    exact congrArg (index :: ·) ih

/-- Every group has left its index in the trace. -/
theorem AllRolled.mem_groups_iff (h : AllRolled index groups parts) (i : Nat) :
    i ∈ (traceOf parts).map Die.group ↔ index ≤ i ∧ i < index + groups.length := by
  rw [← GroupRolls.mem_indices, h.indices_eq, List.mem_range'_1]

theorem AllRolled.groups_pairwise (h : AllRolled index groups parts) :
    ((traceOf parts).map Die.group).Pairwise (· ≤ ·) := by
  induction h with
  | nil => exact .nil
  | @cons index g rest faces part parts hpart hrest ih =>
    rw [traceOf, List.flatMap_cons, List.map_append, List.pairwise_append, hpart.map_group]
    refine ⟨List.pairwise_replicate.2 (.inr (Nat.le_refl index)), ih, fun i hi j hj => ?_⟩
    obtain ⟨d, hd, rfl⟩ := List.mem_map.1 hj
    have := hrest.le_group d hd
    rw [(List.mem_replicate.1 hi).2]
    omega

/-- The sorted trace shows every part as it was rolled. -/
theorem AllRolled.ofGroup_eq (h : AllRolled index groups parts) {i : Nat} {part : Evaluated}
    (hpart : parts[i]? = some part) :
    GroupRolls.ofGroup (traceOf parts) (index + i) =
      ⟨index + i, part.value, part.trace.toArray⟩ := by
  obtain ⟨g, faces, -, hrolled⟩ := h.rolled hpart
  have hvalue := Pool.sumFrom_eq_ok hrolled.sum
  rw [Int.zero_add] at hvalue
  rw [GroupRolls.ofGroup, h.filter_eq hpart, hvalue]

theorem AllRolled.ofTrace_eq (h : AllRolled 0 groups parts) :
    GroupRolls.ofTrace (traceOf parts) =
      parts.mapIdx fun i part => ⟨i, part.value, part.trace.toArray⟩ := by
  rw [GroupRolls.ofTrace_eq, h.indices_eq, ← h.length_eq]
  refine List.ext_getElem (by simp) fun i hi _ => ?_
  have hlt : i < parts.length := by simpa using hi
  have hgroup := h.ofGroup_eq (List.getElem?_eq_getElem hlt)
  rw [Nat.zero_add] at hgroup
  simp only [List.getElem_map, List.getElem_range', List.getElem_mapIdx, Nat.zero_add, Nat.one_mul,
    hgroup]

/-- While the trace is sorted, no subtotal is out of range. -/
theorem AllRolled.inRange_subtotal (h : AllRolled index groups parts) (n : Nat) :
    ∀ g ∈ GroupRolls.ofTrace ((traceOf parts).take n), InRange g.subtotal := by
  intro g hg
  rw [GroupRolls.ofTrace_eq] at hg
  obtain ⟨i, hi, rfl⟩ := List.mem_map.1 hg
  have hmem : i ∈ (traceOf parts).map Die.group := by
    have htaken := GroupRolls.mem_indices.1 hi
    rw [List.map_take] at htaken
    exact List.mem_of_mem_take htaken
  obtain ⟨hlow, hhigh⟩ := (h.mem_groups_iff i).1 hmem
  obtain ⟨j, rfl⟩ := Nat.exists_eq_add_of_le hlow
  rw [← h.length_eq, Nat.add_lt_add_iff_left] at hhigh
  have hpart := List.getElem?_eq_getElem hhigh
  obtain ⟨_, _, -, hrolled⟩ := h.rolled hpart
  -- What has been sorted so far of one group are the first dice of its part.
  have hprefix := (List.take_prefix n (traceOf parts)).filter fun d => decide (d.group = index + j)
  rw [h.filter_eq hpart] at hprefix
  have hzero : InRange 0 := by decide
  have hrange := Pool.inRange_sum_take hzero hrolled.sum
    (((traceOf parts).take n).filter fun d => d.group = index + j).length
  rw [← List.prefix_iff_eq_take.1 hprefix, Int.zero_add] at hrange
  exact hrange

end DiceGroup

end DiceNotation
