import Mathlib.Algebra.Ring.Int.Defs
import Mathlib.Data.List.Induction
import Mathlib.Data.List.Nodup
import DiceNotation.RollResult

/-!
# Traces sorted by group

Whatever the trace, its groups come in the order in which they first occur, and each one holds the dice
of its index in the order of the trace. This says what `GroupRolls.ofTrace` does without the loop that
does it.
-/

namespace DiceNotation

section FirstOccurrences

variable {α : Type} [BEq α] [LawfulBEq α]

theorem eraseDups_concat_of_mem {l : List α} {x : α} (h : x ∈ l) :
    (l ++ [x]).eraseDups = l.eraseDups := by
  rw [List.eraseDups_append]
  simp [List.removeAll, h]

theorem eraseDups_concat_of_not_mem {l : List α} {x : α} (h : x ∉ l) :
    (l ++ [x]).eraseDups = l.eraseDups ++ [x] := by
  rw [List.eraseDups_append]
  simp [List.removeAll, h, List.eraseDups_cons]

theorem nodup_eraseDups (l : List α) : l.eraseDups.Nodup := by
  induction l using List.reverseRecOn with
  | nil => simp
  | append_singleton l x ih =>
    by_cases h : x ∈ l
    · rw [eraseDups_concat_of_mem h]
      exact ih
    · have hnew : x ∉ l.eraseDups := fun hx => h (List.mem_eraseDups.1 hx)
      rw [eraseDups_concat_of_not_mem h, ← List.concat_eq_append]
      exact ih.concat hnew

theorem eraseDups_replicate_append {n : Nat} (hn : n ≠ 0) {x : α} {l : List α} (h : x ∉ l) :
    (List.replicate n x ++ l).eraseDups = x :: l.eraseDups := by
  obtain ⟨k, rfl⟩ := Nat.exists_eq_succ_of_ne_zero hn
  have hsame : (List.replicate k x).filter (fun y => !y == x) = [] := by
    simp
  have hother : l.filter (fun y => !y == x) = l := by
    refine List.filter_eq_self.2 fun y hy => ?_
    have hne : y ≠ x := fun heq => h (heq ▸ hy)
    simpa using hne
  rw [List.replicate_succ, List.cons_append, List.eraseDups_cons, List.filter_append, hsame, hother,
    List.nil_append]

end FirstOccurrences

namespace GroupRolls

/-- The group of an index as a trace shows it. -/
def ofGroup (trace : List Die) (index : Nat) : GroupRolls :=
  let dice := trace.filter fun d => d.group = index
  ⟨index, (dice.map Die.worth).sum, dice.toArray⟩

/-- The groups of a trace in the order in which they first occur. -/
def indices (trace : List Die) : List Nat := (trace.map Die.group).eraseDups

theorem mem_indices {trace : List Die} {i : Nat} :
    i ∈ indices trace ↔ i ∈ trace.map Die.group := List.mem_eraseDups

theorem ofGroup_concat_self (trace : List Die) (d : Die) :
    ofGroup (trace ++ [d]) d.group = (ofGroup trace d.group).push d := by
  simp [ofGroup, push]

theorem ofGroup_concat_of_ne {trace : List Die} {d : Die} {i : Nat} (h : d.group ≠ i) :
    ofGroup (trace ++ [d]) i = ofGroup trace i := by
  simp [ofGroup, h]

theorem ofGroup_concat_new {trace : List Die} {d : Die} (h : d.group ∉ trace.map Die.group) :
    ofGroup (trace ++ [d]) d.group = ofDie d := by
  have hnone : trace.filter (fun old => old.group = d.group) = [] := by
    rw [List.filter_eq_nil_iff]
    intro old hold heq
    exact h (List.mem_map.2 ⟨old, hold, of_decide_eq_true heq⟩)
  simp [ofGroup, ofDie, hnone]

section Insertion

variable {f : Nat → GroupRolls} {d : Die} {indices : List Nat}

theorem insert_of_not_mem (hf : ∀ i, (f i).index = i) (h : d.group ∉ indices) :
    insert d (indices.map f) = indices.map f ++ [ofDie d] := by
  induction indices with
  | nil => rfl
  | cons i rest ih =>
    obtain ⟨hne, hrest⟩ := List.ne_and_not_mem_of_not_mem_cons h
    have hindex : ¬ (f i).index = d.group := by
      rw [hf]
      exact Ne.symm hne
    rw [List.map_cons, insert, if_neg hindex, ih hrest, List.cons_append]

/-- Only one of the groups can take the die in. -/
theorem insert_of_mem {f' : Nat → GroupRolls} (hf : ∀ i, (f i).index = i)
    (hself : f' d.group = (f d.group).push d) (hother : ∀ i, d.group ≠ i → f' i = f i)
    (hnodup : indices.Nodup) (h : d.group ∈ indices) :
    insert d (indices.map f) = indices.map f' := by
  induction indices with
  | nil => cases h
  | cons i rest ih =>
    obtain ⟨hi, hrest⟩ := List.nodup_cons.1 hnodup
    rw [List.map_cons, List.map_cons, insert]
    by_cases heq : d.group = i
    · subst heq
      have hsame : rest.map f' = rest.map f := by
        refine List.map_congr_left fun j hj => hother j ?_
        rintro rfl
        exact hi hj
      rw [if_pos (hf d.group), hself, hsame]
    · have hindex : ¬ (f i).index = d.group := by
        rw [hf]
        exact Ne.symm heq
      rw [if_neg hindex, hother i heq, ih hrest ((List.mem_cons.1 h).resolve_left heq)]

theorem find?_map_of_mem (hf : ∀ i, (f i).index = i) {i : Nat} (h : i ∈ indices) :
    find? (indices.map f) i = some (f i) := by
  induction indices with
  | nil => cases h
  | cons j rest ih =>
    rw [find?, List.map_cons, List.find?_cons, hf]
    by_cases heq : j = i
    · rw [decide_eq_true heq, heq]
    · rw [decide_eq_false heq]
      exact ih ((List.mem_cons.1 h).resolve_left (Ne.symm heq))

end Insertion

theorem ofTrace_concat (trace : List Die) (d : Die) :
    ofTrace (trace ++ [d]) = insert d (ofTrace trace) := List.foldl_concat ..

theorem ofTrace_eq (trace : List Die) : ofTrace trace = (indices trace).map (ofGroup trace) := by
  -- The dice come one after another, so the induction takes the last one off.
  induction trace using List.reverseRecOn with
  | nil => rfl
  | append_singleton trace d ih =>
    have hindex : ∀ i, (ofGroup trace i).index = i := fun _ => rfl
    rw [ofTrace_concat, ih]
    by_cases h : d.group ∈ trace.map Die.group
    · have hindices : indices (trace ++ [d]) = indices trace := by
        rw [indices, List.map_append, List.map_singleton, eraseDups_concat_of_mem h]
        rfl
      rw [hindices]
      exact insert_of_mem hindex (ofGroup_concat_self trace d) (fun i hi => ofGroup_concat_of_ne hi)
        (nodup_eraseDups _) (mem_indices.2 h)
    · have hindices : indices (trace ++ [d]) = indices trace ++ [d.group] := by
        rw [indices, List.map_append, List.map_singleton, eraseDups_concat_of_not_mem h]
        rfl
      have hold : (indices trace).map (ofGroup (trace ++ [d])) = (indices trace).map (ofGroup trace) := by
        refine List.map_congr_left fun i hi => ofGroup_concat_of_ne ?_
        rintro rfl
        exact h (mem_indices.1 hi)
      rw [hindices, List.map_append, List.map_singleton, hold, ofGroup_concat_new h,
        insert_of_not_mem hindex (fun hd => h (mem_indices.1 hd))]

end GroupRolls

end DiceNotation
