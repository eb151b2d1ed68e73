import DiceNotation.Proofs.Results.Grouping

/-!
# Traces parted into groups

However the groups are interleaved on a trace, sorting it by group parts it: each die goes to the one group
of its index, behind the dice of that group that came before it. What is read back group by group is
therefore the trace up to the order of the groups, and sorting it once more changes nothing.
-/

namespace DiceNotation

section FirstOccurrences

variable {α : Type} [BEq α] [LawfulBEq α]

/-- Without its repetitions a list is in the order of first occurrences. -/
theorem pairwise_idxOf_eraseDups (l : List α) :
    l.eraseDups.Pairwise fun x y => l.idxOf x < l.idxOf y := by
  induction l using List.reverseRecOn with
  | nil => simp
  | append_singleton l x ih =>
    have hold : ∀ {y}, y ∈ l.eraseDups → (l ++ [x]).idxOf y = l.idxOf y := fun hy =>
      List.idxOf_append_of_mem (List.mem_eraseDups.1 hy)
    have hearlier : l.eraseDups.Pairwise fun y z => (l ++ [x]).idxOf y < (l ++ [x]).idxOf z :=
      ih.imp_of_mem fun hy hz hlt => by rwa [hold hy, hold hz]
    by_cases h : x ∈ l
    · rwa [eraseDups_concat_of_mem h]
    · rw [eraseDups_concat_of_not_mem h]
      refine List.pairwise_append.2 ⟨hearlier, List.pairwise_singleton _ x, fun y hy z hz => ?_⟩
      have hlt := List.idxOf_lt_length_of_mem (List.mem_eraseDups.1 hy)
      rw [List.mem_singleton.1 hz, hold hy, List.idxOf_append_of_notMem h, List.idxOf_cons_self]
      omega

theorem eraseDups_flatMap_replicate {l : List α} (hl : l.Nodup) {n : α → Nat}
    (hn : ∀ x ∈ l, n x ≠ 0) : (l.flatMap fun x => List.replicate (n x) x).eraseDups = l := by
  induction l with
  | nil => rfl
  | cons x l ih =>
    obtain ⟨hx, hl⟩ := List.nodup_cons.1 hl
    have hnew : x ∉ l.flatMap fun y => List.replicate (n y) y := by
      intro hmem
      obtain ⟨y, hy, heq⟩ := List.mem_flatMap.1 hmem
      rw [List.eq_of_mem_replicate heq] at hx
      exact hx hy
    rw [List.flatMap_cons, eraseDups_replicate_append (hn x (by simp)) hnew,
      ih hl fun y hy => hn y (by simp [hy])]

end FirstOccurrences

section Shelves

variable {α κ : Type} [DecidableEq κ] {key : α → κ} {keys : List κ} {items : List α}

/-- Only one of distinct keys can be the one that counts. -/
theorem flatMap_ite_eq (hkeys : keys.Nodup) (k : κ) (shelf : List α) :
    (keys.flatMap fun j => if j = k then shelf else []) = if k ∈ keys then shelf else [] := by
  induction keys with
  | nil => rfl
  | cons j keys ih =>
    obtain ⟨hj, hkeys⟩ := List.nodup_cons.1 hkeys
    rw [List.flatMap_cons, ih hkeys]
    by_cases h : j = k
    · subst h
      simp [hj]
    · simp [h, Ne.symm h]

/-- Items put together key by key show under each key what they showed before. -/
theorem filter_flatMap_filter (hkeys : keys.Nodup) (hitems : ∀ x ∈ items, key x ∈ keys) (k : κ) :
    (keys.flatMap fun j => items.filter fun x => key x = j).filter (fun x => key x = k) =
      items.filter fun x => key x = k := by
  have hshelf : ∀ j, (items.filter fun x => key x = j).filter (fun x => key x = k) =
      if j = k then items.filter (fun x => key x = k) else [] := by
    intro j
    rw [List.filter_filter]
    split
    · next h => simp [h]
    · next h =>
      refine List.filter_eq_nil_iff.2 fun x _ => ?_
      simp only [Bool.and_eq_true, decide_eq_true_eq, not_and]
      rintro rfl hj
      exact h hj.symm
  rw [List.filter_flatMap]
  simp only [hshelf, flatMap_ite_eq hkeys]
  split
  · rfl
  · next hk =>
    refine (List.filter_eq_nil_iff.2 fun x hx heq => hk ?_).symm
    rw [← of_decide_eq_true heq]
    exact hitems x hx

/-- Lists that show the same items under each key differ in the order of the keys only. -/
theorem perm_of_filter_eq [DecidableEq α] {items' : List α}
    (h : ∀ k, items.filter (fun x => key x = k) = items'.filter fun x => key x = k) :
    items.Perm items' := by
  refine List.perm_iff_count.2 fun x => ?_
  have hcount : ∀ l : List α, (l.filter fun y => key y = key x).count x = l.count x := fun l =>
    List.count_filter (decide_eq_true rfl)
  rw [← hcount items, ← hcount items', h]

end Shelves

namespace RollResult

/-- The groups of the result part the trace: they are those whose index it shows, in the order in which it
first shows them, each with the dice of its index in the order of the trace and with their worth as its
subtotal. -/
structure IsPartitionOf (r : RollResult) (trace : List Die) : Prop where
  nodup : (r.groups.map GroupRolls.index).Nodup
  mem_iff : ∀ i, i ∈ r.groups.map GroupRolls.index ↔ i ∈ trace.map Die.group
  firstShown : (r.groups.map GroupRolls.index).Pairwise fun i j =>
    (trace.map Die.group).idxOf i < (trace.map Die.group).idxOf j
  rolls : ∀ g ∈ r.groups, g.rolls.toList = trace.filter fun d => d.group = g.index
  subtotal : ∀ g ∈ r.groups, g.subtotal = (g.rolls.toList.map Die.worth).sum

section

variable (total : Int) (trace : List Die)

theorem dice_ofTrace :
    (ofTrace total trace).dice =
      (GroupRolls.indices trace).flatMap fun i => trace.filter fun d => d.group = i := by
  rw [dice, ofTrace, GroupRolls.ofTrace_eq, List.flatMap_map]
  rfl

/-- Sorting a trace leaves the dice of each group as they were. -/
theorem filter_dice_ofTrace (i : Nat) :
    ((ofTrace total trace).dice.filter fun d => d.group = i) = trace.filter fun d => d.group = i := by
  rw [dice_ofTrace]
  exact filter_flatMap_filter (nodup_eraseDups _)
    (fun d hd => GroupRolls.mem_indices.2 (List.mem_map_of_mem hd)) i

theorem indices_dice_ofTrace :
    GroupRolls.indices (ofTrace total trace).dice = GroupRolls.indices trace := by
  have hgroups : (ofTrace total trace).dice.map Die.group =
      (GroupRolls.indices trace).flatMap fun i =>
        List.replicate (trace.filter fun d => d.group = i).length i := by
    rw [dice_ofTrace, List.map_flatMap]
    refine congrArg (List.flatMap · _) (funext fun i => ?_)
    refine List.eq_replicate_iff.2 ⟨List.length_map _, fun j hj => ?_⟩
    obtain ⟨d, hd, rfl⟩ := List.mem_map.1 hj
    exact of_decide_eq_true (List.mem_filter.1 hd).2
  rw [GroupRolls.indices, hgroups]
  refine eraseDups_flatMap_replicate (nodup_eraseDups _) fun i hi hnone => ?_
  obtain ⟨d, hd, rfl⟩ := List.mem_map.1 (GroupRolls.mem_indices.1 hi)
  have hmem : d ∈ trace.filter fun e => e.group = d.group :=
    List.mem_filter.2 ⟨hd, decide_eq_true rfl⟩
  rw [List.length_eq_zero_iff.1 hnone] at hmem
  cases hmem

theorem index_ofTrace :
    (ofTrace total trace).groups.map GroupRolls.index = GroupRolls.indices trace := by
  have hsame : GroupRolls.index ∘ GroupRolls.ofGroup trace = id := rfl
  rw [ofTrace, GroupRolls.ofTrace_eq, List.map_map, hsame, List.map_id]

theorem isPartitionOf_ofTrace : (ofTrace total trace).IsPartitionOf trace where
  nodup := by
    rw [index_ofTrace]
    exact nodup_eraseDups _
  mem_iff := fun i => by
    rw [index_ofTrace]
    exact GroupRolls.mem_indices
  firstShown := by
    rw [index_ofTrace]
    exact pairwise_idxOf_eraseDups _
  rolls := by
    intro g hg
    rw [ofTrace, GroupRolls.ofTrace_eq] at hg
    obtain ⟨i, -, rfl⟩ := List.mem_map.1 hg
    rfl
  subtotal := by
    intro g hg
    rw [ofTrace, GroupRolls.ofTrace_eq] at hg
    obtain ⟨i, -, rfl⟩ := List.mem_map.1 hg
    rfl

/-- Sorting what was sorted before changes nothing. -/
theorem ofTrace_dice_ofTrace : ofTrace total (ofTrace total trace).dice = ofTrace total trace := by
  have hgroup : GroupRolls.ofGroup (ofTrace total trace).dice = GroupRolls.ofGroup trace := by
    funext i
    rw [GroupRolls.ofGroup, filter_dice_ofTrace]
    rfl
  have hgroups : GroupRolls.ofTrace (ofTrace total trace).dice = GroupRolls.ofTrace trace := by
    rw [GroupRolls.ofTrace_eq, GroupRolls.ofTrace_eq, indices_dice_ofTrace, hgroup]
  rw [ofTrace, hgroups]
  rfl

end

/-- A sorted trace is parted into its groups. Read back group by group, the dice are those of the trace, in
the same order within each group, and sorting them gives the same result. -/
theorem ofTrace_partitions (total : Int) (trace : List Die) :
    (ofTrace total trace).IsPartitionOf trace ∧ (ofTrace total trace).dice.Perm trace ∧
      (∀ i, ((ofTrace total trace).dice.filter fun d => d.group = i) =
        trace.filter fun d => d.group = i) ∧
      ofTrace total (ofTrace total trace).dice = ofTrace total trace := by
  have hfilter := filter_dice_ofTrace total trace
  exact ⟨isPartitionOf_ofTrace total trace, perm_of_filter_eq hfilter, hfilter,
    ofTrace_dice_ofTrace total trace⟩

end RollResult

end DiceNotation
