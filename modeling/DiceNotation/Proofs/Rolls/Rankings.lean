import DiceNotation.Proofs.Rolls.Pools

/-!
# Selections by rank

Among the dice in play a die is ranked by its value, and of equal values the earlier roll comes first.
This leaves no choice, so there is one ranking. A selection splits it in two and takes the dice of one part
out of play. To keep the best dice and to drop all but so many from the other end is not the same: of
equal values they keep different dice. The values kept are the same.
-/

namespace DiceNotation

namespace Rank

/-- Whether the first value is strictly better. -/
def Beats : Rank → Int → Int → Prop
  | highest, x, y => y < x
  | lowest, x, y => x < y

/-- Whether the first die, given with its position, comes before the second. -/
def Outranks (rank : Rank) (a b : Die × Nat) : Prop :=
  rank.Beats a.1.value b.1.value ∨ a.1.value = b.1.value ∧ a.2 < b.2

theorem beats_of_before {rank : Rank} {x y : Int} (h : rank.before x y) (hne : x ≠ y) :
    rank.Beats x y := by
  cases rank with
  | highest =>
    simp only [before, Beats, decide_eq_true_eq] at *
    omega
  | lowest =>
    simp only [before, Beats, decide_eq_true_eq] at *
    omega

theorem not_outranks_of_outranks {rank : Rank} {a b : Die × Nat} (h : rank.Outranks a b) :
    ¬ rank.Outranks b a := by
  cases rank with
  | highest =>
    simp only [Outranks, Beats] at *
    omega
  | lowest =>
    simp only [Outranks, Beats] at *
    omega

end Rank

namespace Pool

/-- The dice in play with their positions, each before all that it outranks. -/
structure IsRanking (rank : Rank) (dice : List Die) (order : List (Die × Nat)) : Prop where
  perm : order.Perm (keptDice dice)
  ordered : order.Pairwise rank.Outranks

section Ranking

variable (rank : Rank) (dice : List Die)

theorem pairwise_keptDice : (keptDice dice).Pairwise fun a b => a.2 < b.2 := by
  have hall : (dice.zipIdx.map Prod.snd).Pairwise (· < ·) := by
    rw [List.zipIdx_map_snd]
    exact List.pairwise_lt_range' 1
  exact (List.pairwise_map.1 hall).sublist List.filter_sublist

/-- Sorting leaves dice of one value in the order of the rolls. -/
theorem filter_value_ranked (x : Int) :
    (ranked rank dice).filter (·.1.value = x) = (keptDice dice).filter (·.1.value = x) := by
  have htied : ((keptDice dice).filter (·.1.value = x)).Pairwise fun a b =>
      rank.before a.1.value b.1.value = true := by
    refine List.pairwise_of_forall_mem_list fun a ha b hb => ?_
    have hvalues : a.1.value = b.1.value := by
      rw [of_decide_eq_true (List.mem_filter.1 ha).2, of_decide_eq_true (List.mem_filter.1 hb).2]
    have htotal := rank.before_total a.1.value b.1.value
    rw [← hvalues, Bool.or_self] at htotal
    rwa [← hvalues]
  -- Dice of one value are in order as they stand, so sorting does not part them.
  have hsub : ((keptDice dice).filter (·.1.value = x)).Sublist (ranked rank dice) := by
    refine List.sublist_mergeSort ?_ ?_ htied List.filter_sublist
    · exact fun a b c => rank.before_trans
    · exact fun a b => rank.before_total a.1.value b.1.value
  have htwice := hsub.filter fun d => d.1.value = x
  simp only [List.filter_filter, Bool.and_self] at htwice
  have hperm : ((ranked rank dice).filter (·.1.value = x)).Perm _ :=
    (List.mergeSort_perm (keptDice dice) _).filter fun d => d.1.value = x
  exact (htwice.eq_of_length hperm.length_eq.symm).symm

theorem isRanking_ranked : IsRanking rank dice (ranked rank dice) where
  perm := List.mergeSort_perm _ _
  ordered := by
    refine List.pairwise_iff_forall_sublist.2 fun {a b} hab => ?_
    have hbefore := List.pairwise_iff_forall_sublist.1 (pairwise_ranked rank dice) hab
    by_cases htie : a.1.value = b.1.value
    · have hsub := hab.filter fun d => d.1.value = b.1.value
      rw [filter_value_ranked] at hsub
      have hpositions := (pairwise_keptDice dice).sublist (hsub.trans List.filter_sublist)
      simp only [htie, decide_true, List.filter_cons_of_pos, List.filter_nil,
        List.pairwise_pair] at hpositions
      exact .inr ⟨htie, hpositions⟩
    · exact .inl (Rank.beats_of_before hbefore htie)

variable {rank dice}

/-- The order of the dice in play leaves no choice. -/
theorem isRanking_iff {order : List (Die × Nat)} :
    IsRanking rank dice order ↔ order = ranked rank dice := by
  constructor
  · intro h
    have hranked := isRanking_ranked rank dice
    refine List.Perm.eq_of_pairwise (fun a b _ _ hab hba => ?_) h.ordered hranked.ordered
      (h.perm.trans hranked.perm.symm)
    exact absurd hba (Rank.not_outranks_of_outranks hab)
  · rintro rfl
    exact isRanking_ranked rank dice

end Ranking

/-- Of the dice in play those given with their positions stay and all others are dropped. Nothing else
about any die changes. -/
structure Keeps (p after : Pool) (stay : List (Die × Nat)) : Prop where
  inPlay : (keptDice after.dice).Perm stay
  eq : after = { p with
    dice := p.dice.mapIdx fun i d => if d.isKept ∧ i ∉ stay.map Prod.snd then d.drop else d }

theorem mem_positions_keptDice {dice : List Die} {i : Nat} {d : Die} (h : dice[i]? = some d) :
    i ∈ (keptDice dice).map Prod.snd ↔ d.isKept := by
  have hmem (e : Die) : (e, i) ∈ keptDice dice ↔ e.isKept ∧ d = e := by
    rw [keptDice, List.mem_filter, List.mem_zipIdx_iff_getElem?, h, Option.some_inj, and_comm]
  simp only [List.mem_map, Prod.exists, exists_eq_right, hmem, exists_eq_right']

/-- Dropping one part of the dice in play keeps the other. -/
theorem keeps_dropAt {p : Pool} {stay out : List (Die × Nat)}
    (h : (keptDice p.dice).Perm (stay ++ out)) :
    p.Keeps { p with dice := dropAt (out.map Prod.snd) p.dice } stay where
  inPlay := (keptDice_dropAt_perm h).1
  eq := by
    have hpositions := h.map Prod.snd
    have hnodup := hpositions.nodup_iff.1 (nodup_keptDice p.dice)
    rw [List.map_append] at hpositions hnodup
    rw [dropAt_eq_mapIdx]
    congr 1
    refine List.ext_getElem? fun i => ?_
    rw [List.getElem?_mapIdx, List.getElem?_mapIdx]
    refine Option.map_congr fun d hd => ?_
    have hkept := mem_positions_keptDice hd
    rw [hpositions.mem_iff, List.mem_append] at hkept
    have hapart : i ∈ stay.map Prod.snd → i ∉ out.map Prod.snd :=
      fun hstay hout => (List.nodup_append.1 hnodup).2.2 i hstay i hout rfl
    -- A die in play is in one of the two parts, and any other die is in neither.
    have hout : i ∈ out.map Prod.snd ↔ d.isKept ∧ i ∉ stay.map Prod.snd := by tauto
    simp only [hout]

/-- What a selection by rank does to a pool, in terms of the ranking of its dice in play. -/
theorem select_keeps {rank : Rank} {p : Pool} {order : List (Die × Nat)}
    (h : IsRanking rank p.dice order) (n : Nat) :
    p.Keeps (p.select ⟨.keep, rank, n⟩) (order.take n) ∧
      p.Keeps (p.select ⟨.drop, rank, n⟩) (order.drop n) := by
  have hranked := isRanking_iff.1 h
  have hsplit : (keptDice p.dice).Perm (order.take n ++ order.drop n) := by
    rw [List.take_append_drop]
    exact h.perm.symm
  constructor
  · have hkeep := keeps_dropAt hsplit
    rw [List.map_drop, hranked] at hkeep
    rw [hranked]
    exact hkeep
  · have hdrop := keeps_dropAt (hsplit.trans List.perm_append_comm)
    rw [List.map_take, hranked] at hdrop
    rw [hranked]
    exact hdrop

/-- Keeping at one end is dropping the rest from the other, up to the choice between equal values. If
more dice are named than there are, all are kept and none is dropped. -/
theorem keptValues_keep_perm_drop (p : Pool) (n : Nat) :
    let k := (keptDice p.dice).length
    (keptValues (p.select ⟨.keep, .highest, n⟩).dice).Perm
        (keptValues (p.select ⟨.drop, .lowest, k - n⟩).dice) ∧
      (keptValues (p.select ⟨.keep, .lowest, n⟩).dice).Perm
        (keptValues (p.select ⟨.drop, .highest, k - n⟩).dice) := by
  intro k
  have hlength : p.showing.hand.length = k := by
    have hand := (Hands.ofFaces_perm (keptValues p.dice)).length_eq
    rwa [keptValues_eq p.dice, List.length_map, ← keptValues_eq p.dice] at hand
  have hperm {s t : Selection} (h : s.pick p.showing.hand = t.pick p.showing.hand) :
      (keptValues (p.select s).dice).Perm (keptValues (p.select t).dice) := by
    have hands : (p.select s).showing.hand = (p.select t).showing.hand := by
      rw [showing_select, showing_select]
      exact h
    refine (Hands.ofFaces_perm _).symm.trans ?_
    rw [show Hands.ofFaces (keptValues (p.select s).dice) = _ from hands]
    exact Hands.ofFaces_perm _
  constructor
  · refine hperm ?_
    simp only [Selection.pick, hlength]
  · refine hperm ?_
    simp only [Selection.pick, hlength]
    rw [List.take_eq_take_iff]
    omega

/-- Two dice that show the same. -/
def twins : Pool :=
  let one : Die := .fresh 0 1 .initial
  ⟨0, .usual, [one, one], none⟩

/-- Whichever way twins are ranked, the earlier roll is kept, and it is the one dropped as well. -/
theorem keptPositions_select_twins (rank : Rank) :
    (twins.select ⟨.keep, rank, 1⟩).keptPositions = [0] ∧
      (twins.select ⟨.drop, rank, 1⟩).keptPositions = [1] := by
  have hranking : IsRanking rank twins.dice (keptDice twins.dice) :=
    ⟨.refl _, List.pairwise_pair.2 (.inr ⟨rfl, by decide⟩)⟩
  obtain ⟨hkeep, hdrop⟩ := select_keeps hranking 1
  exact ⟨(hkeep.inPlay.map Prod.snd).eq_singleton, (hdrop.inPlay.map Prod.snd).eq_singleton⟩

/-- A selection by rank keeps the first dice of the one ranking, or all but the first ones, and changes
nothing else. Keeping at one end and dropping at the other leave the same values, but of equal values not
always the same dice. -/
theorem select_by_rank :
    (∀ (p : Pool) (n : Nat),
      let k := (keptDice p.dice).length
      (∀ rank, ∃ order,
        (∀ other, IsRanking rank p.dice other ↔ other = order) ∧
          p.Keeps (p.select ⟨.keep, rank, n⟩) (order.take n) ∧
          (keptDice (p.select ⟨.keep, rank, n⟩).dice).length = min n k ∧
          p.Keeps (p.select ⟨.drop, rank, n⟩) (order.drop n) ∧
          (keptDice (p.select ⟨.drop, rank, n⟩).dice).length = k - min n k) ∧
        (keptValues (p.select ⟨.keep, .highest, n⟩).dice).Perm
          (keptValues (p.select ⟨.drop, .lowest, k - n⟩).dice) ∧
        (keptValues (p.select ⟨.keep, .lowest, n⟩).dice).Perm
          (keptValues (p.select ⟨.drop, .highest, k - n⟩).dice)) ∧
      ∃ (p : Pool) (n : Nat),
        let k := (keptDice p.dice).length
        n ≤ k ∧
          (p.select ⟨.keep, .highest, n⟩).keptPositions ≠
            (p.select ⟨.drop, .lowest, k - n⟩).keptPositions ∧
          (p.select ⟨.keep, .lowest, n⟩).keptPositions ≠
            (p.select ⟨.drop, .highest, k - n⟩).keptPositions := by
  constructor
  · intro p n k
    refine ⟨fun rank => ⟨ranked rank p.dice, fun other => isRanking_iff, ?_⟩,
      p.keptValues_keep_perm_drop n⟩
    have hranking := isRanking_ranked rank p.dice
    have hlength : (ranked rank p.dice).length = k := hranking.perm.length_eq
    obtain ⟨hkeep, hdrop⟩ := select_keeps hranking n
    refine ⟨hkeep, ?_, hdrop, ?_⟩
    · rw [hkeep.inPlay.length_eq, List.length_take, hlength]
    · rw [hdrop.inPlay.length_eq, List.length_drop, hlength]
      omega
  · obtain ⟨hhighest, hnotHighest⟩ := keptPositions_select_twins .highest
    obtain ⟨hlowest, hnotLowest⟩ := keptPositions_select_twins .lowest
    have htwo : (keptDice twins.dice).length = 2 := rfl
    refine ⟨twins, 1, ?_⟩
    simp only [htwo, hhighest, hnotHighest, hlowest, hnotLowest]
    decide

end Pool

end DiceNotation
