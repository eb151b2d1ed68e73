import DiceNotation.Pool.Modify
import DiceNotation.Proofs.Rolls.Showing

/-!
# Pools and what they show

Carrying out a modifier on a pool is seen here through what the pool shows. A selection ranks the dice
in play and marks those at one end of the ranking by their positions; in what remains only the values
matter. The value of a pool is that of its showing.
-/

namespace DiceNotation

namespace Die

theorem worth_of_not_isKept {d : Die} (h : ¬ d.isKept) : d.worth = 0 := if_neg h

theorem worth_unmarked {d : Die} (h : d.isKept) (hd : d.success = none) : d.worth = d.value := by
  rw [worth, if_pos h, hd]

theorem worth_marked (d : Die) (success : Bool) :
    ({ d with success := some success } : Die).worth = if d.isKept && success then 1 else 0 := by
  by_cases h : d.isKept
  · have hmarked : ({ d with success := some success } : Die).isKept := h
    rw [worth, if_pos hmarked, h]
    cases success <;> rfl
  · have hmarked : ¬ ({ d with success := some success } : Die).isKept := h
    rw [worth_of_not_isKept hmarked]
    simp [h]

end Die

namespace Rank

theorem before_trans (rank : Rank) {x y z : Int} (h : rank.before x y) (h' : rank.before y z) :
    rank.before x z := by
  cases rank with
  | highest =>
    simp only [before, decide_eq_true_eq] at *
    omega
  | lowest =>
    simp only [before, decide_eq_true_eq] at *
    omega

theorem before_total (rank : Rank) (x y : Int) : rank.before x y || rank.before y x := by
  cases rank with
  | highest =>
    simp only [before, Bool.or_eq_true, decide_eq_true_eq]
    omega
  | lowest =>
    simp only [before, Bool.or_eq_true, decide_eq_true_eq]
    omega

end Rank

namespace Pool

/-- The values of the dice in play, in the order of the rolls. -/
def keptValues (dice : List Die) : List Int := (dice.filter Die.isKept).map Die.value

/-- What the pool shows as its dice stand. -/
def showing (p : Pool) : Showing := ⟨Hands.ofFaces (keptValues p.dice), p.successes⟩

/-- No die has been marked as a success or a failure yet. -/
def Unmarked (p : Pool) : Prop := ∀ d ∈ p.dice, d.success = none

section Positions

theorem getElem?_foldl_modify (positions : List Nat) (dice : Array Die) (i : Nat) :
    (positions.foldl (fun dice i => dice.modify i Die.drop) dice)[i]? =
      dice[i]?.map fun d => if i ∈ positions then d.drop else d := by
  induction positions generalizing dice with
  | nil => simp
  | cons j positions ih =>
    rw [List.foldl_cons, ih, Array.getElem?_modify]
    by_cases hij : j = i
    · subst hij
      rw [if_pos rfl, Option.map_map]
      congr 1
      funext d
      simp only [Function.comp_apply, List.mem_cons, true_or, if_true]
      split <;> rfl
    · simp only [if_neg hij, List.mem_cons, Ne.symm hij, false_or]

theorem dropAt_eq_mapIdx (positions : List Nat) (dice : List Die) :
    dropAt positions dice = dice.mapIdx fun i d => if i ∈ positions then d.drop else d := by
  refine List.ext_getElem? fun i => ?_
  rw [dropAt, Array.getElem?_toList, getElem?_foldl_modify, List.getElem?_mapIdx,
    List.getElem?_toArray]

/-- After a drop the dice in play are those whose positions were not named. -/
theorem keptDice_dropAt (positions : List Nat) (dice : List Die) :
    keptDice (dropAt positions dice) = (keptDice dice).filter fun d => d.2 ∉ positions := by
  have hzip : (dropAt positions dice).zipIdx =
      dice.zipIdx.map fun d => (if d.2 ∈ positions then d.1.drop else d.1, d.2) := by
    rw [dropAt_eq_mapIdx]
    refine List.ext_getElem? fun i => ?_
    simp only [List.getElem?_zipIdx, List.getElem?_mapIdx, List.getElem?_map, Option.map_map,
      Nat.zero_add]
    rfl
  rw [keptDice, hzip, List.filter_map, keptDice, List.filter_filter]
  have hkept : ((fun d : Die × Nat => d.1.isKept) ∘ fun d : Die × Nat =>
      (if d.2 ∈ positions then d.1.drop else d.1, d.2)) =
      fun d => decide (d.2 ∉ positions) && d.1.isKept := by
    funext d
    by_cases h : d.2 ∈ positions
    · simp [h, Die.drop, Die.isKept]
    · simp [h]
  rw [hkept]
  refine (List.map_congr_left fun d hd => ?_).trans (List.map_id _)
  have habsent : d.2 ∉ positions := by
    simpa using (Bool.and_eq_true_iff.1 (List.mem_filter.1 hd).2).1
  simp only [if_neg habsent, id_eq]

end Positions

section Rankings

variable {α : Type}

theorem filter_not_mem_right {front back : List (α × Nat)}
    (h : ((front ++ back).map Prod.snd).Nodup) :
    (front ++ back).filter (fun d => d.2 ∉ back.map Prod.snd) = front := by
  rw [List.map_append, List.nodup_append] at h
  obtain ⟨-, -, hdisjoint⟩ := h
  have hfront : front.filter (fun d => d.2 ∉ back.map Prod.snd) = front := by
    refine List.filter_eq_self.2 fun d hd => ?_
    have hout : d.2 ∉ back.map Prod.snd := fun hmem =>
      hdisjoint d.2 (List.mem_map_of_mem hd) d.2 hmem rfl
    simpa using hout
  have hback : back.filter (fun d => d.2 ∉ back.map Prod.snd) = [] := by
    refine List.filter_eq_nil_iff.2 fun d hd => ?_
    have hin : d.2 ∈ back.map Prod.snd := List.mem_map_of_mem hd
    simpa using hin
  rw [List.filter_append, hfront, hback, List.append_nil]

theorem filter_not_mem_left {front back : List (α × Nat)}
    (h : ((front ++ back).map Prod.snd).Nodup) :
    (front ++ back).filter (fun d => d.2 ∉ front.map Prod.snd) = back := by
  have hperm : (back ++ front).Perm (front ++ back) := List.perm_append_comm
  have hswapped := filter_not_mem_right ((hperm.map Prod.snd).nodup_iff.2 h)
  rw [List.filter_append] at hswapped ⊢
  have hfront : front.filter (fun d => d.2 ∉ front.map Prod.snd) = [] := by
    refine List.filter_eq_nil_iff.2 fun d hd => ?_
    have hin : d.2 ∈ front.map Prod.snd := List.mem_map_of_mem hd
    simpa using hin
  rw [hfront, List.append_nil] at hswapped
  rw [hfront, List.nil_append, hswapped]

theorem keptValues_eq (dice : List Die) :
    keptValues dice = (keptDice dice).map fun d => d.1.value := by
  have hzip : dice.filter Die.isKept = (keptDice dice).map Prod.fst := by
    have hfst : dice = dice.zipIdx.map Prod.fst := (List.zipIdx_map_fst 0 dice).symm
    conv_lhs => rw [hfst]
    rw [List.filter_map]
    rfl
  rw [keptValues, hzip, List.map_map]
  rfl

theorem nodup_keptDice (dice : List Die) : ((keptDice dice).map Prod.snd).Nodup := by
  have hall : (dice.zipIdx.map Prod.snd).Nodup := by
    rw [List.zipIdx_map_snd]
    exact List.nodup_range'
  exact hall.sublist (List.filter_sublist.map _)

/-- The dice in play from the best ranked on, with their positions. -/
def ranked (rank : Rank) (dice : List Die) : List (Die × Nat) :=
  (keptDice dice).mergeSort fun a b => rank.before a.1.value b.1.value

theorem pairwise_ranked (rank : Rank) (dice : List Die) :
    (ranked rank dice).Pairwise fun a b => rank.before a.1.value b.1.value := by
  refine List.pairwise_mergeSort ?_ ?_ _
  · exact fun a b c => rank.before_trans
  · exact fun a b => rank.before_total a.1.value b.1.value

/-- A ranking goes through the hand from one of its ends. -/
theorem map_value_ranked (rank : Rank) (dice : List Die) :
    ((ranked rank dice).map fun d => d.1.value) =
      match rank with
      | .highest => (Hands.ofFaces (keptValues dice)).reverse
      | .lowest => Hands.ofFaces (keptValues dice) := by
  have hperm : (keptValues dice).Perm ((ranked rank dice).map fun d => d.1.value) := by
    rw [keptValues_eq]
    exact ((List.mergeSort_perm _ _).map _).symm
  have hsorted := pairwise_ranked rank dice
  cases rank with
  | highest =>
    have hdescending : ((ranked .highest dice).map fun d => d.1.value).reverse.Pairwise (· ≤ ·) := by
      rw [List.pairwise_reverse, List.pairwise_map]
      exact hsorted.imp fun h => by simpa [Rank.before] using h
    have heq := Hands.ofFaces_eq hdescending (hperm.trans (List.reverse_perm _).symm)
    rw [heq, List.reverse_reverse]
  | lowest =>
    have hascending : ((ranked .lowest dice).map fun d => d.1.value).Pairwise (· ≤ ·) := by
      rw [List.pairwise_map]
      exact hsorted.imp fun h => by simpa [Rank.before] using h
    exact (Hands.ofFaces_eq hascending hperm).symm

/-- What remains in play when the dice at one end of a list of those in play are taken out. -/
theorem keptDice_dropAt_perm {dice : List Die} {front back : List (Die × Nat)}
    (h : (keptDice dice).Perm (front ++ back)) :
    (keptDice (dropAt (back.map Prod.snd) dice)).Perm front ∧
      (keptDice (dropAt (front.map Prod.snd) dice)).Perm back := by
  have hnodup : ((front ++ back).map Prod.snd).Nodup :=
    (h.map Prod.snd).nodup_iff.1 (nodup_keptDice dice)
  constructor
  · rw [keptDice_dropAt]
    have hleft := h.filter fun d => d.2 ∉ back.map Prod.snd
    rwa [filter_not_mem_right hnodup] at hleft
  · rw [keptDice_dropAt]
    have hleft := h.filter fun d => d.2 ∉ front.map Prod.snd
    rwa [filter_not_mem_left hnodup] at hleft

theorem keptValues_dropAt_perm {rank : Rank} {dice : List Die} {front back : List (Die × Nat)}
    (h : ranked rank dice = front ++ back) :
    (keptValues (dropAt (back.map Prod.snd) dice)).Perm (front.map fun d => d.1.value) ∧
      (keptValues (dropAt (front.map Prod.snd) dice)).Perm (back.map fun d => d.1.value) := by
  have hperm : (keptDice dice).Perm (front ++ back) := by
    rw [← h]
    exact (List.mergeSort_perm _ _).symm
  obtain ⟨hfront, hback⟩ := keptDice_dropAt_perm hperm
  constructor
  · rw [keptValues_eq]
    exact hfront.map _
  · rw [keptValues_eq]
    exact hback.map _

/-- A selection leaves of a pool what it picks from the hand that the pool shows. -/
theorem showing_select (s : Selection) (p : Pool) :
    (p.select s).showing = p.showing.act (.select s) := by
  have hand := Hands.pairwise_ofFaces (keptValues p.dice)
  have hsplit := (List.take_append_drop s.count (ranked s.rank p.dice)).symm
  -- Either end of the ranking may be taken out; what is left over is known up to its order.
  obtain ⟨hkept, hdropped⟩ := keptValues_dropAt_perm hsplit
  rw [List.map_take, map_value_ranked] at hkept
  rw [List.map_drop, map_value_ranked] at hdropped
  have hpick := hand.sublist (s.pick_sublist _)
  obtain ⟨action, rank, count⟩ := s
  have hselect : keptValues (p.select ⟨action, rank, count⟩).dice =
      keptValues (dropAt (match action with
        | .keep => ((ranked rank p.dice).drop count).map Prod.snd
        | .drop => ((ranked rank p.dice).take count).map Prod.snd) p.dice) := by
    cases action with
    | keep => simp only [select, ranking, ranked, List.map_drop]
    | drop => simp only [select, ranking, ranked, List.map_take]
  refine congrArg (Showing.mk · p.successes) ?_
  rw [hselect]
  refine Hands.ofFaces_eq hpick ?_
  cases action with
  | keep =>
    refine hkept.trans ?_
    cases rank with
    | highest =>
      simp only [Selection.pick, List.take_reverse]
      exact List.reverse_perm _
    | lowest => rfl
  | drop =>
    refine hdropped.trans ?_
    cases rank with
    | highest =>
      simp only [Selection.pick, List.drop_reverse]
      exact List.reverse_perm _
    | lowest => rfl

end Rankings

theorem keptValues_clamp (c : Clamp) (p : Pool) :
    keptValues (p.clamp c).dice = (keptValues p.dice).map c.apply := by
  simp only [keptValues, clamp]
  induction p.dice with
  | nil => rfl
  | cons d dice ih =>
    by_cases h : d.isKept
    · have hclamped : ({ d with value := c.apply d.value } : Die).isKept = true := h
      simp only [List.map_cons, if_pos h, List.filter_cons_of_pos hclamped, List.filter_cons_of_pos h,
        ih]
    · simp only [List.map_cons, if_neg h, List.filter_cons_of_neg h, ih]

theorem unmarked_dropAt {positions : List Nat} {dice : List Die}
    (h : ∀ d ∈ dice, d.success = none) : ∀ d ∈ dropAt positions dice, d.success = none := by
  rw [dropAt_eq_mapIdx]
  intro d hd
  obtain ⟨i, hi, rfl⟩ := List.mem_mapIdx.1 hd
  have hold := h _ (List.getElem_mem hi)
  split
  · exact hold
  · exact hold

section Modifiers

variable {ρ : Type} [Roller ρ]

/-- A modifier that rolls no dice cannot fail and acts on what the pool shows. -/
theorem modify_showing {p : Pool} {m : Modifier} (hm : m.rollsDice = false) (hp : p.Unmarked)
    (c : Context ρ) :
    ∃ after, p.modify m c = ⟨after, none, c⟩ ∧ after.Unmarked ∧
      after.showing = p.showing.act m := by
  cases m with
  | select s =>
    refine ⟨p.select s, rfl, ?_, showing_select s p⟩
    cases hs : s.action with
    | keep =>
      simp only [Unmarked, select, hs]
      exact unmarked_dropAt hp
    | drop =>
      simp only [Unmarked, select, hs]
      exact unmarked_dropAt hp
  | clamp bound =>
    refine ⟨p.clamp bound, rfl, ?_, ?_⟩
    · intro d hd
      obtain ⟨old, hold, rfl⟩ := List.mem_map.1 hd
      have := hp old hold
      split
      · exact this
      · exact this
    · have hhand := keptValues_clamp bound p
      simp only [showing, Showing.act, hhand, Clamp.ofFaces_map]
      rfl
  | countSuccesses condition => exact ⟨p.countSuccesses condition, rfl, hp, rfl⟩
  | reroll | explode => cases hm

theorem modifyAll_showing {modifiers : List Modifier} {p : Pool}
    (hm : ∀ m ∈ modifiers, m.rollsDice = false) (hp : p.Unmarked) (c : Context ρ) :
    ∃ after, p.modifyAll modifiers c = ⟨after, none, c⟩ ∧ after.Unmarked ∧
      after.showing = modifiers.foldl Showing.act p.showing := by
  induction modifiers generalizing p with
  | nil => exact ⟨p, rfl, hp, rfl⟩
  | cons m rest ih =>
    obtain ⟨next, hnext, hunmarked, hshowing⟩ := modify_showing (hm m (by simp)) hp c
    obtain ⟨after, hafter, hlast, hall⟩ := ih (fun m hm' => hm m (by simp [hm'])) hunmarked
    refine ⟨after, ?_, hlast, ?_⟩
    · rw [modifyAll, hnext]
      exact hafter
    · rw [hall, hshowing, List.foldl_cons]

end Modifiers

section Values

theorem sum_worth_eq {dice : List Die} (h : ∀ d ∈ dice, d.success = none) :
    (dice.map Die.worth).sum = (keptValues dice).sum := by
  induction dice with
  | nil => rfl
  | cons d dice ih =>
    have hd := h d (by simp)
    have hrest := ih fun e he => h e (by simp [he])
    rw [keptValues] at *
    by_cases hk : d.isKept
    · rw [List.filter_cons_of_pos hk]
      rw [List.map_cons, List.sum_cons, hrest, Die.worth_unmarked hk hd, List.map_cons, List.sum_cons]
    · rw [List.filter_cons_of_neg hk]
      rw [List.map_cons, List.sum_cons, hrest, Die.worth_of_not_isKept hk, Int.zero_add]

theorem sum_worth_marked (condition : Condition) (dice : List Die) :
    ((dice.map fun d => { d with success := some (condition.holds d.value) }).map Die.worth).sum =
      ((keptValues dice).countP condition.holds : Nat) := by
  induction dice with
  | nil => rfl
  | cons d dice ih =>
    rw [List.map_cons, List.map_cons, List.sum_cons, ih, Die.worth_marked, keptValues, keptValues]
    by_cases hk : d.isKept
    · rw [List.filter_cons_of_pos hk, List.map_cons, List.countP_cons, hk, Bool.true_and]
      split
      · omega
      · omega
    · rw [List.filter_cons_of_neg hk]
      simp [hk]

theorem subtotal_eq {p : Pool} (h : ∀ d ∈ p.dice, 0 ≤ d.worth) :
    p.subtotal = checked (p.dice.map Die.worth).sum := by
  have hterms : ∀ x ∈ p.dice.map Die.worth, 0 ≤ x := by
    intro x hx
    obtain ⟨d, hd, rfl⟩ := List.mem_map.1 hx
    exact h d hd
  have hfold := foldlM_checked (Int.le_refl 0) (by decide) hterms
  rw [List.foldlM_map, Int.zero_add] at hfold
  exact hfold

/-- Once successes are marked, a pool is worth what it shows. -/
theorem subtotal_markSuccesses {p : Pool} (hp : p.Unmarked) (h : ∀ x ∈ p.showing.hand, 0 ≤ x) :
    p.markSuccesses.subtotal = checked p.showing.worth := by
  have hperm := Hands.ofFaces_perm (keptValues p.dice)
  cases hs : p.successes with
  | none =>
    have hnonneg : ∀ d ∈ p.dice, 0 ≤ d.worth := by
      intro d hd
      by_cases hk : d.isKept
      · have hmem : d.value ∈ keptValues p.dice :=
          List.mem_map_of_mem (List.mem_filter.2 ⟨hd, hk⟩)
        rw [Die.worth_unmarked hk (hp d hd)]
        exact h _ (hperm.mem_iff.2 hmem)
      · rw [Die.worth_of_not_isKept hk]
    simp only [markSuccesses, hs, showing, Showing.worth]
    rw [subtotal_eq hnonneg, sum_worth_eq hp, hperm.sum_eq]
  | some condition =>
    have hnonneg : ∀ d ∈ p.markSuccesses.dice, 0 ≤ d.worth := by
      simp only [markSuccesses, hs]
      intro d hd
      obtain ⟨old, -, rfl⟩ := List.mem_map.1 hd
      rw [Die.worth_marked]
      split
      · decide
      · decide
    rw [subtotal_eq hnonneg]
    simp only [markSuccesses, hs, showing, Showing.worth]
    rw [sum_worth_marked, hperm.countP_eq]

end Values

end Pool

end DiceNotation
