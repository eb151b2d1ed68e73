import DiceNotation.Proofs.Distribution.Outcomes

/-!
# Hands as sorted sequences

Dice that lie in a row show a sequence of outcomes. A hand forgets their order, so it comes about in as many
ways as all sequences that sort to it, and no other hands come about. The tally of the hands is made face by
face and never looks at a whole sequence; that its weights are these sums is shown by listing every outcome
of the die as often as its weight says. Selections then gather the hands that they cannot tell apart.
-/

namespace DiceNotation

open Tally (repeated)

namespace Distribution

/-- In how many ways dice in a row show these faces. -/
def waysInRow (die : Distribution) (faces : List Int) : Nat := (faces.map die.ways).prod

/-- The sequences of `n` outcomes that are the hand once they are sorted. -/
def sortingTo (die : Distribution) (n : Nat) (hand : List Int) : List (List Int) :=
  (draws die.keys n).filter fun faces => faces.mergeSort = hand

theorem mem_sortingTo {die : Distribution} {n : Nat} {hand faces : List Int} :
    faces ∈ die.sortingTo n hand ↔
      faces.length = n ∧ (∀ x ∈ faces, x ∈ die) ∧ faces.mergeSort = hand := by
  simp [sortingTo, mem_draws, and_assoc]

theorem nodup_sortingTo (die : Distribution) (n : Nat) (hand : List Int) :
    (die.sortingTo n hand).Nodup := (nodup_draws die.nodup_keys n).filter _

end Distribution

namespace Tally

section Repeated

variable {ι α : Type} {weight : ι → Nat}

theorem mem_repeated {l : List ι} {i : ι} : i ∈ repeated weight l ↔ i ∈ l ∧ 0 < weight i := by
  simp only [repeated, List.mem_flatMap, List.mem_replicate]
  constructor
  · rintro ⟨j, hj, hne, rfl⟩
    exact ⟨hj, Nat.pos_of_ne_zero hne⟩
  · rintro ⟨hi, hpos⟩
    exact ⟨i, hi, hpos.ne', rfl⟩

theorem repeated_map {κ : Type} (weight : ι → Nat) (u : κ → ι) (l : List κ) :
    repeated weight (l.map u) = (repeated (fun k => weight (u k)) l).map u := by
  simp [repeated, List.flatMap_map, List.map_flatMap]

/-- What becomes a value counts for it with its weight. -/
theorem count_map_repeated [DecidableEq α] (u : ι → α) (l : List ι) (y : α) :
    ((repeated weight l).map u).count y = ((l.filter fun i => u i = y).map weight).sum := by
  induction l with
  | nil => rfl
  | cons i l ih =>
    have hsplit : (repeated weight (i :: l)).map u =
        List.replicate (weight i) (u i) ++ (repeated weight l).map u := by
      simp [repeated]
    rw [hsplit, List.count_append, ih, List.count_replicate, List.filter_cons]
    by_cases h : u i = y
    · simp [h]
    · simp [h]

end Repeated

/-- Sequences of repeated outcomes are the sequences of the outcomes, repeated. -/
theorem draws_repeated_perm (weight : Int → Nat) (faces : List Int) (n : Nat) :
    (draws (repeated weight faces) n).Perm
      (repeated (fun fs => (fs.map weight).prod) (draws faces n)) := by
  induction n with
  | zero => simp [draws, repeated]
  | succ n ih =>
    have hpairs := (ih.product_right (repeated weight faces)).trans
      (repeated_product_perm (fun fs => (fs.map weight).prod) weight (draws faces n) faces).symm
    have hweight : (fun p : List Int × Int => (p.1.map weight).prod * weight p.2) =
        fun p => ((p.2 :: p.1).map weight).prod := by
      funext p
      rw [List.map_cons, List.prod_cons, Nat.mul_comm]
    rw [draws, draws, repeated_map, ← hweight]
    exact hpairs.map _

section Keys

variable {α : Type} [DecidableEq α] [Ord α] [Std.TransOrd α] [Std.LawfulEqOrd α] {t : Tally α}

/-- A tally without empty entries counts its outcomes, each as often as it says. -/
theorem counts_repeated_keys (hpos : ∀ x ∈ t, 0 < t.ways x) :
    t.Counts (repeated t.ways t.keys) := by
  intro x
  by_cases hx : x ∈ t
  · have hkey : x ∈ t.keys := Std.ExtTreeMap.mem_keys.2 hx
    have hcount : (repeated t.ways t.keys).count x = t.ways x := by
      have hsum : ((repeated t.ways t.keys).map id).count x = _ := count_map_repeated id t.keys x
      rw [List.map_id] at hsum
      rw [hsum]
      simp [List.filter_eq, List.count_eq_one_of_mem t.nodup_keys hkey]
    rw [if_pos (mem_repeated.2 ⟨hkey, hpos x hx⟩), hcount, ways, Std.ExtTreeMap.getD_eq_getD_getElem?,
      Std.ExtTreeMap.getElem?_eq_some_getElem hx]
    rfl
  · have habsent : x ∉ repeated t.ways t.keys := fun h =>
      hx (Std.ExtTreeMap.mem_keys.1 (mem_repeated.1 h).1)
    rw [if_neg habsent, Std.ExtTreeMap.getElem?_eq_none hx]

end Keys

end Tally

namespace Hands

theorem ofFaces_eq_mergeSort (faces : List Int) : ofFaces faces = faces.mergeSort :=
  ofFaces_eq (List.pairwise_mergeSort' (· ≤ ·) faces) (List.mergeSort_perm faces _).symm

variable {die : Distribution} {limit n : Nat} {hands : Hands}

/-- Dice that are added within the bounds are counted as if there were none. -/
theorem addDice_counts {faces : List Int} (hdie : die.Counts faces) {k : Nat} {last : Hands}
    (hhands : hands.Counts ((draws faces k).map ofFaces)) (h : addDice limit die n hands = .ok last) :
    last.Counts ((draws faces (k + n)).map ofFaces) := by
  induction n generalizing k hands with
  | zero =>
    cases h
    exact hhands
  | succ n ih =>
    have hgathers := addDieTo_gathers limit die (List.Perm.refl hands.toList)
    rw [addDice] at h
    cases hnext : addDieTo limit die hands.toList with
    | error e =>
      rw [hnext] at h
      cases h
    | ok next =>
      rw [hnext] at h hgathers
      obtain ⟨rfl, -⟩ := hgathers
      have hindex : k + (n + 1) = k + 1 + n := by omega
      rw [hindex]
      exact ih (layer_counts hdie hhands) h

theorem roll_counts {faces : List Int} (hdie : die.Counts faces) (h : roll limit die n = .ok hands) :
    hands.Counts ((draws faces n).map ofFaces) := by
  have hnone : noDice.Counts ((draws faces 0).map ofFaces) := Tally.Counts.singleton []
  have := addDice_counts hdie hnone h
  rwa [Nat.zero_add] at this

section Rolled

variable (hpos : ∀ x ∈ die, 0 < die.ways x) (h : roll limit die n = .ok hands)

include hpos h

/-- The hands that come about are the ascending lists of so many outcomes. -/
theorem mem_roll_iff (hand : List Int) :
    hand ∈ hands ↔ hand.Pairwise (· ≤ ·) ∧ hand.length = n ∧ ∀ x ∈ hand, x ∈ die := by
  have hdie := Tally.counts_repeated_keys hpos
  rw [(roll_counts hdie h).mem_iff, List.mem_map]
  simp only [mem_draws, ← hdie.mem_iff]
  constructor
  · rintro ⟨faces, ⟨hlength, hfaces⟩, rfl⟩
    have hperm := ofFaces_perm faces
    exact ⟨pairwise_ofFaces faces, hperm.length_eq.trans hlength,
      fun x hx => hfaces x (hperm.mem_iff.1 hx)⟩
  · rintro ⟨hsorted, hlength, hfaces⟩
    exact ⟨hand, ⟨hlength, hfaces⟩, ofFaces_eq hsorted (.refl hand)⟩

/-- A hand comes about in the ways of all sequences that sort to it. -/
theorem ways_roll (hand : List Int) :
    hands.ways hand = ((die.sortingTo n hand).map die.waysInRow).sum := by
  have hcounts := roll_counts (Tally.counts_repeated_keys hpos) h
  have hperm := (Tally.draws_repeated_perm die.ways die.keys n).map ofFaces
  rw [(hcounts.perm hperm).ways_eq, Tally.count_map_repeated]
  simp only [ofFaces_eq_mergeSort]
  rfl

end Rolled

section Selected

variable {samples : List (List Int)} (hhands : hands.Counts samples) {selections : List Selection}
  {selected : Hands} (h : selections.foldlM (fun hands s => select s hands) hands = .ok selected)

include hhands h

theorem selectAll_counts :
    selected.Counts ((repeated Prod.snd hands.toList).map fun entry =>
      Selection.pickAll selections entry.1) := by
  have hfollows := DiceGroup.Plan.follows_selectAll 0 selections (hhands.perm hhands.repeated_perm.symm)
  rw [h] at hfollows
  obtain ⟨-, hcounts⟩ := hfollows
  rwa [valuesOn_ok, List.map_map] at hcounts

theorem mem_selectAll_iff (key : List Int) :
    key ∈ selected ↔ ∃ hand ∈ hands, Selection.pickAll selections hand = key := by
  rw [(selectAll_counts hhands h).mem_iff, List.mem_map]
  simp only [Tally.mem_repeated, ← Std.ExtTreeMap.mem_keys, ← Std.ExtTreeMap.map_fst_toList_eq_keys,
    List.mem_map]
  constructor
  · rintro ⟨entry, ⟨hentry, -⟩, hkey⟩
    exact ⟨entry.1, ⟨entry, hentry, rfl⟩, hkey⟩
  · rintro ⟨hand, ⟨entry, hentry, rfl⟩, hkey⟩
    exact ⟨entry, ⟨hentry, hhands.pos hentry⟩, hkey⟩

theorem ways_selectAll (key : List Int) :
    selected.ways key =
      ((hands.toList.filter fun entry => Selection.pickAll selections entry.1 = key).map Prod.snd).sum := by
  rw [(selectAll_counts hhands h).ways_eq, Tally.count_map_repeated]

end Selected

end Hands

theorem Selection.pickAll_sublist (selections : List Selection) (hand : List Int) :
    (pickAll selections hand).Sublist hand := by
  induction selections generalizing hand with
  | nil => exact .refl hand
  | cons s rest ih => exact (ih (s.pick hand)).trans (s.pick_sublist hand)

namespace Hands

/-- Where so many dice can be rolled, their hands are the ascending lists of so many outcomes, each weighed by
all sequences that sort to it. Where selections go through after that, every list that they leave is
ascending and has the weight of all hands of which they leave it. -/
theorem roll_weighs_sequences {die : Distribution} (hpos : ∀ x ∈ die, 0 < die.ways x) {limit n : Nat}
    {hands : Hands} (h : roll limit die n = .ok hands) :
    (∀ hand, hand ∈ hands ↔ hand.Pairwise (· ≤ ·) ∧ hand.length = n ∧ ∀ x ∈ hand, x ∈ die) ∧
      (∀ hand, ∃ sequences : List (List Int), sequences.Nodup ∧
        (∀ faces, faces ∈ sequences ↔
          faces.length = n ∧ (∀ x ∈ faces, x ∈ die) ∧ faces.mergeSort = hand) ∧
        hands.ways hand = (sequences.map die.waysInRow).sum) ∧
      ∀ (selections : List Selection) (selected : Hands),
        selections.foldlM (fun hands s => select s hands) hands = .ok selected →
        (∀ key, key ∈ selected ↔ ∃ hand ∈ hands, Selection.pickAll selections hand = key) ∧
          (∀ key ∈ selected, key.Pairwise (· ≤ ·)) ∧
          ∀ key, selected.ways key = ((hands.toList.filter fun entry =>
            Selection.pickAll selections entry.1 = key).map Prod.snd).sum := by
  have hcounts := roll_counts (Tally.counts_repeated_keys hpos) h
  refine ⟨mem_roll_iff hpos h, fun hand => ?_, fun selections selected hselected => ?_⟩
  · exact ⟨die.sortingTo n hand, die.nodup_sortingTo n hand, fun _ => Distribution.mem_sortingTo,
      ways_roll hpos h hand⟩
  · have hmem := mem_selectAll_iff hcounts hselected
    refine ⟨hmem, fun key hkey => ?_, ways_selectAll hcounts hselected⟩
    obtain ⟨hand, hhand, rfl⟩ := (hmem key).1 hkey
    exact ((mem_roll_iff hpos h hand).1 hhand).1.sublist (Selection.pickAll_sublist selections hand)

/-- A coin whose first face comes up in two ways of three. -/
def unevenCoin : Distribution := Std.ExtTreeMap.ofList [((1 : Int), 2), (2, 1)]

theorem unevenCoin_weighs_sequences : ∃ hands selected : Hands,
    roll 10 unevenCoin 2 = .ok hands ∧
      [⟨.keep, .highest, 1⟩].foldlM (fun hands s => select s hands) hands = .ok selected ∧
      (∃ sequences : List (List Int), sequences.Nodup ∧ [2, 1] ∈ sequences ∧
        (sequences.map unevenCoin.waysInRow).sum = 4) ∧
      ((hands.toList.filter fun entry =>
        Selection.pickAll [⟨.keep, .highest, 1⟩] entry.1 = [2]).map Prod.snd).sum = 5 := by
  have hpos : ∀ x ∈ unevenCoin, 0 < unevenCoin.ways x := by
    intro x hx
    have hface : x ∈ unevenCoin.keys := Std.ExtTreeMap.mem_keys.2 hx
    have hall : ∀ x ∈ unevenCoin.keys, 0 < unevenCoin.ways x := by decide
    exact hall x hface
  have hways : (roll 10 unevenCoin 2).map (·.ways [1, 2]) = .ok 4 := by decide
  have hhighest : ((roll 10 unevenCoin 2).bind fun hands =>
      ([⟨.keep, .highest, 1⟩].foldlM (fun hands s => select s hands) hands).mapError
        DistributionError.ofArithmetic).map (·.ways [2]) = .ok 5 := by decide
  cases h : roll 10 unevenCoin 2 with
  | error e =>
    rw [h] at hways
    cases hways
  | ok hands =>
    rw [h] at hways hhighest
    obtain ⟨-, hsequences, hselections⟩ := roll_weighs_sequences hpos h
    cases hselected : [⟨.keep, .highest, 1⟩].foldlM (fun hands s => select s hands) hands with
    | error a =>
      rw [Except.bind, hselected] at hhighest
      cases hhighest
    | ok selected =>
      rw [Except.bind, hselected] at hhighest
      refine ⟨hands, selected, rfl, hselected, ?_, ?_⟩
      · obtain ⟨sequences, hnodup, hmem, hsum⟩ := hsequences [1, 2]
        have hfaces : ∀ x ∈ ([2, 1] : List Int), x ∈ unevenCoin := by simp [unevenCoin]
        have hsorted : ([2, 1] : List Int).mergeSort = [1, 2] := by
          rw [← ofFaces_eq_mergeSort]
          rfl
        exact ⟨sequences, hnodup, (hmem _).2 ⟨rfl, hfaces, hsorted⟩, hsum.symm.trans (Except.ok.inj hways)⟩
      · rw [← (hselections _ selected hselected).2.2]
        exact Except.ok.inj hhighest

end Hands

end DiceNotation
