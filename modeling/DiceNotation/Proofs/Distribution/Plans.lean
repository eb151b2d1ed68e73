import DiceNotation.Distribution.OfExpr
import DiceNotation.Proofs.Distribution.Convolution
import DiceNotation.Proofs.Rolls.Playing

/-!
# Planned groups

A plan takes the modifiers of a group out of their order: clamps go to the faces of the die, selections
stay in line, and successes are counted last. `Plan.Carries` says that nothing is lost by that. From it
follows that the distribution of a group agrees with what the group is worth on all draws of its dice.
-/

namespace DiceNotation

open Tally (Follows)

theorem exists_of_bind_eq_ok {α β ε : Type} {r : Except ε α} {f : α → Except ε β} {y : β}
    (h : r.bind f = .ok y) : ∃ x, r = .ok x ∧ f x = .ok y := by
  cases r with
  | error e => cases h
  | ok x => exact ⟨x, rfl, h⟩

/-- A fold that succeeds does so in its first step and from there on. -/
theorem exists_of_foldlM_cons_eq_ok {α σ ε : Type} {step : σ → α → Except ε σ} {x : α} {rest : List α}
    {start last : σ} (h : (x :: rest).foldlM step start = .ok last) :
    ∃ next, step start x = .ok next ∧ rest.foldlM step next = .ok last :=
  exists_of_bind_eq_ok h

theorem Distribution.die_counts (s : Sides) : (Distribution.die s).Counts s.faces := by
  suffices h : ∀ n, Tally.Counts ((List.range n).foldl
      (fun (t : Distribution) (i : Nat) => t.insert ((i : Int) + 1) 1) ∅)
      ((List.range n).map fun (i : Nat) => (i : Int) + 1) from h s.toNat
  intro n
  induction n with
  | zero => exact Tally.Counts.empty
  | succ n ih =>
    rw [List.range_succ, List.foldl_append, List.map_append]
    have hnew : ((n : Int) + 1) ∉ (List.range n).map fun (i : Nat) => (i : Int) + 1 := by
      intro hmem
      obtain ⟨i, hi, heq⟩ := List.mem_map.1 hmem
      rw [List.mem_range] at hi
      omega
    have hways := ih.ways_eq ((n : Int) + 1)
    rw [List.count_eq_zero_of_not_mem hnew] at hways
    refine ih.add Nat.one_pos (Tally.add_eq_ok_iff.2 ⟨by rw [hways]; decide, ?_⟩)
    rw [hways]
    rfl

namespace Selection

/-- What the selections leave of a hand one after the other. -/
def pickAll (selections : List Selection) (hand : List Int) : List Int :=
  selections.foldl (fun hand s => s.pick hand) hand

theorem pickAll_map (selections : List Selection) (u : Int → Int) (hand : List Int) :
    pickAll selections (hand.map u) = (pickAll selections hand).map u := by
  induction selections generalizing hand with
  | nil => rfl
  | cons s rest ih =>
    change pickAll rest (s.pick (hand.map u)) = _
    rw [pick_map, ih]
    rfl

end Selection

namespace DiceGroup.Plan

/-- The plan does all that the modifiers do to a group of such dice: `u` is what becomes of a face. -/
structure Carries (p : Plan) (sides : Sides) (modifiers : List Modifier) (u : Int → Int) : Prop where
  face : p.face.Counts (sides.faces.map u)
  range : ∀ x ∈ sides.faces, 0 ≤ u x ∧ u x ≤ maxInt
  showing : ∀ faces, modifiers.foldl Showing.act ⟨Hands.ofFaces faces, none⟩ =
    ⟨Selection.pickAll p.selections (Hands.ofFaces (faces.map u)), p.successes⟩

theorem carries_start (s : Sides) : Carries ⟨.die s, [], none⟩ s [] id where
  face := by
    rw [List.map_id]
    exact Distribution.die_counts s
  range := by
    intro x hx
    have hbounds := Sides.mem_faces.1 hx
    have hmax := s.le_max
    simp only [Sides.top, maxSides, maxInt, id_eq] at *
    omega
  showing := by
    intro faces
    rw [List.map_id]
    rfl

/-- Taking in a modifier succeeds unless it rolls dice, and then the plan carries it as well. -/
theorem add_carries {p : Plan} {sides : Sides} {done : List Modifier} {m : Modifier} {u : Int → Int}
    (hp : p.Carries sides done u) (hw : m.Writable) (hm : m.rollsDice = false) :
    ∃ next v, p.add m = .ok next ∧ next.Carries sides (done ++ [m]) v := by
  have hfold : ∀ faces, (done ++ [m]).foldl Showing.act ⟨Hands.ofFaces faces, none⟩ =
      Showing.act ⟨Selection.pickAll p.selections (Hands.ofFaces (faces.map u)), p.successes⟩ m := by
    intro faces
    rw [List.foldl_append, hp.showing faces]
    rfl
  cases m with
  | select s =>
    refine ⟨_, u, rfl, hp.face, hp.range, fun faces => ?_⟩
    rw [hfold, Selection.pickAll, Selection.pickAll, List.foldl_append]
    rfl
  | clamp c =>
    have hlength : (sides.faces.map u).length ≤ maxCount := by
      rw [List.length_map]
      exact sides.length_faces_le
    obtain ⟨moved, hmoved, hcounts⟩ := Tally.mapM_ok c.apply hp.face hlength
    refine ⟨{ p with face := moved }, c.apply ∘ u, ?_, ?_, ?_, fun faces => ?_⟩
    · rw [add, hmoved]
    · rwa [List.map_map] at hcounts
    · intro x hx
      have hrange := hp.range x hx
      cases c with
      | minimum bound =>
        have := hw.2
        simp only [Function.comp_apply, Clamp.apply]
        omega
      | maximum bound =>
        have := hw.1
        simp only [Function.comp_apply, Clamp.apply]
        omega
    · -- The clamp is moved in front of the selections made so far.
      rw [hfold, ← List.map_map, c.ofFaces_map, Selection.pickAll_map]
      rfl
  | countSuccesses condition =>
    refine ⟨_, u, rfl, hp.face, hp.range, fun faces => ?_⟩
    rw [hfold]
    rfl
  | reroll | explode => cases hm

theorem foldlM_add_carries {sides : Sides} {modifiers : List Modifier} {p : Plan}
    {done : List Modifier} {u : Int → Int} (hp : p.Carries sides done u)
    (hw : ∀ m ∈ modifiers, m.Writable) (hm : ∀ m ∈ modifiers, m.rollsDice = false) :
    ∃ last v, modifiers.foldlM add p = .ok last ∧ last.Carries sides (done ++ modifiers) v := by
  induction modifiers generalizing p done u with
  | nil => exact ⟨p, u, rfl, by rwa [List.append_nil]⟩
  | cons m rest ih =>
    obtain ⟨next, v, hnext, hcarries⟩ := add_carries hp (hw m (by simp)) (hm m (by simp))
    obtain ⟨last, v, hlast, hall⟩ :=
      ih hcarries (fun m hm' => hw m (by simp [hm'])) fun m hm' => hm m (by simp [hm'])
    refine ⟨last, v, ?_, ?_⟩
    · rw [List.foldlM_cons, hnext]
      exact hlast
    · rwa [List.append_assoc] at hall

/-- Only modifiers that roll no dice are planned. -/
theorem rollsDice_of_foldlM_add {modifiers : List Modifier} {p last : Plan}
    (h : modifiers.foldlM add p = .ok last) : ∀ m ∈ modifiers, m.rollsDice = false := by
  induction modifiers generalizing p with
  | nil => simp
  | cons m rest ih =>
    obtain ⟨next, hadd, hrest⟩ := exists_of_foldlM_cons_eq_ok h
    have hhead : m.rollsDice = false := by
      cases m with
      | reroll | explode => cases hadd
      | select | clamp | countSuccesses => rfl
    intro m' hm'
    rcases List.mem_cons.1 hm' with rfl | hm'
    · exact hhead
    · exact ih hrest m' hm'

theorem sum_map_successFace (condition : Condition) (faces : List Int) :
    (faces.map (successFace condition)).sum = (faces.countP condition.holds : Nat) := by
  induction faces with
  | nil => rfl
  | cons x faces ih =>
    rw [List.map_cons, List.sum_cons, ih, List.countP_cons, successFace]
    split
    · omega
    · omega

theorem follows_selectAll (limit : Nat) (selections : List Selection) {hands : Hands}
    {samples : List (List Int)} (h : hands.Counts samples) :
    Follows id limit (fun hand => .ok (Selection.pickAll selections hand)) samples
      (selections.foldlM (fun hands s => Hands.select s hands) hands) := by
  induction selections generalizing hands samples with
  | nil =>
    refine ⟨fun hand _ => ⟨hand, rfl⟩, ?_⟩
    have hsame : samples.map (Selection.pickAll []) = samples := List.map_id samples
    rwa [valuesOn_ok, hsame]
  | cons s rest ih =>
    have hselect := Tally.follows_mapM limit (fun hand => .ok (s.pick hand)) h
    rw [List.foldlM_cons]
    exact hselect.bind fun t _ ht => ih ht

theorem follows_toDistribution (limit : Nat) {hands : Hands} {samples : List (List Int)}
    (h : hands.Counts samples) (hnonneg : ∀ hand ∈ samples, ∀ x ∈ hand, 0 ≤ x) :
    Follows id limit (fun hand => checked hand.sum) samples (Hands.toDistribution hands) :=
  (Tally.follows_mapM limit Hands.sum h).congr fun hand hhand => Hands.sum_eq (hnonneg hand hhand)

theorem follows_countSuccesses (limit : Nat) (condition : Condition) {hands : Hands}
    {samples : List (List Int)} (h : hands.Counts samples) :
    Follows id limit (fun hand => checked (hand.countP condition.holds : Nat)) samples
      ((Hands.countSuccesses condition hands).bind Hands.toDistribution) := by
  have hcounted := Tally.follows_mapM limit
    (fun hand => .ok [((hand.countP condition.holds : Nat) : Int)]) h
  refine (hcounted.bind fun t _ ht => Tally.follows_mapM limit Hands.sum ht).congr fun hand _ => ?_
  change Hands.sum [((hand.countP condition.holds : Nat) : Int)] = _
  rw [Hands.sum_eq (by simp), List.sum_singleton]

/-- The worth of every hand once selections and successes are worked out on it. -/
theorem follows_worth (limit : Nat) (p : Plan) {hands : Hands} {samples : List (List Int)}
    (h : hands.Counts samples)
    (hnonneg : ∀ hand ∈ samples, ∀ x ∈ Selection.pickAll p.selections hand, 0 ≤ x) :
    Follows id limit
      (fun hand => checked (Showing.worth ⟨Selection.pickAll p.selections hand, p.successes⟩)) samples
      (do
        let selected ← p.selections.foldlM (fun hands s => Hands.select s hands) hands
        let counted ←
          match p.successes with
          | none => .ok selected
          | some condition => Hands.countSuccesses condition selected
        Hands.toDistribution counted) := by
  have hselected := follows_selectAll limit p.selections h
  cases p.successes with
  | none =>
    refine hselected.bind (g := fun hand => checked hand.sum) fun t _ ht => ?_
    refine follows_toDistribution limit ht fun hand hhand => ?_
    rw [valuesOn_ok] at hhand
    obtain ⟨start, hstart, rfl⟩ := List.mem_map.1 hhand
    exact hnonneg start hstart
  | some condition => exact hselected.bind fun t _ ht => follows_countSuccesses limit condition ht

section Agreement

variable {g : DiceGroup} {p : Plan} {u : Int → Int}

theorem Carries.worth_eq (hp : p.Carries g.sides g.modifiers u) (faces : List Int) :
    g.worth faces =
      Showing.worth ⟨Selection.pickAll p.selections (Hands.ofFaces (faces.map u)), p.successes⟩ :=
  congrArg Showing.worth (hp.showing faces)

theorem Carries.faces_ne_nil (_ : p.Carries g.sides g.modifiers u) : g.sides.faces.map u ≠ [] := by
  simpa using g.sides.faces_ne_nil

theorem Carries.faces_range (hp : p.Carries g.sides g.modifiers u) :
    ∀ x ∈ g.sides.faces.map u, 0 ≤ x ∧ x ≤ maxInt := by
  intro x hx
  obtain ⟨face, hface, rfl⟩ := List.mem_map.1 hx
  exact hp.range face hface

theorem follows_sums (limit : Nat) {face : Distribution}
    (hp : Carries ⟨face, [], none⟩ g.sides g.modifiers u) :
    Follows DistributionError.ofArithmetic limit (fun faces => checked (g.worth faces))
      (draws g.sides.faces g.count.toNat) (distribution ⟨face, [], none⟩ limit g.count) := by
  have hsums := Distribution.follows_repeatSum limit hp.face hp.faces_ne_nil hp.faces_range g.count
  rw [draws_map] at hsums
  refine (Follows.map_iff.1 hsums).congr fun faces _ => ?_
  rw [hp.worth_eq]
  exact congrArg checked (Hands.ofFaces_perm (faces.map u)).sum_eq.symm

theorem follows_successes (limit : Nat) {face : Distribution} {condition : Condition}
    (hp : Carries ⟨face, [], some condition⟩ g.sides g.modifiers u) :
    Follows DistributionError.ofArithmetic limit (fun faces => checked (g.worth faces))
      (draws g.sides.faces g.count.toNat) (distribution ⟨face, [], some condition⟩ limit g.count) := by
  have hlength : (g.sides.faces.map u).length ≤ maxCount := by
    rw [List.length_map]
    exact g.sides.length_faces_le
  obtain ⟨counted, hcounted, hcounts⟩ := Tally.mapM_ok (successFace condition) hp.face hlength
  have hne : (g.sides.faces.map u).map (successFace condition) ≠ [] := by
    simpa using g.sides.faces_ne_nil
  have hbits : ∀ x ∈ (g.sides.faces.map u).map (successFace condition), 0 ≤ x ∧ x ≤ maxInt := by
    intro x hx
    obtain ⟨y, -, rfl⟩ := List.mem_map.1 hx
    rw [successFace]
    split
    · decide
    · decide
  have hsums := Distribution.follows_repeatSum limit hcounts hne hbits g.count
  rw [draws_map, draws_map, List.map_map] at hsums
  simp only [distribution, hcounted]
  refine (Follows.map_iff.1 hsums).congr fun faces _ => ?_
  have hperm := Hands.ofFaces_perm (faces.map u)
  rw [hp.worth_eq, Function.comp_apply, sum_map_successFace]
  exact congrArg (fun n : Nat => checked n) (hperm.countP_eq _).symm

theorem follows_hands (limit : Nat) (hw : g.Writable) (hp : p.Carries g.sides g.modifiers u)
    (hsel : p.selections ≠ []) :
    Follows DistributionError.ofArithmetic limit (fun faces => checked (g.worth faces))
      (draws g.sides.faces g.count.toNat) (p.distribution limit g.count) := by
  have hnonneg : ∀ hand ∈ (draws (g.sides.faces.map u) g.count.toNat).map Hands.ofFaces,
      ∀ x ∈ Selection.pickAll p.selections hand, 0 ≤ x := by
    intro hand hhand
    rw [draws_map, List.map_map] at hhand
    obtain ⟨faces, hfaces, rfl⟩ := List.mem_map.1 hhand
    have hshown := congrArg Showing.hand (hp.showing faces)
    have hstart := DiceGroup.faces_nonneg (mem_draws.1 hfaces).2
    have hfinal := Showing.foldl_act_nonneg (s := ⟨Hands.ofFaces faces, none⟩) hw.2 hstart
    rwa [hshown] at hfinal
  have hrolled := Hands.follows_roll limit hp.face hp.faces_ne_nil g.count.toNat
  have hall := hrolled.bind fun hands _ hhands => by
    rw [valuesOn_ok] at hhands ⊢
    exact (follows_worth limit p hhands hnonneg).mapError
  rw [draws_map] at hall
  have hagrees := (Follows.map_iff.1 hall).congr (g := fun faces => checked (g.worth faces))
    fun faces _ => by
      rw [hp.worth_eq]
      rfl
  obtain ⟨face, selections, successes⟩ := p
  cases selections with
  | nil => exact absurd rfl hsel
  | cons s rest => exact hagrees

/-- The distribution of a plan agrees with what the group is worth. -/
theorem follows_distribution (limit : Nat) (hw : g.Writable)
    (hp : p.Carries g.sides g.modifiers u) :
    Follows DistributionError.ofArithmetic limit (fun faces => checked (g.worth faces))
      (draws g.sides.faces g.count.toNat) (p.distribution limit g.count) := by
  by_cases hsel : p.selections = []
  · obtain ⟨face, selections, successes⟩ := p
    subst hsel
    cases successes with
    | none => exact follows_sums limit hp
    | some condition => exact follows_successes limit hp
  · exact follows_hands limit hw hp hsel

end Agreement

end DiceGroup.Plan

end DiceNotation
