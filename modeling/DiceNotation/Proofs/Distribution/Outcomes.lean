import DiceNotation.Proofs.Distribution.Exactness
import DiceNotation.Proofs.Distribution.Orders

/-!
# Distinct outcomes

How many outcomes an expression has is a matter of rolling it: so many totals come up on its throws. The
same can be asked of the first dice of a group, and of the hands that they make. A table that was worked out
for any of them has one entry for each outcome, neither more nor less.
-/

namespace DiceNotation

open Tally (Follows)

namespace Expr

/-- The value of the expression when the faces are played back to it without a cap on rolls. -/
def playedValue (e : Expr) (faces : List Int) : Except RollError Int :=
  (e.evaluate (.start ⟨none, 0, 0⟩ (Playback.ofList faces))).1.map (·.value)

/-- The values that the expression has on its throws. -/
def outcomes (e : Expr) : Set Int := {x | ∃ faces, e.IsThrow faces ∧ e.playedValue faces = .ok x}

end Expr

/-- What a modifier makes of every face; only clamps change one. -/
def Modifier.onFace : Modifier → Int → Int
  | clamp c, x => c.apply x
  | select _, x | reroll .., x | explode .., x | countSuccesses _, x => x

namespace DiceGroup

/-- The group with the first `k` of its dice only. -/
def first (g : DiceGroup) (k : DiceCount) : DiceGroup := { g with count := k }

/-- Some of the modifiers choose among the dice. -/
def Selects (g : DiceGroup) : Prop := ∃ m ∈ g.modifiers, m.isSelection = true

/-- What a face is worth after all clamps. -/
def clampedFace (g : DiceGroup) (face : Int) : Int := g.modifiers.foldl (fun x m => m.onFace x) face

/-- The hands that the first `k` dice of the group make, with their faces clamped. -/
def hands (g : DiceGroup) (k : DiceCount) : Set (List Int) :=
  {hand | ∃ faces, (Expr.dice (g.first k)).IsThrow faces ∧
    hand = Hands.ofFaces (faces.map g.clampedFace)}

end DiceGroup

namespace Tally.Counts

variable {α : Type} [DecidableEq α] [Ord α] [Std.TransOrd α] [Std.LawfulEqOrd α] {t : Tally α}
  {samples : List α}

/-- A tally has an entry for each distinct sample. -/
theorem encard_eq_size (h : t.Counts samples) : {x | x ∈ samples}.encard = t.size := by
  have hset : {x | x ∈ samples} = (t.keys.toFinset : Set α) := by
    ext x
    simp [← h.mem_iff x]
  rw [hset, Set.encard_coe_eq_coe_finsetCard, List.toFinset_card_of_nodup t.nodup_keys,
    Std.ExtTreeMap.length_keys]

theorem gather (h : t.Counts samples) (entries : List (α × Nat)) (hpos : ∀ e ∈ entries, 0 < e.2) :
    (t.gather entries).Counts (samples ++ (repeated Prod.snd entries).map Prod.fst) := by
  induction entries generalizing t samples with
  | nil => simpa [repeated, Tally.gather] using h
  | cons e rest ih =>
    have hstep : (t.addEntry e).Counts (samples ++ List.replicate e.2 e.1) :=
      h.insert (hpos e List.mem_cons_self) e.1
    have hrest := ih hstep fun e' he' => hpos e' (List.mem_cons_of_mem e he')
    have hsplit : (repeated Prod.snd (e :: rest)).map Prod.fst =
        List.replicate e.2 e.1 ++ (repeated Prod.snd rest).map Prod.fst := by
      simp [repeated]
    rw [hsplit, ← List.append_assoc]
    exact hrest

end Tally.Counts

namespace Expr

variable {e : Expr}

theorem playedValue_eq_ok_iff (hw : e.Writable) (he : e.RollsOnce) {faces : List Int}
    (hthrow : e.IsThrow faces) {x : Int} : e.playedValue faces = .ok x ↔ e.totalOf faces = .ok x := by
  have hoffers : ({ Context.start ⟨none, 0, 0⟩ (Playback.ofList faces) with rolls := 0, groups := 0 } :
      Context Playback).Offers (faces ++ []) := ⟨rfl, (List.append_nil faces).symm⟩
  have hanswer := roll_answers hw he hthrow hoffers
  rw [playedValue, evaluate]
  cases htotal : e.totalOf faces with
  | error a =>
    rw [htotal] at hanswer
    obtain ⟨after, hroll⟩ := hanswer
    rw [hroll]
    constructor
    · intro h
      cases h
    · intro h
      cases h
  | ok y =>
    rw [htotal] at hanswer
    obtain ⟨trace, after, hroll, -⟩ := hanswer
    rw [hroll]
    change Except.ok y = Except.ok x ↔ _
    rw [Except.ok.injEq, Except.ok.injEq]

/-- The distribution of an expression has one entry for each of its outcomes. -/
theorem encard_outcomes (hw : e.Writable) {limits : Limits} {d : Distribution}
    (h : e.distribution limits = .ok d) : e.outcomes.encard = d.size := by
  obtain ⟨honce, hroom⟩ := of_distribution_eq_ok h
  have hfollows := follows_distribution hw honce hroom
  rw [h] at hfollows
  obtain ⟨-, hcounts⟩ := hfollows
  have hset : e.outcomes = {x | x ∈ valuesOn e.totalOf e.throws} := by
    ext x
    simp only [outcomes, Set.mem_ofPred_eq, mem_valuesOn, mem_throws]
    refine exists_congr fun faces => and_congr_right fun hthrow => ?_
    exact playedValue_eq_ok_iff hw honce hthrow
  rw [hset, hcounts.encard_eq_size]

theorem encard_outcomes_of_size (hw : e.Writable) {limits : Limits} {n : Nat}
    (h : (e.distribution limits).map (·.size) = .ok n) : e.outcomes.encard = n := by
  cases hd : e.distribution limits with
  | error error =>
    rw [hd] at h
    cases h
  | ok d =>
    rw [hd] at h
    cases h
    exact encard_outcomes hw hd

end Expr

namespace Hands

theorem repeated_withDie (die : Distribution) (hands : Hands) :
    (Tally.repeated Prod.snd (withDie die hands.toList)).map Prod.fst =
      ((Tally.repeated (fun p : (List Int × Nat) × (Int × Nat) => p.1.2 * p.2.2)
        (hands.toList ×ˢ die.toList)).map (Prod.map Prod.fst Prod.fst)).map
          fun p => insertFace p.2 p.1 := by
  simp only [withDie, Tally.repeated, List.flatMap_map, List.map_flatMap, List.map_replicate]
  rfl

/-- A layer without bounds counts the hands of one more die. -/
theorem layer_counts {die : Distribution} {hands : Hands} {faces : List Int} {k : Nat}
    (hdie : die.Counts faces) (hhands : hands.Counts ((draws faces k).map ofFaces)) :
    (layer die hands).Counts ((draws faces (k + 1)).map ofFaces) := by
  have hpos : ∀ e ∈ withDie die hands.toList, 0 < e.2 := by
    intro e he
    obtain ⟨⟨hand, face⟩, hp, rfl⟩ := List.mem_map.1 he
    obtain ⟨hhand, hface⟩ := List.mem_product.1 hp
    exact Nat.mul_pos (hhands.pos hhand) (hdie.pos hface)
  have hcounts := Tally.Counts.empty.gather _ hpos
  rw [List.nil_append, repeated_withDie] at hcounts
  have hrows : (draws faces k).map ofFaces ×ˢ faces =
      (draws faces k ×ˢ faces).map (Prod.map ofFaces id) := by
    rw [← product_map_map, List.map_id]
  have hlayer : ((draws faces k ×ˢ faces).map (Prod.map ofFaces id)).map
      (fun p => insertFace p.2 p.1) = (draws faces (k + 1)).map ofFaces := by
    rw [draws, List.map_map, List.map_map]
    rfl
  have hperm := (repeated_pairs_perm hhands hdie).map fun p => insertFace p.2 p.1
  rw [hrows, hlayer] at hperm
  exact hcounts.perm hperm

end Hands

namespace DiceGroup

namespace Plan

theorem add_face_counts {p next : Plan} {m : Modifier} (h : p.add m = .ok next) {faces : List Int}
    (hp : p.face.Counts faces) : next.face.Counts (faces.map m.onFace) := by
  cases m with
  | select s =>
    cases h
    rwa [show Modifier.onFace (.select s) = id from rfl, List.map_id]
  | clamp c =>
    have hmoved := Tally.follows_mapM 0 (fun x => .ok (c.apply x)) hp
    rw [add] at h
    split at h
    · cases h
    · next face hface =>
      cases h
      rw [hface] at hmoved
      obtain ⟨-, hcounts⟩ := hmoved
      rwa [valuesOn_ok] at hcounts
  | countSuccesses condition =>
    cases h
    rwa [show Modifier.onFace (.countSuccesses condition) = id from rfl, List.map_id]
  | reroll | explode => cases h

theorem foldlM_add_face_counts {modifiers : List Modifier} {p last : Plan}
    (h : modifiers.foldlM add p = .ok last) {faces : List Int} (hp : p.face.Counts faces) :
    last.face.Counts (faces.map fun x => modifiers.foldl (fun x m => m.onFace x) x) := by
  induction modifiers generalizing p faces with
  | nil =>
    cases h
    simpa using hp
  | cons m rest ih =>
    obtain ⟨next, hnext, hrest⟩ := exists_of_foldlM_cons_eq_ok h
    have hcounts := ih hrest (add_face_counts hnext hp)
    rwa [List.map_map] at hcounts

end Plan

variable {g : DiceGroup} {plan : Plan}

theorem clampedFace_counts (hplan : g.modifiers.foldlM Plan.add ⟨.die g.sides, [], none⟩ = .ok plan) :
    plan.face.Counts (g.sides.faces.map g.clampedFace) :=
  Plan.foldlM_add_face_counts hplan (Distribution.die_counts g.sides)

/-- A table of the hands of some first dice has one entry for each of these hands. -/
theorem encard_hands {k : DiceCount} {hands : Hands}
    (h : hands.Counts ((draws (g.sides.faces.map g.clampedFace) k.toNat).map Hands.ofFaces)) :
    (g.hands k).encard = hands.size := by
  have hset : g.hands k =
      {hand | hand ∈ (draws (g.sides.faces.map g.clampedFace) k.toNat).map Hands.ofFaces} := by
    ext hand
    rw [draws_map, List.map_map]
    simp only [DiceGroup.hands, Set.mem_ofPred_eq, List.mem_map, Function.comp_apply,
      ← Expr.mem_throws, Expr.throws, first, eq_comm]
  rw [hset, h.encard_eq_size]

end DiceGroup

end DiceNotation
