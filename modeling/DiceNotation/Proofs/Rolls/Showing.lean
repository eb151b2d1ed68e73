import Mathlib.Algebra.Order.BigOperators.Group.List
import Mathlib.Data.List.Sort
import DiceNotation.Distribution.Hands
import DiceNotation.Proofs.Rolls.Throws
import DiceNotation.Proofs.Writable

/-!
# What a group shows

The worth of a group depends on the values of its dice in play, not on the order in which they were
rolled. A `Showing` keeps those values in ascending order, and every modifier that rolls no dice acts on
it. This is the common ground of rolling a group and of working out its distribution.
-/

namespace DiceNotation

section Sums

/-- Without negative terms no partial sum is out of range unless the whole sum is. -/
theorem checked_add_bind {x y : Int} (hx : 0 ≤ x) (hy : 0 ≤ y) :
    ((checked x).bind fun sum => checked (sum + y)) = checked (x + y) := by
  by_cases h : InRange x
  · rw [checked_of_inRange h]
    rfl
  · have hsum : ¬ InRange (x + y) := by
      simp only [InRange, minInt, maxInt] at *
      omega
    simp only [checked, if_neg h, if_neg hsum]
    rfl

/-- What is out of range stays so when more is added. -/
theorem checked_error_mono {x y : Int} {e : ArithmeticError} (hx : 0 ≤ x) (hle : x ≤ y)
    (h : checked x = .error e) : checked y = .error e := by
  have hout : ¬ InRange x := by
    intro hin
    rw [checked_of_inRange hin] at h
    cases h
  have hout' : ¬ InRange y := by
    simp only [InRange, minInt, maxInt] at *
    omega
  rw [checked, if_neg hout] at h
  rw [checked, if_neg hout', ← h]

theorem foldlM_checked {start : Int} {terms : List Int} (hstart : 0 ≤ start) (hrange : InRange start)
    (hterms : ∀ x ∈ terms, 0 ≤ x) :
    terms.foldlM (fun sum x => checked (sum + x)) start = checked (start + terms.sum) := by
  induction terms generalizing start with
  | nil =>
    rw [List.sum_nil, Int.add_zero, checked_of_inRange hrange]
    rfl
  | cons x terms ih =>
    have hx := hterms x (by simp)
    have hrest : ∀ y ∈ terms, 0 ≤ y := fun y hy => hterms y (by simp [hy])
    rw [List.foldlM_cons, List.sum_cons]
    by_cases h : InRange (start + x)
    · rw [checked_of_inRange h]
      change List.foldlM _ (start + x) terms = _
      rw [ih (by omega) h hrest, Int.add_assoc]
    · have hsum := List.sum_nonneg hrest
      have hall : ¬ InRange (start + (x + terms.sum)) := by
        simp only [InRange, minInt, maxInt] at *
        omega
      simp only [checked, if_neg h, if_neg hall]
      rfl

theorem Hands.sum_eq {hand : List Int} (h : ∀ x ∈ hand, 0 ≤ x) :
    Hands.sum hand = checked hand.sum := by
  rw [Hands.sum, foldlM_checked (Int.le_refl 0) (by decide) h, Int.zero_add]

end Sums

namespace Hands

/-- The hand that some faces make. -/
def ofFaces (faces : List Int) : List Int := faces.foldr insertFace []

theorem insertFace_perm (face : Int) (hand : List Int) :
    (insertFace face hand).Perm (face :: hand) := by
  induction hand with
  | nil => rfl
  | cons x hand ih =>
    by_cases h : x ≤ face
    · rw [insertFace, if_pos h]
      exact (ih.cons x).trans (List.Perm.swap face x hand)
    · rw [insertFace, if_neg h]

theorem pairwise_insertFace {face : Int} {hand : List Int} (h : hand.Pairwise (· ≤ ·)) :
    (insertFace face hand).Pairwise (· ≤ ·) := by
  induction hand with
  | nil => simp [insertFace]
  | cons x hand ih =>
    obtain ⟨hx, hhand⟩ := List.pairwise_cons.1 h
    by_cases hle : x ≤ face
    · rw [insertFace, if_pos hle]
      refine List.pairwise_cons.2 ⟨fun y hy => ?_, ih hhand⟩
      rcases List.mem_cons.1 ((insertFace_perm face hand).mem_iff.1 hy) with rfl | hy
      · exact hle
      · exact hx y hy
    · rw [insertFace, if_neg hle]
      refine List.pairwise_cons.2 ⟨fun y hy => ?_, h⟩
      rcases List.mem_cons.1 hy with rfl | hy
      · omega
      · have := hx y hy
        omega

theorem ofFaces_perm (faces : List Int) : (ofFaces faces).Perm faces := by
  induction faces with
  | nil => rfl
  | cons face faces ih => exact (insertFace_perm face _).trans (ih.cons face)

theorem pairwise_ofFaces (faces : List Int) : (ofFaces faces).Pairwise (· ≤ ·) := by
  induction faces with
  | nil => simp [ofFaces]
  | cons face faces ih => exact pairwise_insertFace ih

/-- A hand is determined by the faces in it. -/
theorem ofFaces_eq {faces hand : List Int} (hsorted : hand.Pairwise (· ≤ ·))
    (hperm : faces.Perm hand) : ofFaces faces = hand :=
  List.Perm.eq_of_pairwise' (pairwise_ofFaces faces) hsorted ((ofFaces_perm faces).trans hperm)

end Hands

namespace Clamp

theorem apply_mono (c : Clamp) {x y : Int} (h : x ≤ y) : c.apply x ≤ c.apply y := by
  cases c with
  | minimum bound =>
    simp only [apply]
    omega
  | maximum bound =>
    simp only [apply]
    omega

theorem pairwise_map (c : Clamp) {hand : List Int} (h : hand.Pairwise (· ≤ ·)) :
    (hand.map c.apply).Pairwise (· ≤ ·) :=
  h.map c.apply fun _ _ hle => c.apply_mono hle

/-- Clamps keep the order of values, so they can be applied before the hand is sorted. -/
theorem ofFaces_map (c : Clamp) (faces : List Int) :
    Hands.ofFaces (faces.map c.apply) = (Hands.ofFaces faces).map c.apply :=
  Hands.ofFaces_eq (c.pairwise_map (Hands.pairwise_ofFaces faces))
    ((Hands.ofFaces_perm faces).symm.map c.apply)

end Clamp

namespace Selection

theorem pick_sublist (s : Selection) (hand : List Int) : (s.pick hand).Sublist hand := by
  unfold pick
  split
  · exact List.drop_sublist _ _
  · exact List.take_sublist _ _
  · exact List.take_sublist _ _
  · exact List.drop_sublist _ _

theorem pick_map (s : Selection) (u : Int → Int) (hand : List Int) :
    s.pick (hand.map u) = (s.pick hand).map u := by
  unfold pick
  split <;> simp only [List.map_drop, List.map_take, List.length_map]

end Selection

/-- Whether the modifier rolls dice of its own. -/
def Modifier.rollsDice : Modifier → Bool
  | reroll .. | explode .. => true
  | _ => false

/-- The values of the dice in play, in ascending order, and the condition for a success. -/
structure Showing where
  hand : List Int
  successes : Option Condition

namespace Showing

/-- What a modifier makes of a showing. -/
def act (s : Showing) : Modifier → Showing
  | .select selection => { s with hand := selection.pick s.hand }
  | .clamp c => { s with hand := s.hand.map c.apply }
  | .countSuccesses condition => { s with successes := some condition }
  | .reroll .. | .explode .. => s

def worth (s : Showing) : Int :=
  match s.successes with
  | none => s.hand.sum
  | some condition => (s.hand.countP condition.holds : Nat)

/-- A group never shows a negative value. -/
theorem act_nonneg {s : Showing} {m : Modifier} (hm : m.Writable) (h : ∀ x ∈ s.hand, 0 ≤ x) :
    ∀ x ∈ (s.act m).hand, 0 ≤ x := by
  cases m with
  | select selection => exact fun x hx => h x ((selection.pick_sublist s.hand).mem hx)
  | clamp c =>
    intro x hx
    obtain ⟨y, hy, rfl⟩ := List.mem_map.1 hx
    have hnonneg := h y hy
    cases c with
    | minimum bound =>
      simp only [Clamp.apply]
      omega
    | maximum bound =>
      have := hm.1
      simp only [Clamp.apply]
      omega
  | reroll | explode | countSuccesses => exact h

theorem foldl_act_nonneg {s : Showing} {modifiers : List Modifier} (hm : ∀ m ∈ modifiers, m.Writable)
    (h : ∀ x ∈ s.hand, 0 ≤ x) : ∀ x ∈ (modifiers.foldl act s).hand, 0 ≤ x := by
  induction modifiers generalizing s with
  | nil => exact h
  | cons m rest ih =>
    have hhead := act_nonneg (hm m (by simp)) h
    exact ih (fun m hm' => hm m (by simp [hm'])) hhead

end Showing

namespace DiceGroup

/-- What the group shows in the end when its dice fall on the given faces. -/
def showing (g : DiceGroup) (faces : List Int) : Showing :=
  g.modifiers.foldl Showing.act ⟨Hands.ofFaces faces, none⟩

/-- What the group is worth when its dice fall on the given faces. -/
def worth (g : DiceGroup) (faces : List Int) : Int := (g.showing faces).worth

end DiceGroup

/-- The value of the expression for a throw of its dice. -/
def Expr.totalOf : Expr → List Int → Except ArithmeticError Int
  | literal x, _ => .ok x
  | dice g, faces => checked (g.worth faces)
  | negate e, faces => (e.totalOf faces).bind DiceNotation.negate
  | binary op l r, faces =>
    (l.totalOf (faces.take l.dieSides.length)).bind fun left =>
      (r.totalOf (faces.drop l.dieSides.length)).bind fun right => op.apply left right

end DiceNotation
