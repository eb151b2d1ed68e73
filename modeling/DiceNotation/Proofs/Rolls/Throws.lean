import Mathlib.Algebra.Order.Ring.Int
import Mathlib.Data.List.Forall2
import Mathlib.Data.List.Nodup
import Mathlib.Data.List.ProdSigma
import DiceNotation.Expr

/-!
# Throws

A throw of an expression names a face for each of its dice, in the order in which they are rolled. There
are finitely many, and they can be listed one after another, each of them once.
-/

namespace DiceNotation

/-- The faces of a die, in ascending order. -/
def Sides.faces (s : Sides) : List Int := (List.range s.toNat).map fun (i : Nat) => (i : Int) + 1

namespace Sides

theorem mem_faces {s : Sides} {x : Int} : x ∈ s.faces ↔ 1 ≤ x ∧ x ≤ s.top := by
  simp only [faces, top, List.mem_map, List.mem_range]
  constructor
  · rintro ⟨i, hi, rfl⟩
    omega
  · rintro ⟨hlow, hhigh⟩
    exact ⟨(x - 1).toNat, by omega, by omega⟩

theorem length_faces (s : Sides) : s.faces.length = s.toNat := by simp [faces]

theorem nodup_faces (s : Sides) : s.faces.Nodup := by
  refine List.Nodup.map ?_ List.nodup_range
  intro i j h
  simp only at h
  omega

theorem length_faces_le (s : Sides) : s.faces.length ≤ maxCount := by
  have := s.le_max
  rw [s.length_faces]
  simp only [maxSides, maxCount] at *
  omega

theorem faces_ne_nil (s : Sides) : s.faces ≠ [] := by
  refine List.ne_nil_of_length_pos ?_
  rw [s.length_faces]
  exact s.pos

end Sides

/-- All lists of `n` members of `faces`. -/
def draws (faces : List Int) : Nat → List (List Int)
  | 0 => [[]]
  | n + 1 => (draws faces n ×ˢ faces).map fun p => p.2 :: p.1

section Draws

variable {faces : List Int} {n : Nat}

theorem mem_draws {fs : List Int} : fs ∈ draws faces n ↔ fs.length = n ∧ ∀ x ∈ fs, x ∈ faces := by
  induction n generalizing fs with
  | zero =>
    simp only [draws, List.mem_singleton, List.length_eq_zero_iff]
    constructor
    · rintro rfl
      simp
    · exact fun h => h.1
  | succ n ih =>
    simp only [draws, List.mem_map, Prod.exists, List.mem_product, ih]
    constructor
    · rintro ⟨rest, x, ⟨⟨hlength, hrest⟩, hx⟩, rfl⟩
      simp only [List.length_cons, hlength, List.mem_cons, forall_eq_or_imp]
      exact ⟨trivial, hx, hrest⟩
    · rintro ⟨hlength, hmem⟩
      cases fs with
      | nil => simp at hlength
      | cons x rest =>
        simp only [List.length_cons, Nat.add_right_cancel_iff] at hlength
        exact ⟨rest, x, ⟨⟨hlength, fun y hy => hmem y (by simp [hy])⟩, hmem x (by simp)⟩, rfl⟩

theorem length_draws (faces : List Int) (n : Nat) : (draws faces n).length = faces.length ^ n := by
  induction n with
  | zero => rfl
  | succ n ih => rw [draws, List.length_map, List.length_product, ih, Nat.pow_succ]

theorem nodup_draws (h : faces.Nodup) (n : Nat) : (draws faces n).Nodup := by
  induction n with
  | zero => simp [draws]
  | succ n ih =>
    refine List.Nodup.map ?_ (ih.product h)
    rintro ⟨p, x⟩ ⟨q, y⟩ heq
    simp only [List.cons.injEq] at heq
    rw [heq.1, heq.2]

theorem product_map_map {α β γ δ : Type} (u : α → γ) (v : β → δ) (l : List α) (r : List β) :
    l.map u ×ˢ r.map v = (l ×ˢ r).map (Prod.map u v) := by
  induction l with
  | nil => rfl
  | cons x l ih =>
    rw [List.map_cons, List.product_cons, List.product_cons, ih, List.map_append, List.map_map,
      List.map_map]
    rfl

theorem draws_map (u : Int → Int) (faces : List Int) (n : Nat) :
    draws (faces.map u) n = (draws faces n).map (List.map u) := by
  induction n with
  | zero => rfl
  | succ n ih =>
    rw [draws, ih, draws, product_map_map, List.map_map, List.map_map]
    rfl

end Draws

namespace Expr

/-- The groups of dice, from left to right. -/
def groups : Expr → List DiceGroup
  | literal _ => []
  | dice g => [g]
  | negate e => e.groups
  | binary _ l r => l.groups ++ r.groups

/-- The sides of every die, in the order of the rolls. -/
def dieSides (e : Expr) : List Sides := e.groups.flatMap fun g => List.replicate g.count.toNat g.sides

/-- The faces are one for each die of the expression, in the order of the rolls. -/
def IsThrow (e : Expr) (faces : List Int) : Prop :=
  List.Forall₂ (fun s face => 1 ≤ face ∧ face ≤ Sides.top s) e.dieSides faces

/-- The number of throws. -/
def throwCount (e : Expr) : Nat := (e.groups.map fun g => g.sides.toNat ^ g.count.toNat).prod

/-- Every throw once. -/
def throws : Expr → List (List Int)
  | literal _ => [[]]
  | dice g => draws g.sides.faces g.count.toNat
  | negate e => e.throws
  | binary _ l r => (l.throws ×ˢ r.throws).map fun p => p.1 ++ p.2

theorem dieSides_binary (op : BinaryOp) (l r : Expr) :
    (binary op l r).dieSides = l.dieSides ++ r.dieSides := List.flatMap_append

theorem IsThrow.length_eq {e : Expr} {faces : List Int} (h : e.IsThrow faces) :
    faces.length = e.dieSides.length := (List.Forall₂.length_eq h).symm

theorem forall₂_replicate_iff {s : Sides} {n : Nat} {faces : List Int} :
    List.Forall₂ (fun s face => 1 ≤ face ∧ face ≤ Sides.top s) (List.replicate n s) faces ↔
      faces.length = n ∧ ∀ x ∈ faces, x ∈ s.faces := by
  simp only [Sides.mem_faces]
  induction n generalizing faces with
  | zero =>
    rw [List.replicate_zero, List.forall₂_nil_left_iff, List.length_eq_zero_iff]
    constructor
    · rintro rfl
      simp
    · exact fun h => h.1
  | succ n ih =>
    rw [List.replicate_succ, List.forall₂_cons_left_iff]
    constructor
    · rintro ⟨x, rest, hx, hrest, rfl⟩
      obtain ⟨hlength, hmem⟩ := ih.1 hrest
      simp only [List.length_cons, hlength, List.mem_cons, forall_eq_or_imp]
      exact ⟨trivial, hx, hmem⟩
    · rintro ⟨hlength, hmem⟩
      cases faces with
      | nil => simp at hlength
      | cons x rest =>
        simp only [List.length_cons, Nat.add_right_cancel_iff] at hlength
        exact ⟨x, rest, hmem x (by simp), ih.2 ⟨hlength, fun y hy => hmem y (by simp [hy])⟩, rfl⟩

/-- A throw of a binary operation is one of its left operand followed by one of its right operand. -/
theorem isThrow_binary_iff {op : BinaryOp} {l r : Expr} {faces : List Int} :
    (binary op l r).IsThrow faces ↔
      ∃ left right, l.IsThrow left ∧ r.IsThrow right ∧ faces = left ++ right := by
  unfold IsThrow
  rw [dieSides_binary]
  constructor
  · intro h
    have hleft := List.forall₂_take l.dieSides.length h
    have hright := List.forall₂_drop l.dieSides.length h
    rw [List.take_left] at hleft
    rw [List.drop_left] at hright
    exact ⟨_, _, hleft, hright, (List.take_append_drop _ _).symm⟩
  · rintro ⟨left, right, hleft, hright, rfl⟩
    exact List.rel_append hleft hright

theorem mem_throws {e : Expr} {faces : List Int} : faces ∈ e.throws ↔ e.IsThrow faces := by
  induction e generalizing faces with
  | literal x => simp [throws, IsThrow, dieSides, groups, List.forall₂_nil_left_iff]
  | dice g =>
    simp only [throws, IsThrow, dieSides, groups, List.flatMap_cons, List.flatMap_nil,
      List.append_nil]
    rw [mem_draws, forall₂_replicate_iff]
  | negate e ih => exact ih
  | binary op l r ihl ihr =>
    simp only [throws, List.mem_map, Prod.exists, List.mem_product, ihl, ihr]
    rw [isThrow_binary_iff]
    constructor
    · rintro ⟨left, right, ⟨hleft, hright⟩, rfl⟩
      exact ⟨left, right, hleft, hright, rfl⟩
    · rintro ⟨left, right, hleft, hright, rfl⟩
      exact ⟨left, right, ⟨hleft, hright⟩, rfl⟩

theorem length_throws (e : Expr) : e.throws.length = e.throwCount := by
  induction e with
  | literal x => rfl
  | dice g => simp [throws, throwCount, groups, length_draws, Sides.length_faces]
  | negate e ih => exact ih
  | binary op l r ihl ihr =>
    simp only [throws, throwCount, groups, List.length_map, List.length_product, ihl, ihr,
      List.map_append, List.prod_append]

theorem nodup_throws (e : Expr) : e.throws.Nodup := by
  induction e with
  | literal x => simp [throws]
  | dice g => exact nodup_draws g.sides.nodup_faces _
  | negate e ih => exact ih
  | binary op l r ihl ihr =>
    refine List.Nodup.map_on ?_ (ihl.product ihr)
    rintro ⟨left, right⟩ h ⟨left', right'⟩ h' heq
    rw [List.mem_product, mem_throws, mem_throws] at h h'
    have hlength : left.length = left'.length := h.1.length_eq.trans h'.1.length_eq.symm
    obtain ⟨hl, hr⟩ := List.append_inj heq hlength
    exact Prod.ext hl hr

theorem throws_ne_nil (e : Expr) : e.throws ≠ [] := by
  induction e with
  | literal x => simp [throws]
  | dice g =>
    refine List.ne_nil_of_length_pos ?_
    rw [throws, length_draws, Sides.length_faces]
    exact Nat.pow_pos g.sides.pos
  | negate e ih => exact ih
  | binary op l r ihl ihr =>
    obtain ⟨left, hleft⟩ := List.exists_mem_of_ne_nil _ ihl
    obtain ⟨right, hright⟩ := List.exists_mem_of_ne_nil _ ihr
    exact List.ne_nil_of_mem (List.mem_map.2 ⟨(left, right), by simp [hleft, hright], rfl⟩)

end Expr

end DiceNotation
