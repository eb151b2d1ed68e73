import DiceNotation.Proofs.Distribution.Follows
import DiceNotation.Proofs.Rolls.Showing

/-!
# Combining independent parts

Sums of repeated draws and hands of dice are worked out die by die. Both follow what all draws of so many
faces come to, and neither fails early: no face is negative, so a sum that leaves the range does not
come back into it.
-/

namespace DiceNotation

open Tally (Follows AddsBy repeated)

theorem foldlM_foldlM {ι κ σ ε : Type} (step : σ → ι → κ → Except ε σ) (l : List ι) (r : List κ)
    (start : σ) :
    l.foldlM (fun s i => r.foldlM (fun s k => step s i k) s) start =
      (l ×ˢ r).foldlM (fun s p => step s p.1 p.2) start := by
  induction l generalizing start with
  | nil => rfl
  | cons i l ih =>
    rw [List.foldlM_cons, List.product_cons, List.foldlM_append, List.foldlM_map]
    exact bind_congr fun s => ih s

theorem repeated_pairs_perm {α β : Type} [DecidableEq α] [Ord α] [Std.TransOrd α]
    [Std.LawfulEqOrd α] [DecidableEq β] [Ord β] [Std.TransOrd β] [Std.LawfulEqOrd β]
    {a : Tally α} {b : Tally β} {l : List α} {r : List β} (ha : a.Counts l) (hb : b.Counts r) :
    ((repeated (fun p : (α × Nat) × (β × Nat) => p.1.2 * p.2.2) (a.toList ×ˢ b.toList)).map
      (Prod.map Prod.fst Prod.fst)).Perm (l ×ˢ r) := by
  have hpairs := (Tally.repeated_product_perm Prod.snd Prod.snd a.toList b.toList).map
    (Prod.map Prod.fst Prod.fst)
  rw [← product_map_map] at hpairs
  exact hpairs.trans (ha.repeated_perm.product hb.repeated_perm)

namespace Distribution

theorem addPair_addsBy (limit : Nat) (f : Int → Int → Except ArithmeticError Int) :
    AddsBy id limit (fun p : (Int × Nat) × (Int × Nat) => f p.1.1 p.2.1)
      (fun p => p.1.2 * p.2.2) (fun t p => addPair f p.1 t p.2) where
  ok := by
    intro t s p hstep
    unfold addPair at hstep
    split at hstep
    · cases hstep
    · next ways hways =>
      obtain ⟨-, rfl⟩ := Tally.boundedCount_eq_ok_iff.1 hways
      split at hstep
      · cases hstep
      · next x hx => exact ⟨x, hx, hstep⟩
  error := by
    intro t samples p e ht _ hfit hlimit hstep
    unfold addPair at hstep
    have hbounded : Tally.boundedCount (p.1.2 * p.2.2) = .ok (p.1.2 * p.2.2) :=
      Tally.boundedCount_eq_ok_iff.2 ⟨by omega, rfl⟩
    rw [hbounded] at hstep
    dsimp only at hstep
    split at hstep
    · next a hf =>
      cases hstep
      exact ⟨_, hf, rfl⟩
    · exact absurd hstep (ht.add_ne_error (by omega) e)

theorem follows_combine (limit : Nat) (f : Int → Int → Except ArithmeticError Int)
    {a b : Distribution} {l r : List Int} (ha : a.Counts l) (hb : b.Counts r) :
    Follows DistributionError.ofArithmetic limit (fun p => f p.1 p.2) (l ×ˢ r)
      (combine limit f a b) := by
  unfold combine
  split
  · next hlarge =>
    intro hfit
    rw [List.length_product] at hfit
    have := Nat.mul_le_mul ha.size_le hb.size_le
    omega
  · have hpos : ∀ p ∈ a.toList ×ˢ b.toList, 0 < p.1.2 * p.2.2 := by
      rintro ⟨left, right⟩ hp
      obtain ⟨hleft, hright⟩ := List.mem_product.1 hp
      exact Nat.mul_pos (ha.pos hleft) (hb.pos hright)
    have hfold := (addPair_addsBy limit f).follows_foldlM _ hpos
    rw [← foldlM_foldlM (fun t left right => addPair f left t right)] at hfold
    have hpairs := Follows.map_iff (f := fun p => f p.1 p.2) (u := Prod.map Prod.fst Prod.fst).2 hfold
    exact (hpairs.perm (repeated_pairs_perm ha hb)).mapError

/-- Two distributions that follow functions of independent inputs combine to one that follows the
functions together. -/
theorem follows_combine_of {γ δ : Type} {limit : Nat} (f : Int → Int → Except ArithmeticError Int)
    {a b : Distribution} {u : γ → Except ArithmeticError Int}
    {v : δ → Except ArithmeticError Int} {l : List γ} {r : List δ}
    (ha : Follows DistributionError.ofArithmetic limit u l (.ok a))
    (hb : Follows DistributionError.ofArithmetic limit v r (.ok b)) :
    Follows DistributionError.ofArithmetic limit
      (fun p => (u p.1).bind fun x => (v p.2).bind fun y => f x y) (l ×ˢ r)
      (combine limit f a b) := by
  obtain ⟨hu, hacounts⟩ := ha
  obtain ⟨hv, hbcounts⟩ := hb
  choose! x hx using hu
  choose! y hy using hv
  rw [valuesOn_eq_map hx] at hacounts
  rw [valuesOn_eq_map hy] at hbcounts
  have hcombined := follows_combine limit f hacounts hbcounts
  rw [product_map_map] at hcombined
  refine (Follows.map_iff.1 hcombined).congr ?_
  rintro ⟨i, k⟩ hp
  obtain ⟨hi, hk⟩ := List.mem_product.1 hp
  simp only [hx i hi, hy k hk]
  rfl

/-- The same for computed distributions: the left one fails first, and a failure of either shows on some
pair of inputs. -/
theorem follows_both {γ δ : Type} {limit : Nat} (f : Int → Int → Except ArithmeticError Int)
    {a b : Except DistributionError Distribution} {u : γ → Except ArithmeticError Int}
    {v : δ → Except ArithmeticError Int} {l : List γ} {r : List δ} (hl : l ≠ []) (hr : r ≠ [])
    (ha : Follows DistributionError.ofArithmetic limit u l a)
    (hb : Follows DistributionError.ofArithmetic limit v r b) :
    Follows DistributionError.ofArithmetic limit
      (fun p => (u p.1).bind fun x => (v p.2).bind fun y => f x y) (l ×ˢ r)
      (match a with
        | .error e => .error e
        | .ok left =>
          match b with
          | .error e => .error e
          | .ok right => combine limit f left right) := by
  have hlength : (l ×ˢ r).length = l.length * r.length := List.length_product l r
  cases a with
  | error e =>
    have hle := Nat.le_mul_of_pos_right l.length (List.length_pos_iff.2 hr)
    refine ha.error_mono (hlength ▸ hle) fun i hi reason hfail => ?_
    obtain ⟨k, hk⟩ := List.exists_mem_of_ne_nil r hr
    refine ⟨(i, k), List.mem_product.2 ⟨hi, hk⟩, ?_⟩
    simp only [hfail]
    rfl
  | ok left =>
    cases b with
    | error e =>
      have hle := Nat.le_mul_of_pos_left r.length (List.length_pos_iff.2 hl)
      refine hb.error_mono (hlength ▸ hle) fun k hk reason hfail => ?_
      obtain ⟨i, hi⟩ := List.exists_mem_of_ne_nil l hl
      obtain ⟨x, hx⟩ := ha.1 i hi
      refine ⟨(i, k), List.mem_product.2 ⟨hi, hk⟩, ?_⟩
      simp only [hx, hfail]
      rfl
    | ok right => exact follows_combine_of f ha hb

end Distribution

section Repetition

variable {die : Distribution} {faces : List Int}

theorem sum_draw_nonneg (hnonneg : ∀ x ∈ faces, 0 ≤ x) {n : Nat} {fs : List Int}
    (h : fs ∈ draws faces n) : 0 ≤ fs.sum :=
  List.sum_nonneg fun x hx => hnonneg x ((mem_draws.1 h).2 x hx)

/-- Any draw can be continued. -/
theorem exists_append_mem_draws (hne : faces ≠ []) {k : Nat} (n : Nat) {fs : List Int}
    (h : fs ∈ draws faces k) : ∃ more ∈ draws faces n, more ++ fs ∈ draws faces (k + n) := by
  obtain ⟨x, hx⟩ := List.exists_mem_of_ne_nil faces hne
  obtain ⟨hlength, hmem⟩ := mem_draws.1 h
  have hmore : List.replicate n x ∈ draws faces n := by
    refine mem_draws.2 ⟨List.length_replicate, fun y hy => ?_⟩
    rwa [List.eq_of_mem_replicate hy]
  refine ⟨_, hmore, mem_draws.2 ⟨?_, fun y hy => ?_⟩⟩
  · rw [List.length_append, List.length_replicate]
    omega
  · rcases List.mem_append.1 hy with hy | hy
    · exact (mem_draws.1 hmore).2 y hy
    · exact hmem y hy

theorem length_draws_mono (hne : faces ≠ []) {k n : Nat} (h : k ≤ n) :
    (draws faces k).length ≤ (draws faces n).length := by
  rw [length_draws, length_draws]
  exact Nat.pow_le_pow_right (List.length_pos_iff.2 hne) h

namespace Distribution

theorem follows_addDraw (hdie : die.Counts faces) (hnonneg : ∀ x ∈ faces, 0 ≤ x)
    {sum : Distribution} {limit k : Nat}
    (hsum : Follows DistributionError.ofArithmetic limit (fun fs => checked fs.sum) (draws faces k)
      (.ok sum)) :
    Follows DistributionError.ofArithmetic limit (fun fs => checked fs.sum) (draws faces (k + 1))
      (combine limit BinaryOp.add.apply sum die) := by
  have hface : Follows DistributionError.ofArithmetic limit (fun x => .ok x) faces (.ok die) :=
    ⟨fun x _ => ⟨x, rfl⟩, by rwa [valuesOn_ok, List.map_id']⟩
  have hpairs := follows_combine_of BinaryOp.add.apply hsum hface
  refine Follows.map_iff.2 (hpairs.congr ?_)
  rintro ⟨fs, x⟩ hp
  obtain ⟨hfs, hx⟩ := List.mem_product.1 hp
  have hadd : ∀ s, BinaryOp.add.apply s x = checked (s + x) := fun s => rfl
  change ((checked fs.sum).bind fun s => BinaryOp.add.apply s x) = checked (x :: fs).sum
  simp only [hadd]
  rw [checked_add_bind (sum_draw_nonneg hnonneg hfs) (hnonneg x hx), List.sum_cons, Int.add_comm]

theorem follows_addDraws (hdie : die.Counts faces) (hne : faces ≠ []) (hnonneg : ∀ x ∈ faces, 0 ≤ x)
    {sum : Distribution} {limit k : Nat} (n : Nat)
    (hsum : Follows DistributionError.ofArithmetic limit (fun fs => checked fs.sum) (draws faces k)
      (.ok sum)) :
    Follows DistributionError.ofArithmetic limit (fun fs => checked fs.sum) (draws faces (k + n))
      (addDraws limit die n sum) := by
  induction n generalizing k sum with
  | zero => exact hsum
  | succ n ih =>
    have hstep := follows_addDraw hdie hnonneg hsum
    have hindex : k + (n + 1) = k + 1 + n := by omega
    rw [addDraws, hindex]
    cases hcombined : combine limit BinaryOp.add.apply sum die with
    | ok next =>
      rw [hcombined] at hstep
      exact ih hstep
    | error e =>
      -- A partial sum out of range stays out of range, so the failing draw can be continued.
      rw [hcombined] at hstep
      refine hstep.error_mono (length_draws_mono hne (by omega)) fun fs hfs a hfail => ?_
      obtain ⟨more, hmore, hlonger⟩ := exists_append_mem_draws hne n hfs
      refine ⟨more ++ fs, hlonger, checked_error_mono (sum_draw_nonneg hnonneg hfs) ?_ hfail⟩
      have hsum := sum_draw_nonneg hnonneg hmore
      rw [List.sum_append]
      omega

/-- Repeated sums follow the checked sum of all draws. -/
theorem follows_repeatSum (limit : Nat) (hdie : die.Counts faces) (hne : faces ≠ [])
    (hfaces : ∀ x ∈ faces, 0 ≤ x ∧ x ≤ maxInt) (count : DiceCount) :
    Follows DistributionError.ofArithmetic limit (fun fs => checked fs.sum)
      (draws faces count.toNat) (repeatSum limit die count) := by
  have hsingle : Follows DistributionError.ofArithmetic limit (fun fs => checked fs.sum)
      (draws faces 1) (.ok die) := by
    have hdraws : draws faces 1 = faces.map fun x => [x] := by
      simp [draws, SProd.sprod, List.product]
    have hvalues : ∀ x ∈ faces, checked [x].sum = .ok x := by
      intro x hx
      have hrange : InRange x := by
        have := hfaces x hx
        simp only [InRange, minInt, maxInt] at *
        omega
      rw [List.sum_singleton, checked_of_inRange hrange]
    rw [hdraws]
    refine Follows.map_iff.2 ⟨fun x hx => ⟨x, hvalues x hx⟩, ?_⟩
    rw [valuesOn_eq_map hvalues]
    rwa [List.map_id']
  have hcount : count.toNat = 1 + (count.toNat - 1) := by
    have := count.pos
    omega
  rw [hcount]
  exact follows_addDraws hdie hne (fun x hx => (hfaces x hx).1) _ hsingle

end Distribution

namespace Hands

theorem addFace_addsBy (limit : Nat) :
    AddsBy DistributionError.ofArithmetic limit
      (fun p : (List Int × Nat) × (Int × Nat) => .ok (insertFace p.2.1 p.1.1))
      (fun p => p.1.2 * p.2.2) (fun t p => addFace limit p.1.1 p.1.2 t p.2) where
  ok := by
    intro t s p hstep
    unfold addFace at hstep
    split at hstep
    · cases hstep
    · next next hnext =>
      split at hstep
      · cases hstep
      · cases hstep
        cases hways : Tally.boundedCount (p.1.2 * p.2.2) with
        | error e =>
          rw [hways] at hnext
          cases hnext
        | ok ways =>
          obtain ⟨-, rfl⟩ := Tally.boundedCount_eq_ok_iff.1 hways
          rw [hways] at hnext
          exact ⟨_, rfl, hnext⟩
  error := by
    intro t samples p e ht hpos hfit hlimit hstep
    unfold addFace at hstep
    have hbounded : Tally.boundedCount (p.1.2 * p.2.2) = .ok (p.1.2 * p.2.2) :=
      Tally.boundedCount_eq_ok_iff.2 ⟨by omega, rfl⟩
    rw [hbounded] at hstep
    split at hstep
    · next a hadd => exact absurd hadd (ht.add_ne_error (by omega) a)
    · next next hadd =>
      split at hstep
      · next hlarge =>
        have hsize := (ht.add hpos hadd).size_le
        simp only [List.length_append, List.length_replicate] at hsize
        omega
      · cases hstep

theorem follows_addDieTo (limit : Nat) {hands : Hands} {l : List (List Int)}
    (hhands : hands.Counts l) (hdie : die.Counts faces) :
    Follows DistributionError.ofArithmetic limit (fun p => .ok (insertFace p.2 p.1)) (l ×ˢ faces)
      (addDieTo limit die hands.toList) := by
  have hpos : ∀ p ∈ hands.toList ×ˢ die.toList, 0 < p.1.2 * p.2.2 := by
    rintro ⟨hand, face⟩ hp
    obtain ⟨hhand, hface⟩ := List.mem_product.1 hp
    exact Nat.mul_pos (hhands.pos hhand) (hdie.pos hface)
  have hfold := (addFace_addsBy limit).follows_foldlM _ hpos
  rw [← foldlM_foldlM (fun t (hand : List Int × Nat) face => addFace limit hand.1 hand.2 t face)] at hfold
  have hpairs := Follows.map_iff (f := fun p : List Int × Int => .ok (insertFace p.2 p.1))
    (u := Prod.map Prod.fst Prod.fst).2 hfold
  exact hpairs.perm (repeated_pairs_perm hhands hdie)

theorem follows_addDice (limit : Nat) (hdie : die.Counts faces) (hne : faces ≠ []) {hands : Hands}
    {k : Nat} (n : Nat) (hhands : hands.Counts ((draws faces k).map ofFaces)) :
    Follows DistributionError.ofArithmetic limit (fun fs => .ok (ofFaces fs)) (draws faces (k + n))
      (addDice limit die n hands) := by
  induction n generalizing k hands with
  | zero => exact ⟨fun fs _ => ⟨_, rfl⟩, by rwa [valuesOn_ok]⟩
  | succ n ih =>
    have hpairs := follows_addDieTo limit hhands hdie
    have hrows : (draws faces k).map ofFaces ×ˢ faces =
        (draws faces k ×ˢ faces).map (Prod.map ofFaces id) := by
      rw [← product_map_map, List.map_id]
    rw [hrows] at hpairs
    have hinserted := Follows.map_iff.1 hpairs
    have hstep : Follows DistributionError.ofArithmetic limit (fun fs => .ok (ofFaces fs))
        (draws faces (k + 1)) (addDieTo limit die hands.toList) := Follows.map_iff.2 hinserted
    have hindex : k + (n + 1) = k + 1 + n := by omega
    rw [addDice, hindex]
    cases hnext : addDieTo limit die hands.toList with
    | ok next =>
      rw [hnext] at hstep
      obtain ⟨-, hcounts⟩ := hstep
      rw [valuesOn_ok] at hcounts
      exact ih hcounts
    | error e =>
      rw [hnext] at hstep
      refine hstep.error_mono (length_draws_mono hne (by omega)) fun fs _ a hfail => ?_
      cases hfail

/-- Rolled hands follow the draws, sorted. -/
theorem follows_roll (limit : Nat) (hdie : die.Counts faces) (hne : faces ≠ []) (count : Nat) :
    Follows DistributionError.ofArithmetic limit (fun fs => .ok (ofFaces fs)) (draws faces count)
      (roll limit die count) := by
  have hnone : noDice.Counts ((draws faces 0).map ofFaces) := Tally.Counts.singleton []
  have := follows_addDice limit hdie hne count hnone
  rwa [Nat.zero_add] at this

end Hands

end Repetition

end DiceNotation
