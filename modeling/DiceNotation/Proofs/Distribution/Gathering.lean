import Mathlib.Data.List.Perm.Basic
import DiceNotation.Distribution

/-!
# Adding in any order

Entries added to a tally one after another come to the same tally in whatever order they are added, as
long as nothing fails. Under bounds the order still does not decide whether something fails; it decides
which of two faults is met first, if the tally without bounds has both.
-/

namespace DiceNotation

theorem foldlM_perm {α σ ε : Type} {step : σ → α → Except ε σ}
    (hcomm : ∀ s x y, ((step s x).bind fun s => step s y) = (step s y).bind fun s => step s x)
    {l r : List α} (h : l.Perm r) (start : σ) : l.foldlM step start = r.foldlM step start := by
  induction h generalizing start with
  | nil => rfl
  | cons x _ ih =>
    rw [List.foldlM_cons, List.foldlM_cons]
    exact bind_congr fun s => ih s
  | swap x y l =>
    simp only [List.foldlM_cons, ← bind_assoc]
    exact congrArg (· >>= fun s => l.foldlM step s) (hcomm start y x)
  | trans _ _ ih ih' => rw [ih start, ih' start]

namespace Tally

variable {α : Type} [Ord α] [Std.TransOrd α]

/-- Adds an entry without a bound. -/
def addEntry (t : Tally α) (e : α × Nat) : Tally α := t.insert e.1 (t.ways e.1 + e.2)

/-- Adds entries without a bound. -/
def gather (t : Tally α) (entries : List (α × Nat)) : Tally α := entries.foldl addEntry t

theorem size_le_size_gather (t : Tally α) (entries : List (α × Nat)) :
    t.size ≤ (t.gather entries).size := by
  induction entries generalizing t with
  | nil => exact Nat.le_refl _
  | cons e rest ih => exact Nat.le_trans Std.ExtTreeMap.size_le_size_insert (ih (t.addEntry e))

theorem add_eq (t : Tally α) (x : α) (n : Nat) :
    t.add x n =
      if t.ways x + n ≤ maxCount then .ok (t.addEntry (x, n)) else .error .overflow := by
  unfold add boundedCount
  by_cases h : t.ways x + n ≤ maxCount
  · simp only [if_pos h]
    rfl
  · simp only [if_neg h]

theorem add_eq_error_of_lt {t : Tally α} {x : α} {n : Nat} (h : maxCount < t.ways x + n) :
    t.add x n = .error .overflow := by
  rw [add_eq, if_neg (Nat.not_le_of_lt h)]

/-- Adds an entry to a table that may not grow past a limit. -/
def addWithin (limit : Nat) (t : Tally α) (e : α × Nat) : Except DistributionError (Tally α) :=
  match t.add e.1 e.2 with
  | .error a => .error (.ofArithmetic a)
  | .ok t => if limit < t.size then .error (.tooManyOutcomes limit) else .ok t

/-- Every count of the tally is one that can be held, and so is the tally. -/
structure Fits (limit : Nat) (t : Tally α) : Prop where
  ways_le : ∀ x, t.ways x ≤ maxCount
  size_le : t.size ≤ limit

/-- The failures that a tally gives cause for. -/
inductive Fault (limit : Nat) (t : Tally α) : DistributionError → Prop where
  | overflow (x : α) : maxCount < t.ways x → Fault limit t .overflow
  | tooManyOutcomes : limit < t.size → Fault limit t (.tooManyOutcomes limit)

theorem fits_empty (limit : Nat) : Fits limit (∅ : Tally α) := by
  constructor
  · intro x
    simp [ways]
  · simp

theorem Fits.not_fault {limit : Nat} {t : Tally α} (h : t.Fits limit) (e : DistributionError) :
    ¬ t.Fault limit e := by
  intro hfault
  cases hfault with
  | overflow x hx => exact Nat.not_lt_of_le (h.ways_le x) hx
  | tooManyOutcomes hsize => exact Nat.not_lt_of_le h.size_le hsize

/-- What adding entries within bounds comes to: the tally without bounds if it fits, and otherwise a
failure that it gives cause for. -/
def Gathers (limit : Nat) (t : Tally α) : Except DistributionError (Tally α) → Prop
  | .ok s => s = t ∧ t.Fits limit
  | .error e => t.Fault limit e

variable [DecidableEq α] [Std.LawfulEqOrd α]

theorem getElem?_addEntry (t : Tally α) (e : α × Nat) (y : α) :
    (t.addEntry e)[y]? = if e.1 = y then some (t.ways y + e.2) else t[y]? := by
  unfold addEntry
  rw [Std.ExtTreeMap.getElem?_insert]
  by_cases h : e.1 = y
  · subst h
    simp
  · have hcmp : compare e.1 y ≠ .eq := fun heq => h (Std.LawfulEqOrd.eq_of_compare heq)
    simp [hcmp, h]

theorem ways_addEntry (t : Tally α) (e : α × Nat) (y : α) :
    (t.addEntry e).ways y = if e.1 = y then t.ways y + e.2 else t.ways y := by
  rw [ways, Std.ExtTreeMap.getD_eq_getD_getElem?, getElem?_addEntry]
  split
  · rfl
  · rw [← Std.ExtTreeMap.getD_eq_getD_getElem?]
    rfl

theorem ways_le_ways_addEntry (t : Tally α) (e : α × Nat) (y : α) :
    t.ways y ≤ (t.addEntry e).ways y := by
  rw [ways_addEntry]
  split
  · omega
  · omega

theorem ways_le_ways_gather (t : Tally α) (entries : List (α × Nat)) (y : α) :
    t.ways y ≤ (t.gather entries).ways y := by
  induction entries generalizing t with
  | nil => exact Nat.le_refl _
  | cons e rest ih => exact Nat.le_trans (t.ways_le_ways_addEntry e y) (ih (t.addEntry e))

theorem addEntry_comm (t : Tally α) (d e : α × Nat) :
    (t.addEntry d).addEntry e = (t.addEntry e).addEntry d := by
  refine Std.ExtTreeMap.ext_getElem? fun y => ?_
  simp only [getElem?_addEntry, ways_addEntry]
  by_cases hd : d.1 = y
  · by_cases he : e.1 = y
    · simp only [if_pos hd, if_pos he, Nat.add_right_comm]
    · simp only [if_pos hd, if_neg he]
  · simp only [if_neg hd]

theorem gather_perm {l r : List (α × Nat)} (h : l.Perm r) (t : Tally α) :
    t.gather l = t.gather r :=
  have : RightCommutative (addEntry (α := α)) := ⟨addEntry_comm⟩
  h.foldl_eq t

theorem add_comm (t : Tally α) (x y : α) (n m : Nat) :
    ((t.add x n).bind fun t => t.add y m) = (t.add y m).bind fun t => t.add x n := by
  have hx := t.ways_le_ways_addEntry (y, m) x
  have hy := t.ways_le_ways_addEntry (x, n) y
  by_cases hxn : t.ways x + n ≤ maxCount
  · by_cases hym : t.ways y + m ≤ maxCount
    · rw [add_eq t x n, add_eq t y m, if_pos hxn, if_pos hym]
      simp only [Except.bind, add_eq, ways_addEntry, addEntry_comm t (x, n)]
      by_cases hxy : x = y
      · subst hxy
        simp only [if_true, Nat.add_right_comm]
      · simp only [if_neg hxy, if_neg (Ne.symm hxy), if_pos hxn, if_pos hym]
    · rw [add_eq t x n, if_pos hxn, add_eq_error_of_lt (Nat.lt_of_not_le hym)]
      exact add_eq_error_of_lt (by omega)
  · rw [add_eq_error_of_lt (Nat.lt_of_not_le hxn), add_eq t y m]
    split
    · exact (add_eq_error_of_lt (by omega)).symm
    · rfl

/-- Moving entries about meets with one kind of failure only, so it comes to the same in any order. -/
theorem addMoved_comm {β : Type} {f : β → Except ArithmeticError α}
    (hf : ∀ x a, f x = .error a → a = .overflow) (t : Tally α) (d e : β × Nat) :
    ((addMoved f t d).bind fun t => addMoved f t e) =
      (addMoved f t e).bind fun t => addMoved f t d := by
  have hadd : ∀ x n, (t.add x n).bind (fun _ => (.error .overflow : Except ArithmeticError (Tally α))) =
      .error .overflow := by
    intro x n
    rw [add_eq]
    split
    · rfl
    · rfl
  unfold addMoved
  cases hd : f d.1 with
  | error a =>
    rw [hf _ _ hd]
    cases he : f e.1 with
    | error b =>
      rw [hf _ _ he]
    | ok y => exact (hadd y e.2).symm
  | ok x =>
    cases he : f e.1 with
    | error b =>
      rw [hf _ _ he]
      exact hadd x d.2
    | ok y => exact t.add_comm x y d.2 e.2

/-- A fault stays when more is added. -/
theorem Fault.gather {limit : Nat} {t : Tally α} {e : DistributionError} (h : t.Fault limit e)
    (entries : List (α × Nat)) : (t.gather entries).Fault limit e := by
  cases h with
  | overflow x hx => exact .overflow x (Nat.lt_of_lt_of_le hx (t.ways_le_ways_gather entries x))
  | tooManyOutcomes hsize =>
    exact .tooManyOutcomes (Nat.lt_of_lt_of_le hsize (t.size_le_size_gather entries))

theorem addWithin_gathers {limit : Nat} {t : Tally α} (ht : t.Fits limit) (e : α × Nat) :
    (t.addEntry e).Gathers limit (addWithin limit t e) := by
  have hways := t.ways_addEntry e e.1
  rw [if_pos rfl] at hways
  unfold addWithin
  rw [add_eq]
  by_cases hle : t.ways e.1 + e.2 ≤ maxCount
  · rw [if_pos hle]
    by_cases hsize : limit < (t.addEntry e).size
    · simp only [if_pos hsize]
      exact .tooManyOutcomes hsize
    · simp only [if_neg hsize]
      refine ⟨rfl, fun x => ?_, Nat.le_of_not_lt hsize⟩
      rw [ways_addEntry]
      split
      · next h =>
        rw [← h]
        exact hle
      · exact ht.ways_le x
  · rw [if_neg hle]
    exact .overflow e.1 (by omega)

theorem foldlM_addWithin_gathers {limit : Nat} {t : Tally α} (ht : t.Fits limit)
    (entries : List (α × Nat)) :
    (t.gather entries).Gathers limit (entries.foldlM (addWithin limit) t) := by
  induction entries generalizing t with
  | nil => exact ⟨rfl, ht⟩
  | cons e rest ih =>
    have hstep := addWithin_gathers ht e
    rw [List.foldlM_cons]
    cases hs : addWithin limit t e with
    | error error =>
      rw [hs] at hstep
      exact Fault.gather hstep rest
    | ok s =>
      rw [hs] at hstep
      obtain ⟨rfl, hfits⟩ := hstep
      exact ih hfits

end Tally

end DiceNotation
