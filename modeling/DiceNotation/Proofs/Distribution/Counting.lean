import Mathlib.Data.List.Basic
import Mathlib.Data.List.Count
import Mathlib.Data.List.Perm.Basic
import Mathlib.Data.List.ProdSigma
import DiceNotation.Tally

/-!
# What a tally counts

A tally stands for a list of samples whose order is forgotten. The entries of a tally, written out by
their counts, give the samples back.
-/

namespace DiceNotation.Tally

variable {α ι : Type} [DecidableEq α]

/-- The tally has an entry for every sample, with the number of times it occurs. -/
def Counts [Ord α] [Std.TransOrd α] (t : Tally α) (samples : List α) : Prop :=
  ∀ x, t[x]? = if x ∈ samples then some (samples.count x) else none

/-- Every member of the list as many times as its weight says. -/
def repeated (weight : ι → Nat) (l : List ι) : List ι := l.flatMap fun i => List.replicate (weight i) i

section Repeated

variable {weight : ι → Nat}

theorem repeated_append (l r : List ι) :
    repeated weight (l ++ r) = repeated weight l ++ repeated weight r := List.flatMap_append

theorem repeated_singleton (i : ι) : repeated weight [i] = List.replicate (weight i) i := by
  simp [repeated]

theorem length_le_length_repeated {l : List ι} (hpos : ∀ i ∈ l, 0 < weight i) :
    l.length ≤ (repeated weight l).length := by
  induction l with
  | nil => simp
  | cons i l ih =>
    have hhead := hpos i (by simp)
    have htail := ih fun j hj => hpos j (by simp [hj])
    simp only [repeated, List.flatMap_cons, List.length_append, List.length_replicate,
      List.length_cons] at *
    omega

theorem replicate_product_replicate {κ : Type} (n m : Nat) (i : ι) (k : κ) :
    List.replicate n i ×ˢ List.replicate m k = List.replicate (n * m) (i, k) := by
  induction n with
  | zero => simp
  | succ n ih =>
    rw [List.replicate_succ, List.product_cons, ih, List.map_replicate, List.replicate_append_replicate,
      Nat.succ_mul, Nat.add_comm]

theorem product_append_perm {κ : Type} (l : List ι) (r₁ r₂ : List κ) :
    (l ×ˢ (r₁ ++ r₂)).Perm (l ×ˢ r₁ ++ l ×ˢ r₂) := by
  have h := List.flatMap_append_perm l (fun i => r₁.map (Prod.mk i)) (fun i => r₂.map (Prod.mk i))
  simp only [← List.map_append] at h
  exact h.symm

theorem repeated_pair_perm {κ : Type} {weight' : κ → Nat} (i : ι) (r : List κ) :
    (repeated (fun p : ι × κ => weight p.1 * weight' p.2) (r.map (Prod.mk i))).Perm
      (List.replicate (weight i) i ×ˢ repeated weight' r) := by
  induction r with
  | nil => simp [repeated]
  | cons k r ih =>
    have hsplit := product_append_perm (List.replicate (weight i) i)
      (List.replicate (weight' k) k) (repeated weight' r)
    rw [replicate_product_replicate] at hsplit
    exact (ih.append_left _).trans hsplit.symm

/-- Repeating the pairs by the product of the weights pairs up the repeated members. -/
theorem repeated_product_perm {κ : Type} (weight : ι → Nat) (weight' : κ → Nat) (l : List ι)
    (r : List κ) :
    (repeated (fun p : ι × κ => weight p.1 * weight' p.2) (l ×ˢ r)).Perm
      (repeated weight l ×ˢ repeated weight' r) := by
  induction l with
  | nil => simp [repeated]
  | cons i l ih =>
    rw [List.product_cons, repeated_append]
    have hrows : repeated weight (i :: l) ×ˢ repeated weight' r =
        List.replicate (weight i) i ×ˢ repeated weight' r ++
          repeated weight l ×ˢ repeated weight' r := by
      simp [repeated, List.flatMap_cons, SProd.sprod, List.product]
    rw [hrows]
    exact (repeated_pair_perm i r).append ih

end Repeated

theorem nodup_keys [Ord ι] [Std.TransOrd ι] (t : Tally ι) : t.keys.Nodup :=
  t.distinct_keys.imp fun hne heq => hne (by rw [heq]; exact Std.ReflOrd.compare_self)

section Entries

variable {entries : List (α × Nat)} {x : α}

theorem count_repeated_of_not_mem (h : ∀ n, (x, n) ∉ entries) :
    ((repeated Prod.snd entries).map Prod.fst).count x = 0 := by
  refine List.count_eq_zero_of_not_mem fun hx => ?_
  obtain ⟨e, he, rfl⟩ := List.mem_map.1 hx
  obtain ⟨e', he', hmem⟩ := List.mem_flatMap.1 he
  have := List.eq_of_mem_replicate hmem
  subst this
  exact h e.2 he'

theorem count_repeated {n : Nat} (hdistinct : entries.Pairwise fun d e => d.1 ≠ e.1)
    (h : (x, n) ∈ entries) : ((repeated Prod.snd entries).map Prod.fst).count x = n := by
  induction entries with
  | nil => simp at h
  | cons e entries ih =>
    obtain ⟨hhead, htail⟩ := List.pairwise_cons.1 hdistinct
    have hsplit : ((repeated Prod.snd (e :: entries)).map Prod.fst).count x =
        (List.replicate e.2 e.1).count x + ((repeated Prod.snd entries).map Prod.fst).count x := by
      simp [repeated, List.flatMap_cons]
    rw [hsplit]
    rcases List.mem_cons.1 h with rfl | h
    · have habsent := count_repeated_of_not_mem
        fun m (hm : (x, m) ∈ entries) => hhead _ hm rfl
      simp [habsent]
    · have hne : e.1 ≠ x := hhead _ h
      simp [ih htail h, List.count_replicate, hne]

end Entries

namespace Counts

variable [Ord α] [Std.TransOrd α] {t s : Tally α} {l l' : List α}

theorem empty : Counts (∅ : Tally α) [] := by
  intro x
  simp

theorem perm (h : t.Counts l) (hperm : l.Perm l') : t.Counts l' := by
  intro x
  rw [h x, hperm.count_eq x]
  simp only [hperm.mem_iff]

theorem ways_eq (h : t.Counts l) (x : α) : t.ways x = l.count x := by
  rw [ways, Std.ExtTreeMap.getD_eq_getD_getElem?, h x]
  split
  · rfl
  · next hx => simpa using (List.count_eq_zero_of_not_mem hx).symm

theorem mem_iff (h : t.Counts l) (x : α) : x ∈ t ↔ x ∈ l := by
  rw [Std.ExtTreeMap.mem_iff_isSome_getElem?, h x]
  split
  · next hx => simp [hx]
  · next hx => simp [hx]

theorem getElem?_ne_zero (h : t.Counts l) (x : α) : t[x]? ≠ some 0 := by
  rw [h x]
  split
  · next hx =>
    have := List.count_pos_iff.2 hx
    simp only [ne_eq, Option.some.injEq]
    omega
  · simp

/-- Adding fails only when more samples than `maxCount` come together. -/
theorem add_ne_error {x : α} {n : Nat} (h : t.Counts l) (hle : l.length + n ≤ maxCount)
    (e : ArithmeticError) : t.add x n ≠ .error e := by
  intro hadd
  have hcount := List.count_le_length (a := x) (l := l)
  have hok := (add_eq_ok_iff (t := t) (x := x) (n := n)).2 ⟨by rw [h.ways_eq]; omega, rfl⟩
  rw [hok] at hadd
  cases hadd

variable [Std.LawfulEqOrd α]

theorem singleton (x : α) : Counts ((∅ : Tally α).insert x 1) [x] := by
  intro y
  rw [Std.ExtTreeMap.getElem?_insert]
  by_cases h : x = y
  · subst h
    simp
  · have hcmp : compare x y ≠ .eq := fun heq => h (Std.LawfulEqOrd.eq_of_compare heq)
    simp [hcmp, Ne.symm h]

theorem pos (h : t.Counts l) {e : α × Nat} (he : e ∈ t.toList) : 0 < e.2 := by
  have hget := Std.ExtTreeMap.mem_toList_iff_getElem?_eq_some.1 he
  have hne := h.getElem?_ne_zero e.1
  rw [hget] at hne
  simp only [ne_eq, Option.some.injEq] at hne
  omega

/-- Weight put on an outcome counts as so many more samples of it. -/
theorem insert {n : Nat} (h : t.Counts l) (hn : 0 < n) (x : α) :
    Counts (Std.ExtTreeMap.insert t x (t.ways x + n)) (l ++ List.replicate n x) := by
  intro y
  rw [Std.ExtTreeMap.getElem?_insert, h.ways_eq, h y]
  by_cases hxy : x = y
  · subst hxy
    simp [List.mem_replicate, Nat.pos_iff_ne_zero.1 hn]
  · have hcmp : compare x y ≠ .eq := fun heq => hxy (Std.LawfulEqOrd.eq_of_compare heq)
    simp [hcmp, List.mem_replicate, List.count_replicate, hxy, Ne.symm hxy]

theorem add {x : α} {n : Nat} (h : t.Counts l) (hn : 0 < n) (hadd : t.add x n = .ok s) :
    s.Counts (l ++ List.replicate n x) := by
  obtain ⟨-, rfl⟩ := add_eq_ok_iff.1 hadd
  exact h.insert hn x

/-- The entries of a tally, written out by their counts, are the samples again. -/
theorem repeated_perm (h : t.Counts l) : ((repeated Prod.snd t.toList).map Prod.fst).Perm l := by
  refine List.perm_iff_count.2 fun x => ?_
  have hdistinct : t.toList.Pairwise fun d e => d.1 ≠ e.1 := by
    have hnodup := t.nodup_keys
    rw [← Std.ExtTreeMap.map_fst_toList_eq_keys] at hnodup
    exact List.pairwise_map.1 hnodup
  by_cases hx : x ∈ l
  · have hmem : (x, l.count x) ∈ t.toList := by
      rw [Std.ExtTreeMap.mem_toList_iff_getElem?_eq_some, h x, if_pos hx]
    exact count_repeated hdistinct hmem
  · rw [List.count_eq_zero_of_not_mem hx]
    refine count_repeated_of_not_mem fun n hn => ?_
    rw [Std.ExtTreeMap.mem_toList_iff_getElem?_eq_some, h x, if_neg hx] at hn
    cases hn

theorem length_repeated (h : t.Counts l) : (repeated Prod.snd t.toList).length = l.length := by
  have := h.repeated_perm.length_eq
  rwa [List.length_map] at this

theorem size_le (h : t.Counts l) : t.size ≤ l.length := by
  rw [← Std.ExtTreeMap.length_toList, ← h.length_repeated]
  exact length_le_length_repeated fun e he => h.pos he

/-- The number of ways altogether is the number of samples. -/
theorem total_eq (h : t.Counts l) : t.total = l.length := by
  rw [total, Std.ExtTreeMap.foldl_eq_foldl_toList, ← h.length_repeated, repeated,
    List.length_flatMap]
  simp only [List.length_replicate]
  rw [List.sum_eq_foldl, List.foldl_map]

end Counts

end DiceNotation.Tally
