import DiceNotation.Distribution
import DiceNotation.Proofs.Distribution.Counting

/-!
# Computed tallies

The tallies of this library are computed by folds that add one entry after another and may fail
halfway. `Tally.Follows` says what such a computation has to do with a function that may fail on its
own inputs: it counts the values of the function, and it fails only where the function does.
-/

namespace DiceNotation

/-- The values that `f` has on a list of inputs. -/
def valuesOn {γ β : Type} (f : γ → Except ArithmeticError β) (inputs : List γ) : List β :=
  inputs.filterMap fun x => (f x).toOption

theorem mem_valuesOn {γ β : Type} {f : γ → Except ArithmeticError β} {inputs : List γ} {y : β} :
    y ∈ valuesOn f inputs ↔ ∃ x ∈ inputs, f x = .ok y := by
  simp only [valuesOn, List.mem_filterMap]
  constructor
  · rintro ⟨x, hx, hy⟩
    refine ⟨x, hx, ?_⟩
    cases hf : f x with
    | error e => simp [hf, Except.toOption] at hy
    | ok z =>
      simp only [hf, Except.toOption, Option.some.injEq] at hy
      rw [hy]
  · rintro ⟨x, hx, hy⟩
    exact ⟨x, hx, by rw [hy]; rfl⟩

theorem valuesOn_ok {γ β : Type} (u : γ → β) (inputs : List γ) :
    valuesOn (fun x => .ok (u x)) inputs = inputs.map u := by
  simp [valuesOn, Except.toOption, List.filterMap_eq_map']

theorem valuesOn_eq_map {γ β : Type} {f : γ → Except ArithmeticError β} {u : γ → β}
    {inputs : List γ} (h : ∀ x ∈ inputs, f x = .ok (u x)) : valuesOn f inputs = inputs.map u := by
  rw [← valuesOn_ok]
  exact List.filterMap_congr fun x hx => by rw [h x hx]

theorem valuesOn_bind {γ β δ : Type} (f : γ → Except ArithmeticError β)
    (g : β → Except ArithmeticError δ) (inputs : List γ) :
    valuesOn (fun x => (f x).bind g) inputs = valuesOn g (valuesOn f inputs) := by
  simp only [valuesOn, List.filterMap_filterMap]
  refine List.filterMap_congr fun x _ => ?_
  cases f x with
  | error e => rfl
  | ok y => rfl

theorem valuesOn_replicate {γ β : Type} {f : γ → Except ArithmeticError β} {x : γ} {y : β}
    (h : f x = .ok y) (n : Nat) : valuesOn f (List.replicate n x) = List.replicate n y := by
  induction n with
  | zero => rfl
  | succ n ih => simp_all [valuesOn, List.replicate_succ, Except.toOption]

namespace Tally

variable {β γ δ ι ε : Type} [DecidableEq β] [Ord β] [Std.TransOrd β]

/-- If there is a tally, `f` has a value on every input and the tally counts these values. If there is
none although the inputs fit the limit, `f` fails on one of them for the same reason. -/
def Follows (toError : ArithmeticError → ε) (limit : Nat) (f : γ → Except ArithmeticError β)
    (inputs : List γ) : Except ε (Tally β) → Prop
  | .ok t => (∀ x ∈ inputs, ∃ y, f x = .ok y) ∧ t.Counts (valuesOn f inputs)
  | .error e =>
    inputs.length ≤ limit → limit ≤ maxCount → ∃ x ∈ inputs, ∃ a, f x = .error a ∧ e = toError a

namespace Follows

variable {toError : ArithmeticError → ε} {limit : Nat} {f g : γ → Except ArithmeticError β}
  {inputs : List γ} {r : Except ε (Tally β)}

theorem congr (h : Follows toError limit f inputs r) (heq : ∀ x ∈ inputs, f x = g x) :
    Follows toError limit g inputs r := by
  cases r with
  | ok t =>
    obtain ⟨hok, hcounts⟩ := h
    have hvalues : valuesOn g inputs = valuesOn f inputs :=
      List.filterMap_congr fun x hx => by rw [heq x hx]
    refine ⟨fun x hx => ?_, hvalues ▸ hcounts⟩
    rw [← heq x hx]
    exact hok x hx
  | error e =>
    intro hfit hlimit
    obtain ⟨x, hx, a, hf, he⟩ := h hfit hlimit
    exact ⟨x, hx, a, heq x hx ▸ hf, he⟩

theorem perm {inputs' : List γ} (h : Follows toError limit f inputs r)
    (hperm : inputs.Perm inputs') : Follows toError limit f inputs' r := by
  cases r with
  | ok t =>
    obtain ⟨hok, hcounts⟩ := h
    exact ⟨fun x hx => hok x (hperm.mem_iff.2 hx), hcounts.perm (hperm.filterMap _)⟩
  | error e =>
    intro hfit hlimit
    rw [← hperm.length_eq] at hfit
    obtain ⟨x, hx, hf⟩ := h hfit hlimit
    exact ⟨x, hperm.mem_iff.1 hx, hf⟩

theorem map_iff {u : δ → γ} {inputs : List δ} :
    Follows toError limit f (inputs.map u) r ↔
      Follows toError limit (fun x => f (u x)) inputs r := by
  cases r with
  | ok t => simp [Follows, valuesOn, List.filterMap_map]
  | error e => simp [Follows]

/-- A failure is passed on to another list of inputs that is no shorter and on which a function fails
where `f` did. -/
theorem error_mono {e : ε} {g : δ → Except ArithmeticError β} {inputs' : List δ}
    (h : Follows toError limit f inputs (.error e)) (hlength : inputs.length ≤ inputs'.length)
    (hfail : ∀ x ∈ inputs, ∀ a, f x = .error a → ∃ y ∈ inputs', g y = .error a) :
    Follows toError limit g inputs' (.error e) := by
  intro hfit hlimit
  obtain ⟨x, hx, a, hf, he⟩ := h (Nat.le_trans hlength hfit) hlimit
  obtain ⟨y, hy, hg⟩ := hfail x hx a hf
  exact ⟨y, hy, a, hg, he⟩

theorem mapError {r : Except ArithmeticError (Tally β)} (h : Follows id limit f inputs r) :
    Follows toError limit f inputs (r.mapError toError) := by
  cases r with
  | ok t => exact h
  | error e =>
    intro hfit hlimit
    obtain ⟨x, hx, a, hf, he⟩ := h hfit hlimit
    exact ⟨x, hx, a, hf, congrArg toError he⟩

/-- A computation that goes on from a tally goes on from the values it counts. -/
theorem bind {α : Type} [DecidableEq α] [Ord α] [Std.TransOrd α] {k : Tally β → Except ε (Tally α)}
    {g : β → Except ArithmeticError α} (h : Follows toError limit f inputs r)
    (hnext : ∀ t, r = .ok t → t.Counts (valuesOn f inputs) →
      Follows toError limit g (valuesOn f inputs) (k t)) :
    Follows toError limit (fun x => (f x).bind g) inputs (r.bind k) := by
  cases r with
  | error e =>
    intro hfit hlimit
    obtain ⟨x, hx, a, hf, he⟩ := h hfit hlimit
    exact ⟨x, hx, a, by simp only [hf]; rfl, he⟩
  | ok t =>
    obtain ⟨hok, hcounts⟩ := h
    have hk := hnext t rfl hcounts
    change Follows toError limit (fun x => (f x).bind g) inputs (k t)
    cases hs : k t with
    | ok s =>
      rw [hs] at hk
      obtain ⟨hgok, hgcounts⟩ := hk
      refine ⟨fun x hx => ?_, by rwa [valuesOn_bind]⟩
      obtain ⟨y, hy⟩ := hok x hx
      obtain ⟨z, hz⟩ := hgok y (mem_valuesOn.2 ⟨x, hx, hy⟩)
      exact ⟨z, by simp only [hy]; exact hz⟩
    | error e =>
      rw [hs] at hk
      intro hfit hlimit
      have hlength : (valuesOn f inputs).length ≤ inputs.length := List.length_filterMap_le _ _
      obtain ⟨y, hy, a, hg, he⟩ := hk (Nat.le_trans hlength hfit) hlimit
      obtain ⟨x, hx, hf⟩ := mem_valuesOn.1 hy
      exact ⟨x, hx, a, by simp only [hf]; exact hg, he⟩

end Follows

/-- A step adds the value of `f` by the weight of its index. It fails only with `f`, as long as the
samples fit the limit. -/
structure AddsBy (toError : ArithmeticError → ε) (limit : Nat) (f : ι → Except ArithmeticError β)
    (weight : ι → Nat) (step : Tally β → ι → Except ε (Tally β)) : Prop where
  ok : ∀ {t s i}, step t i = .ok s → ∃ y, f i = .ok y ∧ t.add y (weight i) = .ok s
  error : ∀ {t samples i e}, t.Counts samples → 0 < weight i →
    samples.length + weight i ≤ limit → limit ≤ maxCount → step t i = .error e →
    ∃ a, f i = .error a ∧ e = toError a

section Folds

variable [Std.LawfulEqOrd β] {toError : ArithmeticError → ε} {limit : Nat}
  {f : ι → Except ArithmeticError β} {weight : ι → Nat} {step : Tally β → ι → Except ε (Tally β)}

/-- The invariant of such a fold: its tally counts the values on the indices gone through. -/
theorem AddsBy.follows_foldlM_from (h : AddsBy toError limit f weight step) (done indices : List ι)
    (hpos : ∀ i ∈ indices, 0 < weight i) {t : Tally β} (hok : ∀ i ∈ done, ∃ y, f i = .ok y)
    (ht : t.Counts (valuesOn f (repeated weight done))) :
    Follows toError limit f (repeated weight (done ++ indices)) (indices.foldlM step t) := by
  induction indices generalizing done t with
  | nil =>
    rw [List.append_nil]
    refine ⟨fun x hx => ?_, ht⟩
    obtain ⟨i, hi, hx⟩ := List.mem_flatMap.1 hx
    rw [List.eq_of_mem_replicate hx]
    exact hok i hi
  | cons i rest ih =>
    rw [List.foldlM_cons]
    cases hs : step t i with
    | error e =>
      intro hfit hlimit
      have hlength : (valuesOn f (repeated weight done)).length ≤ (repeated weight done).length :=
        List.length_filterMap_le _ _
      have hall : (repeated weight (done ++ i :: rest)).length =
          (repeated weight done).length + weight i + (repeated weight rest).length := by
        simp [repeated, Nat.add_assoc]
      obtain ⟨a, hf, he⟩ := h.error ht (hpos i (by simp)) (by omega) hlimit hs
      refine ⟨i, ?_, a, hf, he⟩
      have hi : i ∈ List.replicate (weight i) i :=
        List.mem_replicate.2 ⟨Nat.ne_of_gt (hpos i (by simp)), rfl⟩
      exact List.mem_flatMap.2 ⟨i, by simp, hi⟩
    | ok s =>
      obtain ⟨y, hf, hadd⟩ := h.ok hs
      have hcounts := ht.add (hpos i (by simp)) hadd
      have hvalues : valuesOn f (repeated weight (done ++ [i])) =
          valuesOn f (repeated weight done) ++ List.replicate (weight i) y := by
        rw [repeated_append, repeated_singleton, ← valuesOn_replicate hf, valuesOn,
          List.filterMap_append]
        rfl
      have hdone : ∀ j ∈ done ++ [i], ∃ y, f j = .ok y := by
        intro j hj
        rcases List.mem_append.1 hj with hj | hj
        · exact hok j hj
        · rw [List.mem_singleton.1 hj]
          exact ⟨y, hf⟩
      have := ih (done ++ [i]) (fun j hj => hpos j (by simp [hj])) hdone (hvalues ▸ hcounts)
      rw [List.append_assoc] at this
      exact this

/-- A fold of such steps from the empty tally counts every value by its weight. -/
theorem AddsBy.follows_foldlM (h : AddsBy toError limit f weight step) (indices : List ι)
    (hpos : ∀ i ∈ indices, 0 < weight i) :
    Follows toError limit f (repeated weight indices) (indices.foldlM step ∅) :=
  h.follows_foldlM_from [] indices hpos (by simp) Counts.empty

end Folds

theorem addMoved_addsBy {α : Type} (limit : Nat) (g : α → Except ArithmeticError β) :
    AddsBy id limit (fun e : α × Nat => g e.1) Prod.snd (addMoved g) where
  ok := by
    intro t s e hstep
    unfold addMoved at hstep
    split at hstep
    · next y hg => exact ⟨y, hg, hstep⟩
    · cases hstep
  error := by
    intro t samples e error ht _ hfit hlimit hstep
    unfold addMoved at hstep
    split at hstep
    · exact absurd hstep (ht.add_ne_error (by omega) error)
    · next a hg =>
      cases hstep
      exact ⟨_, hg, rfl⟩

section Moving

variable {α : Type} [DecidableEq α] [Ord α] [Std.TransOrd α] [Std.LawfulEqOrd α]
  [Std.LawfulEqOrd β]

theorem follows_mapM (limit : Nat) (g : α → Except ArithmeticError β) {t : Tally α}
    {samples : List α} (h : t.Counts samples) : Follows id limit g samples (mapM g t) := by
  have hentries := (addMoved_addsBy limit g).follows_foldlM t.toList fun e he => h.pos he
  have hkeys := Follows.map_iff.2 hentries
  exact hkeys.perm h.repeated_perm

/-- Moving outcomes about cannot fail by itself. -/
theorem mapM_ok (u : α → β) {t : Tally α} {samples : List α} (h : t.Counts samples)
    (hlength : samples.length ≤ maxCount) :
    ∃ moved, mapM (fun x => .ok (u x)) t = .ok moved ∧ moved.Counts (samples.map u) := by
  have hmoved := follows_mapM maxCount (fun x => .ok (u x)) h
  cases hm : mapM (fun x => .ok (u x)) t with
  | ok moved =>
    rw [hm] at hmoved
    obtain ⟨-, hcounts⟩ := hmoved
    rw [valuesOn_ok] at hcounts
    exact ⟨moved, rfl, hcounts⟩
  | error e =>
    rw [hm] at hmoved
    obtain ⟨x, -, a, hx, -⟩ := hmoved hlength (Nat.le_refl _)
    cases hx

end Moving

end Tally

end DiceNotation
