/-!
# Courses

A step function that may have no next step says how something goes on until it has a result. A course is a
finite run of such steps, and it has one result.
-/

namespace DiceNotation

variable {σ α : Type} {step : σ → Option (σ ⊕ α)}

/-- What goes on step by step passes through the listed states, and then has its result. -/
inductive Course (step : σ → Option (σ ⊕ α)) : σ → List σ → α → Prop
  | stop {s : σ} {result : α} (hstep : step s = some (.inr result)) : Course step s [s] result
  | next {s s' : σ} {states : List σ} {result : α} (hstep : step s = some (.inl s'))
    (hrest : Course step s' states result) : Course step s (s :: states) result

/-- A course leads from the state to the result. -/
def Course.Ends (step : σ → Option (σ ⊕ α)) (s : σ) (result : α) : Prop :=
  ∃ states, Course step s states result

theorem Course.Ends.stop {s : σ} {result : α} (hstep : step s = some (.inr result)) :
    Course.Ends step s result := ⟨[s], .stop hstep⟩

theorem Course.Ends.next {s s' : σ} {result : α} (hstep : step s = some (.inl s'))
    (hrest : Course.Ends step s' result) : Course.Ends step s result := by
  obtain ⟨states, hcourse⟩ := hrest
  exact ⟨s :: states, .next hstep hcourse⟩

/-- What goes on step by step has one result. -/
theorem Course.Ends.unique {s : σ} {result result' : α} (h : Course.Ends step s result)
    (h' : Course.Ends step s result') : result = result' := by
  obtain ⟨states, hcourse⟩ := h
  obtain ⟨states', hcourse'⟩ := h'
  induction hcourse generalizing states' with
  | stop hstep =>
    cases hcourse' with
    | stop hstep' =>
      rw [hstep] at hstep'
      cases hstep'
      rfl
    | next hstep' => cases hstep.symm.trans hstep'
  | next hstep _ ih =>
    cases hcourse' with
    | stop hstep' => cases hstep.symm.trans hstep'
    | next hstep' hrest' =>
      rw [hstep] at hstep'
      cases hstep'
      exact ih _ hrest'

/-- What no step makes smaller is nowhere larger than in the result. -/
theorem Course.size_le (size : σ → Nat) (last : α → Nat)
    (hnext : ∀ s s', step s = some (.inl s') → size s ≤ size s')
    (hlast : ∀ s result, step s = some (.inr result) → size s ≤ last result) {s : σ}
    {states : List σ} {result : α} (h : Course step s states result) :
    ∀ state ∈ states, size state ≤ last result := by
  suffices hall : size s ≤ last result ∧ ∀ state ∈ states, size state ≤ last result from hall.2
  induction h with
  | @stop s result hstep =>
    have hs := hlast s result hstep
    exact ⟨hs, fun state hstate => List.mem_singleton.1 hstate ▸ hs⟩
  | @next s s' _ _ hstep _ ih =>
    have hs := Nat.le_trans (hnext s s' hstep) ih.1
    exact ⟨hs, List.forall_mem_cons.2 ⟨hs, ih.2⟩⟩

end DiceNotation
