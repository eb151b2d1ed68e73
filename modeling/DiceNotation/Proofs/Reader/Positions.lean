import DiceNotation.Expr.Parser

/-!
# Errors stand at tokens

The reader reports the token at hand or, for a bad count, the number that it has kept. Both are tokens
of the list, so the position of an error is the place where one of them starts.
-/

namespace DiceNotation.Expr
open Reading

variable {tokens : List Token}

namespace Reading

/-- Only these tokens are reported, here and by what the reading goes on to. -/
def ReportsOf (tokens : List Token) : Except ParseError Reading → Prop
  | .ok (.unfinished _ (.number _ written)) => written ∈ tokens
  | .ok _ => True
  | .error e => ∃ t ∈ tokens, e.position = t.start

variable {stack : List Frame} {token : Token}

theorem afterFactor_reportsOf (ht : token ∈ tokens) (f : Expr) :
    ReportsOf tokens (afterFactor stack f token) := by
  unfold afterFactor
  split
  · trivial
  · split
    · trivial
    · exact ⟨token, ht, rfl⟩
  · split
    · trivial
    · exact ⟨token, ht, rfl⟩
  · split <;> exact ⟨token, ht, rfl⟩

theorem afterGroup_reportsOf (ht : token ∈ tokens) (g : DiceGroup) :
    ReportsOf tokens (afterGroup stack g token) := by
  unfold afterGroup
  split
  · trivial
  · exact afterFactor_reportsOf ht _

theorem afterKeyword_reportsOf (ht : token ∈ tokens) (g : DiceGroup) (word : Keyword) :
    ReportsOf tokens (afterKeyword stack g word token) := by
  cases word with
  | keep | select action rank =>
    simp only [afterKeyword, afterSelection]
    split
    · trivial
    · exact afterGroup_reportsOf ht _
  | minimum | maximum =>
    simp only [afterKeyword, afterClamp]
    split
    · trivial
    · exact ⟨token, ht, rfl⟩
  | trigger t =>
    simp only [afterKeyword, afterTrigger]
    split
    · trivial
    · trivial
    · exact afterGroup_reportsOf ht _

/-- Taking in a token of the list, the reader reports only tokens of the list. -/
theorem step_reportsOf {before : Reading} (hbefore : ReportsOf tokens (.ok before))
    (ht : token ∈ tokens) : ReportsOf tokens (step before token) := by
  cases before with
  | finished e => trivial
  | unfinished stack phase =>
    rw [step]
    cases phase with
    | start =>
      simp only [afterPhase, atStart]
      split
      · trivial
      · exact ht
      · trivial
      · trivial
      · exact ⟨token, ht, rfl⟩
    | number n written =>
      simp only [afterPhase, afterNumber]
      split
      · split
        · trivial
        · exact ⟨written, hbefore, rfl⟩
      · exact ⟨token, ht, rfl⟩
      · exact afterFactor_reportsOf ht _
    | diceSign count =>
      simp only [afterPhase, afterDiceSign]
      split
      · split
        · trivial
        · exact ⟨token, ht, rfl⟩
      · trivial
      · exact afterGroup_reportsOf ht _
    | group g => exact afterGroup_reportsOf ht g
    | keyword g word => exact afterKeyword_reportsOf ht g word
    | comparison g t c =>
      simp only [afterPhase, afterComparison]
      split
      · trivial
      · exact ⟨token, ht, rfl⟩
    | closed inner =>
      simp only [afterPhase, afterClosed]
      split
      · exact ⟨token, ht, rfl⟩
      · exact afterFactor_reportsOf ht _

/-- So does a whole run over such tokens. -/
theorem foldlM_reportsOf {before : Reading} (hbefore : ReportsOf tokens (.ok before))
    {run : List Token} (hrun : ∀ t ∈ run, t ∈ tokens) :
    ReportsOf tokens (run.foldlM step before) := by
  induction run generalizing before with
  | nil => exact hbefore
  | cons token run ih =>
    rw [List.forall_mem_cons] at hrun
    have hstep := step_reportsOf hbefore hrun.1
    rw [List.foldlM_cons]
    cases h : step before token with
    | error e =>
      rw [h] at hstep
      exact hstep
    | ok after =>
      rw [h] at hstep
      exact ih hstep hrun.2

end Reading

/-- The position of an error is the start of one of the tokens. -/
theorem exists_token_of_ofTokens_eq_error {e : ParseError} (htokens : tokens ≠ [])
    (h : ofTokens tokens = .error e) : ∃ t ∈ tokens, e.position = t.start := by
  unfold ofTokens at h
  split at h
  · next hnone => exact absurd (List.getLast?_eq_none_iff.1 hnone) htokens
  · next last hlast =>
    have hmem := List.mem_of_getLast? hlast
    have hinitial : ReportsOf tokens (.ok .initial) := trivial
    have hrun : ReportsOf tokens
        ((tokens ++ List.replicate (tokens.length + 1) last).foldlM step .initial) := by
      refine foldlM_reportsOf hinitial fun t ht => ?_
      rcases List.mem_append.1 ht with ht | ht
      · exact ht
      · rwa [List.eq_of_mem_replicate ht]
    cases hr : (tokens ++ List.replicate (tokens.length + 1) last).foldlM step .initial with
    | error e' =>
      rw [hr] at h hrun
      cases h
      exact hrun
    | ok r =>
      rw [hr] at h
      cases r with
      | finished f => cases h
      | unfinished stack phase =>
        cases h
        exact ⟨last, hmem, rfl⟩

end DiceNotation.Expr
