import DiceNotation.Expr.Parser

/-!
# Reading elsewhere

Where a token stands is nothing to the reader: it only goes into the errors. Two lists of tokens that agree
in their kinds are read alike, and what is wrong with the one is wrong with the other at the same token. The
reader is followed on both lists at once, for which they are given as one list of pairs.
-/

namespace DiceNotation.Expr
open Reading

namespace Reading

/-- The same reading of tokens that are paired off; a number that has been kept, and the token of an error,
are replaced by their partners. -/
def Alike (pairs : List (Token × Token)) :
    Except ParseError Reading → Except ParseError Reading → Prop
  | .ok (.unfinished stack (.number n t)), r =>
    ∃ t', (t, t') ∈ pairs ∧ r = .ok (.unfinished stack (.number n t'))
  | .ok before, r => r = .ok before
  | .error e, r =>
    ∃ t t' kind, (t, t') ∈ pairs ∧ e = .atToken t kind ∧ r = .error (.atToken t' kind)

variable {pairs : List (Token × Token)} {t t' : Token}

theorem alike_atToken (ht : (t, t') ∈ pairs) (kind : ParseErrorKind) :
    Alike pairs (.error (.atToken t kind)) (.error (.atToken t' kind)) :=
  ⟨t, t', kind, ht, rfl, rfl⟩

theorem afterFactor_alike (stack : List Frame) (ht : (t, t') ∈ pairs) (hkind : t'.kind = t.kind) (f : Expr) :
    Alike pairs (afterFactor stack f t) (afterFactor stack f t') := by
  simp only [afterFactor, hkind]
  cases t.kind with
  | operator op => rfl
  | closeParen | endOfInput =>
    dsimp only
    generalize reduce 0 f stack = reduced
    split
    · rfl
    · exact alike_atToken ht _
  | number | dice | percent | openParen | keyword | comparison =>
    dsimp only
    split
    · exact alike_atToken ht _
    · exact alike_atToken ht _

theorem afterGroup_alike (stack : List Frame) (ht : (t, t') ∈ pairs) (hkind : t'.kind = t.kind)
    (g : DiceGroup) :
    Alike pairs (afterGroup stack g t) (afterGroup stack g t') := by
  have hfactor := afterFactor_alike stack ht hkind (.dice g)
  simp only [afterGroup, hkind]
  cases t.kind with
  | keyword word => rfl
  | _ => exact hfactor

theorem afterKeyword_alike (stack : List Frame) (ht : (t, t') ∈ pairs) (hkind : t'.kind = t.kind)
    (g : DiceGroup) (word : Keyword) : Alike pairs (afterKeyword stack g word t) (afterKeyword stack g word t') := by
  have hgroup (m : Modifier) := afterGroup_alike stack ht hkind (g.addModifier m)
  cases word with
  | keep | select action rank =>
    simp only [afterKeyword, afterSelection, hkind]
    cases t.kind with
    | number n => rfl
    | _ => exact hgroup _
  | minimum | maximum =>
    simp only [afterKeyword, afterClamp, hkind]
    cases t.kind with
    | number n => rfl
    | _ => exact alike_atToken ht _
  | trigger trigger =>
    simp only [afterKeyword, afterTrigger, hkind]
    cases t.kind with
    | comparison c => rfl
    | number n => rfl
    | _ => exact hgroup _

theorem atStart_alike (stack : List Frame) (ht : (t, t') ∈ pairs) (hkind : t'.kind = t.kind) :
    Alike pairs (atStart stack t) (atStart stack t') := by
  simp only [atStart, hkind]
  cases t.kind with
  | operator op =>
    cases op with
    | sub => rfl
    | add | mul | div => exact alike_atToken ht _
  | number n => exact ⟨t', ht, rfl⟩
  | dice => rfl
  | openParen => rfl
  | _ => exact alike_atToken ht _

theorem afterNumber_alike (stack : List Frame) (ht : (t, t') ∈ pairs) (hkind : t'.kind = t.kind) (n : Int)
    {written written' : Token} (hwritten : (written, written') ∈ pairs) :
    Alike pairs (afterNumber stack n written t) (afterNumber stack n written' t') := by
  have hfactor := afterFactor_alike stack ht hkind (.literal n)
  simp only [afterNumber, hkind]
  cases t.kind with
  | dice =>
    cases DiceCount.ofInt? n with
    | some count => rfl
    | none => exact alike_atToken hwritten _
  | keyword word => exact alike_atToken ht _
  | _ => exact hfactor

theorem afterDiceSign_alike (stack : List Frame) (ht : (t, t') ∈ pairs) (hkind : t'.kind = t.kind)
    (count : DiceCount) :
    Alike pairs (afterDiceSign stack count t) (afterDiceSign stack count t') := by
  have hgroup := afterGroup_alike stack ht hkind ⟨count, .usual, []⟩
  simp only [afterDiceSign, hkind]
  cases t.kind with
  | number n =>
    dsimp only
    cases Sides.ofInt? n with
    | some sides => rfl
    | none => exact alike_atToken ht _
  | percent => rfl
  | _ => exact hgroup

theorem afterComparison_alike (stack : List Frame) (ht : (t, t') ∈ pairs) (hkind : t'.kind = t.kind)
    (g : DiceGroup) (trigger : Trigger) (c : Comparison) :
    Alike pairs (afterComparison stack g trigger c t) (afterComparison stack g trigger c t') := by
  simp only [afterComparison, hkind]
  cases t.kind with
  | number n => rfl
  | _ => exact alike_atToken ht _

theorem afterClosed_alike (stack : List Frame) (ht : (t, t') ∈ pairs) (hkind : t'.kind = t.kind)
    (inner : Expr) :
    Alike pairs (afterClosed stack inner t) (afterClosed stack inner t') := by
  have hfactor := afterFactor_alike stack ht hkind inner
  simp only [afterClosed, hkind]
  cases t.kind with
  | keyword word => exact alike_atToken ht _
  | _ => exact hfactor

/-- Readings that are alike stay so when a token is taken in. -/
theorem step_alike {before before' : Reading} (hbefore : Alike pairs (.ok before) (.ok before'))
    (ht : (t, t') ∈ pairs) (hkind : t'.kind = t.kind) :
    Alike pairs (step before t) (step before' t') := by
  cases before with
  | finished e =>
    cases hbefore
    rfl
  | unfinished stack phase =>
    cases phase with
    | number n written =>
      obtain ⟨written', hwritten, heq⟩ := hbefore
      cases heq
      exact afterNumber_alike stack ht hkind n hwritten
    | start =>
      cases hbefore
      exact atStart_alike stack ht hkind
    | diceSign count =>
      cases hbefore
      exact afterDiceSign_alike stack ht hkind count
    | group g =>
      cases hbefore
      exact afterGroup_alike stack ht hkind g
    | keyword g word =>
      cases hbefore
      exact afterKeyword_alike stack ht hkind g word
    | comparison g trigger c =>
      cases hbefore
      exact afterComparison_alike stack ht hkind g trigger c
    | closed inner =>
      cases hbefore
      exact afterClosed_alike stack ht hkind inner

theorem Alike.exists_unfinished {stack : List Frame} {phase : Phase} {r : Except ParseError Reading}
    (h : Alike pairs (.ok (.unfinished stack phase)) r) :
    ∃ phase', r = .ok (.unfinished stack phase') := by
  cases phase with
  | number n t =>
    obtain ⟨t', -, rfl⟩ := h
    exact ⟨_, rfl⟩
  | _ => exact ⟨_, h⟩

theorem Alike.exists_ok {before : Reading} {r : Except ParseError Reading}
    (h : Alike pairs (.ok before) r) : ∃ before', r = .ok before' := by
  cases before with
  | finished e => exact ⟨_, h⟩
  | unfinished stack phase =>
    obtain ⟨phase', hr⟩ := h.exists_unfinished
    exact ⟨_, hr⟩

/-- So they do when a run of tokens is taken in. -/
theorem foldlM_alike (hkinds : ∀ p ∈ pairs, p.2.kind = p.1.kind) {run : List (Token × Token)}
    (hrun : ∀ p ∈ run, p ∈ pairs) {before before' : Reading}
    (hbefore : Alike pairs (.ok before) (.ok before')) :
    Alike pairs ((run.map Prod.fst).foldlM step before) ((run.map Prod.snd).foldlM step before') := by
  induction run generalizing before before' with
  | nil => exact hbefore
  | cons p run ih =>
    obtain ⟨hp, hrest⟩ := List.forall_mem_cons.1 hrun
    have hstep := step_alike hbefore hp (hkinds p hp)
    rw [List.map_cons, List.map_cons, List.foldlM_cons, List.foldlM_cons]
    cases hs : step before p.1 with
    | error e =>
      rw [hs] at hstep
      obtain ⟨t, t', kind, ht, rfl, hs'⟩ := hstep
      rw [hs']
      exact alike_atToken ht kind
    | ok after =>
      rw [hs] at hstep
      obtain ⟨after', hs'⟩ := hstep.exists_ok
      rw [hs'] at hstep ⊢
      exact ih hrest hstep

end Reading

/-- Tokens that are paired off with tokens of the same kinds are read as the same expression or refused for
the same reason, at partners. -/
theorem ofTokens_of_pairs {pairs : List (Token × Token)}
    (hkinds : ∀ p ∈ pairs, p.2.kind = p.1.kind) (hne : pairs ≠ []) :
    (∀ e, ofTokens (pairs.map Prod.fst) = .ok e → ofTokens (pairs.map Prod.snd) = .ok e) ∧
    ∀ error, ofTokens (pairs.map Prod.fst) = .error error →
      ∃ t t' kind, (t, t') ∈ pairs ∧ error = .atToken t kind ∧
        ofTokens (pairs.map Prod.snd) = .error (.atToken t' kind) := by
  obtain ⟨last, hlast⟩ := Option.ne_none_iff_exists'.1 (mt List.getLast?_eq_none_iff.1 hne)
  have hmem := List.mem_of_getLast? hlast
  have hinitial : Alike pairs (.ok .initial) (.ok .initial) := rfl
  have hrun : ∀ p ∈ pairs ++ List.replicate (pairs.length + 1) last, p ∈ pairs := by
    intro p hp
    rcases List.mem_append.1 hp with hp | hp
    · exact hp
    · rwa [List.eq_of_mem_replicate hp]
  have hread := foldlM_alike hkinds hrun hinitial
  rw [List.map_append, List.map_append, List.map_replicate, List.map_replicate] at hread
  simp only [ofTokens, List.getLast?_map, hlast, Option.map_some, List.length_map]
  generalize (pairs.map Prod.fst ++ List.replicate (pairs.length + 1) last.1).foldlM step .initial =
    r at hread ⊢
  generalize (pairs.map Prod.snd ++ List.replicate (pairs.length + 1) last.2).foldlM step .initial =
    r' at hread ⊢
  cases r with
  | error e =>
    obtain ⟨t, t', kind, ht, rfl, rfl⟩ := hread
    refine ⟨fun e h => ?_, fun error h => ?_⟩
    · cases h
    · cases h
      exact ⟨t, t', kind, ht, rfl, rfl⟩
  | ok after =>
    cases after with
    | finished e =>
      cases hread
      refine ⟨fun e' h => h, fun error h => ?_⟩
      cases h
    | unfinished stack phase =>
      obtain ⟨phase', rfl⟩ := hread.exists_unfinished
      refine ⟨fun e h => ?_, fun error h => ?_⟩
      · cases h
      · cases h
        exact ⟨last.1, last.2, _, hmem, rfl, rfl⟩

/-- To the reader nothing counts but the kinds of the tokens. -/
theorem ofTokens_of_kinds {tokens tokens' : List Token} (hne : tokens ≠ [])
    (hkinds : tokens'.map (·.kind) = tokens.map (·.kind)) :
    (∀ e, ofTokens tokens = .ok e → ofTokens tokens' = .ok e) ∧
    ∀ error, ofTokens tokens = .error error → ∃ (i : Nat) (t t' : Token) (kind : ParseErrorKind),
      tokens[i]? = some t ∧ tokens'[i]? = some t' ∧ error = .atToken t kind ∧
        ofTokens tokens' = .error (.atToken t' kind) := by
  have hlength : tokens'.length = tokens.length := by simpa using congrArg List.length hkinds
  have hpairs : ∀ p ∈ tokens.zip tokens', p.2.kind = p.1.kind := by
    intro p hp
    obtain ⟨i, hi⟩ := List.mem_iff_getElem?.1 hp
    obtain ⟨ht, ht'⟩ := List.getElem?_zip_eq_some.1 hi
    have hat := congrArg (·[i]?) hkinds
    simpa [ht, ht'] using hat
  have hzip : tokens.zip tokens' ≠ [] := by
    intro hnil
    rcases List.zip_eq_nil_iff.1 hnil with h | h
    · exact hne h
    · exact hne (List.length_eq_zero_iff.1 (by rw [← hlength, h, List.length_nil]))
  obtain ⟨hread, hrefused⟩ := ofTokens_of_pairs hpairs hzip
  rw [List.map_fst_zip (Nat.le_of_eq hlength.symm)] at hread hrefused
  rw [List.map_snd_zip (Nat.le_of_eq hlength)] at hread hrefused
  refine ⟨hread, fun error herror => ?_⟩
  obtain ⟨t, t', kind, hp, heq, hr'⟩ := hrefused error herror
  obtain ⟨i, hi⟩ := List.mem_iff_getElem?.1 hp
  obtain ⟨ht, ht'⟩ := List.getElem?_zip_eq_some.1 hi
  exact ⟨i, t, t', kind, ht, ht', heq, hr'⟩

end DiceNotation.Expr
