import DiceNotation.Proofs.Reader.Soundness

/-!
# The reader accepts exactly the grammar

Completeness and soundness of the reader's steps are put together for whole token lists. The reader
goes on over copies of the last token; once that token has ended the input, they change nothing.
-/

namespace DiceNotation.Expr
open DiceNotation.Grammar Reading

theorem Reading.reads_finished (e : Expr) (tokens : List Token) :
    Reads (.finished e) tokens (.finished e) := by
  induction tokens with
  | nil => exact .nil _
  | cons _ _ ih => exact .cons rfl ih

/-- What `ofTokens` makes of a list that is not empty is decided by the run over it. -/
theorem ofTokens_eq_ok_iff_reads {tokens : List Token} {last : Token} {e : Expr}
    (hlast : tokens.getLast? = some last) :
    ofTokens tokens = .ok e ↔
      Reads .initial (tokens ++ List.replicate (tokens.length + 1) last) (.finished e) := by
  simp only [ofTokens, hlast, Reads]
  cases (tokens ++ List.replicate (tokens.length + 1) last).foldlM step initial with
  | error _ => simp [bind, Except.bind]
  | ok reading =>
    cases reading <;> simp [bind, Except.bind]

variable {tokens : List Token} {kinds : List TokenKind}

/-- Tokens whose kinds the grammar derives in front of the end are accepted. -/
theorem ofTokens_of_derives (hkinds : tokens.map (·.kind) = kinds ++ [.endOfInput]) {e : Expr}
    (h : Derives .expression kinds e) : ofTokens tokens = .ok e := by
  obtain ⟨body, last, rfl, hbody, hlast⟩ := List.map_eq_append_iff.1 hkinds
  obtain ⟨t, rfl, ht⟩ := List.map_eq_singleton_iff.1 hlast
  obtain ⟨after, phase, hstands, hreads⟩ := readsAs_of_derives h [] trivial body hbody
  rw [ofTokens_eq_ok_iff_reads List.getLast?_concat]
  exact (hreads.append (hstands.reads_endOfInput ht)).append (reads_finished e _)

/-- The part in front of the first end of input is the same however the list is split. -/
theorem append_endOfInput_inj {ts us rest rest' : List TokenKind} (hts : .endOfInput ∉ ts)
    (hus : .endOfInput ∉ us) (h : ts ++ .endOfInput :: rest = us ++ .endOfInput :: rest') :
    ts = us := by
  induction ts generalizing us with
  | nil =>
    cases us with
    | nil => rfl
    | cons k us => simp_all
  | cons k ts ih =>
    cases us with
    | nil => simp_all
    | cons k' us =>
      simp only [List.cons_append, List.cons.injEq, List.mem_cons, not_or] at *
      exact ⟨h.1, ih hts.2 hus.2 h.2⟩

/-- An accepted list is derived, provided that its only end is the last token. -/
theorem derives_of_ofTokens (hkinds : tokens.map (·.kind) = kinds ++ [.endOfInput])
    (hend : .endOfInput ∉ kinds) (hnum : ∀ n, .number n ∈ kinds → IsWritable n) {e : Expr}
    (h : ofTokens tokens = .ok e) : Derives .expression kinds e := by
  obtain ⟨body, last, rfl, hbody, hlast⟩ := List.map_eq_append_iff.1 hkinds
  obtain ⟨t, rfl, ht⟩ := List.map_eq_singleton_iff.1 hlast
  rw [ofTokens_eq_ok_iff_reads List.getLast?_concat] at h
  have hwritable : ∀ token ∈ body ++ [t] ++ List.replicate ((body ++ [t]).length + 1) t,
      ∀ n, token.kind = .number n → IsWritable n := by
    intro token htoken n hkind
    apply hnum
    simp only [List.mem_append, List.mem_singleton, List.mem_replicate] at htoken
    rcases htoken with (htoken | rfl) | ⟨-, rfl⟩
    · rw [← hbody, ← hkind]
      exact List.mem_map_of_mem htoken
    · simp [ht] at hkind
    · simp [ht] at hkind
  have hreached := reached_of_reads hwritable (.unfinished .empty .start) h
  simp only [List.map_append, hbody, List.append_assoc, List.map_cons, ht,
    List.singleton_append, List.nil_append] at hreached
  generalize hall : kinds ++ _ = all at hreached
  cases hreached with
  | finished whole rest =>
    rwa [append_endOfInput_inj hend whole.endOfInput_not_mem hall]

/-- A token list whose only end is its last token is accepted with the expression `e` exactly if the
grammar derives `e` from what stands in front of the end, and no list derives two expressions. -/
theorem ofTokens_eq_ok_iff_derives (hkinds : tokens.map (·.kind) = kinds ++ [.endOfInput])
    (hend : .endOfInput ∉ kinds) (hnum : ∀ n, .number n ∈ kinds → IsWritable n) :
    (∀ e, ofTokens tokens = .ok e ↔ Derives .expression kinds e) ∧
      ∀ e e', Derives .expression kinds e → Derives .expression kinds e' → e = e' := by
  refine ⟨fun e => ⟨derives_of_ofTokens hkinds hend hnum, ofTokens_of_derives hkinds⟩, ?_⟩
  intro e e' h h'
  have heq := (ofTokens_of_derives hkinds h).symm.trans (ofTokens_of_derives hkinds h')
  exact Except.ok.inj heq

/-- The tokens of `2d6kh*-3`. -/
def keepTokens : List Token :=
  [⟨.number 2, 0, 1⟩, ⟨.dice, 1, 2⟩, ⟨.number 6, 2, 3⟩,
    ⟨.keyword (.select .keep .highest), 3, 5⟩, ⟨.operator .mul, 5, 6⟩, ⟨.operator .sub, 6, 7⟩,
    ⟨.number 3, 7, 8⟩, ⟨.endOfInput, 8, 8⟩]

def keepExpr : Expr :=
  .binary .mul (.dice ⟨⟨2, by decide, by decide⟩, .usual, [.select ⟨.keep, .highest, 1⟩]⟩)
    (.negate (.literal 3))

theorem keepTokens_derived :
    keepTokens.map (·.kind) = keepTokens.dropLast.map (·.kind) ++ [.endOfInput] ∧
      .endOfInput ∉ keepTokens.dropLast.map (·.kind) ∧
      (∀ n, .number n ∈ keepTokens.dropLast.map (·.kind) → IsWritable n) ∧
      ofTokens keepTokens = .ok keepExpr ∧
      Derives .expression (keepTokens.dropLast.map (·.kind)) keepExpr := by
  have hkinds : keepTokens.map (·.kind) = keepTokens.dropLast.map (·.kind) ++ [.endOfInput] := rfl
  have hend : .endOfInput ∉ keepTokens.dropLast.map (·.kind) := by decide
  have hnum : ∀ n, .number n ∈ keepTokens.dropLast.map (·.kind) → IsWritable n := by
    intro n hn
    simp [keepTokens] at hn
    rcases hn with rfl | rfl | rfl <;> decide
  have hread : ofTokens keepTokens = .ok keepExpr := rfl
  exact ⟨hkinds, hend, hnum, hread,
    ((ofTokens_eq_ok_iff_derives hkinds hend hnum).1 keepExpr).1 hread⟩

end DiceNotation.Expr
