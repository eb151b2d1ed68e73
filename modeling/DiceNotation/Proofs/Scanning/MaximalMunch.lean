import DiceNotation.Error
import DiceNotation.Proofs.Lexemes
import DiceNotation.Proofs.Reader.Positions
import DiceNotation.Proofs.Scanning.Denotation

/-!
# Maximal munch

The scanner loses nothing of a text: its tokens are the longest lexemes at their places and stand one
after the other with only blanks between them. `MaximalMunch text stop tokens` says so of the text up to
the byte `stop`; a blank and a lexeme carry it on, and a scan stops at the end or where it is stuck.
-/

namespace DiceNotation

namespace Token

/-- The token stands where a lexeme does that is the longest one there. -/
def Spells (text : String) (t : Token) : Prop :=
  ∃ before lexeme after : String, text = before ++ lexeme ++ after ∧
    t.start = before.utf8ByteSize ∧ t.stop = t.start + lexeme.utf8ByteSize ∧
    Denotes lexeme t.kind ∧ Longest lexeme after

/-- The text up to a byte is made of these tokens and blanks. -/
structure MaximalMunch (text : String) (stop : Nat) (tokens : List Token) : Prop where
  spelled : ∀ t ∈ tokens, Spells text t
  bounded : ∀ t ∈ tokens, t.start < t.stop ∧ t.stop ≤ stop
  apart : tokens.Pairwise fun a b => a.stop ≤ b.start
  gaps : ∀ (before : String) (c : Char) (after : String),
    text = before ++ String.singleton c ++ after → before.utf8ByteSize < stop →
    isBlank c = true ∨ ∃ t ∈ tokens, t.start ≤ before.utf8ByteSize ∧ before.utf8ByteSize < t.stop
  valued : ∀ t ∈ tokens, hasValue t.kind = true

/-- There is a reason for the error in the text. -/
inductive StuckAt (text : String) : LexError → Prop
  | unexpectedChar {before after : String} {c : Char}
      (htext : text = before ++ String.singleton c ++ after) (hblank : isBlank c = false)
      (hlexeme : ∀ (lexeme rest : String) (kind : TokenKind),
        String.singleton c ++ after = lexeme ++ rest → ¬ Denotes lexeme kind) :
      StuckAt text (.unexpectedChar before.utf8ByteSize c)
  | numberTooLarge {before digits after : String} (htext : text = before ++ digits ++ after)
      (hdigits : IsDigits digits) (hbefore : DigitsEnd before digits)
      (hafter : DigitsEnd digits after) (hvalue : maxInt < digitsValue digits) :
      StuckAt text (.numberTooLarge before.utf8ByteSize digits)

/-- What a scan of the text may come to. -/
def ScansTo (text : String) : Except LexError (List Token) → Prop
  | .ok tokens => ∃ lexemes,
      tokens = lexemes ++ [⟨.endOfInput, text.utf8ByteSize, text.utf8ByteSize⟩] ∧
        MaximalMunch text text.utf8ByteSize lexemes
  | .error e => ∃ lexemes, MaximalMunch text e.position lexemes ∧ StuckAt text e

/-! ## One step of a scan -/

theorem eq_empty_or_singleton_append (text : String) :
    text = "" ∨ ∃ c rest, text = String.singleton c ++ rest := by
  cases htext : text.toList with
  | nil => exact .inl (String.toList_eq_nil_iff.1 htext)
  | cons c rest =>
    refine .inr ⟨c, String.ofList rest, ?_⟩
    rw [← String.ofList_cons, ← htext, String.ofList_toList]

/-- Of two ways to part a text, the later one only moves a piece to the front. -/
theorem exists_append_of_utf8ByteSize_le {a b c d : String} (h : a ++ b = c ++ d)
    (hle : a.utf8ByteSize ≤ c.utf8ByteSize) : ∃ piece, c = a ++ piece ∧ b = piece ++ d := by
  have hlists : a.toList ++ b.toList = c.toList ++ d.toList := by
    rw [← String.toList_append, ← String.toList_append, h]
  rcases List.append_eq_append_iff.1 hlists with ⟨piece, hc, hb⟩ | ⟨piece, ha, hd⟩
  · refine ⟨String.ofList piece, ?_, ?_⟩
    · rw [← String.toList_inj, hc, String.toList_append, String.toList_ofList]
    · rw [← String.toList_inj, hb, String.toList_append, String.toList_ofList]
  · have hsplit : a = c ++ String.ofList piece := by
      rw [← String.toList_inj, ha, String.toList_append, String.toList_ofList]
    have hpiece : String.ofList piece = "" := by
      rw [hsplit, String.utf8ByteSize_append] at hle
      exact String.utf8ByteSize_eq_zero_iff.1 (by omega)
    have hac : a = c := by rw [hsplit, hpiece, String.append_empty]
    subst hac
    exact ⟨"", String.append_empty.symm, by rw [String.empty_append, ← String.append_right_inj, h]⟩

variable {text before after : String} {tokens : List Token}

theorem MaximalMunch.nil (text : String) : MaximalMunch text 0 [] where
  spelled := by simp
  bounded := by simp
  apart := .nil
  gaps := by
    intro before c after _ hstop
    exact absurd hstop (Nat.not_lt_zero _)
  valued := by simp

theorem MaximalMunch.blank {c : Char} (h : MaximalMunch text before.utf8ByteSize tokens)
    (htext : text = before ++ String.singleton c ++ after) (hc : isBlank c = true) :
    MaximalMunch text (before.utf8ByteSize + c.utf8Size) tokens where
  spelled := h.spelled
  bounded t ht := ⟨(h.bounded t ht).1, Nat.le_trans (h.bounded t ht).2 (Nat.le_add_right _ _)⟩
  apart := h.apart
  gaps := by
    intro before' c' after' htext' hstop
    by_cases hearlier : before'.utf8ByteSize < before.utf8ByteSize
    · exact h.gaps before' c' after' htext' hearlier
    · -- A character of the text that starts within the blank is the blank.
      rw [htext, String.append_assoc, String.append_assoc] at htext'
      obtain ⟨piece, rfl, hrest⟩ := exists_append_of_utf8ByteSize_le htext' (by omega)
      rcases eq_empty_or_singleton_append piece with rfl | ⟨d, piece', rfl⟩
      · rw [String.empty_append, String.singleton_append_inj] at hrest
        exact .inl (hrest.1 ▸ hc)
      · rw [String.append_assoc, String.singleton_append_inj] at hrest
        rw [← hrest.1] at hstop
        simp only [String.utf8ByteSize_append, String.utf8ByteSize_singleton] at hstop
        omega
  valued := h.valued

theorem MaximalMunch.lexeme {lexeme : String} {kind : TokenKind}
    (h : MaximalMunch text before.utf8ByteSize tokens) (htext : text = before ++ lexeme ++ after)
    (hkind : Denotes lexeme kind) (hlongest : Longest lexeme after) (hvalue : hasValue kind = true) :
    MaximalMunch text (before.utf8ByteSize + lexeme.utf8ByteSize)
      (tokens ++
        [⟨kind, before.utf8ByteSize, before.utf8ByteSize + lexeme.utf8ByteSize⟩]) where
  spelled := by
    intro t ht
    rcases List.mem_append.1 ht with ht | ht
    · exact h.spelled t ht
    · rw [List.mem_singleton.1 ht]
      exact ⟨before, lexeme, after, htext, rfl, rfl, hkind, hlongest⟩
  bounded := by
    have hpos : 0 < lexeme.utf8ByteSize :=
      Nat.pos_of_ne_zero (mt String.utf8ByteSize_eq_zero_iff.1 hkind.ne_empty)
    intro t ht
    rcases List.mem_append.1 ht with ht | ht
    · have := h.bounded t ht
      omega
    · rw [List.mem_singleton.1 ht]
      simp only
      omega
  apart := by
    refine List.pairwise_append.2 ⟨h.apart, List.pairwise_singleton _ _, fun a ha b hb => ?_⟩
    rw [List.mem_singleton.1 hb]
    exact (h.bounded a ha).2
  gaps := by
    intro before' c after' htext' hstop
    by_cases hearlier : before'.utf8ByteSize < before.utf8ByteSize
    · rcases h.gaps before' c after' htext' hearlier with hc | ⟨t, ht, hspan⟩
      · exact .inl hc
      · exact .inr ⟨t, List.mem_append_left _ ht, hspan⟩
    · exact .inr ⟨_, List.mem_append_right _ (List.mem_singleton_self _), by simpa using hearlier,
        hstop⟩
  valued := by
    intro t ht
    rcases List.mem_append.1 ht with ht | ht
    · exact h.valued t ht
    · rw [List.mem_singleton.1 ht]
      exact hvalue

/-! ## Where a scan is stuck -/

theorem digitsEnd_empty (after : String) : DigitsEnd "" after := by
  simp [DigitsEnd]

theorem digitsEnd_blank {c : Char} (hc : isBlank c = true) :
    DigitsEnd (before ++ String.singleton c) after := by
  intro c' hc' _ _ hdigit
  simp only [String.toList_append, String.toList_singleton, List.getLast?_concat,
    Option.mem_some_iff] at hc'
  rw [hc', isBlank_of_isDigit hdigit] at hc
  cases hc

theorem DigitsEnd.append {lexeme : String} (hne : lexeme ≠ "") (h : DigitsEnd lexeme after) :
    DigitsEnd (before ++ lexeme) after := by
  intro c hc
  rw [String.toList_append, List.getLast?_append_of_ne_nil _ (by simpa using hne)] at hc
  exact h c hc

theorem DigitsEnd.of_append {lexeme : String} (hne : lexeme ≠ "")
    (h : DigitsEnd before (lexeme ++ after)) : DigitsEnd before lexeme := by
  intro c hc c' hc'
  refine h c hc c' ?_
  rwa [String.toList_append, List.head?_append_of_ne_nil _ (by simpa using hne)]

/-- A lexeme without a value is a number that is too large. -/
theorem stuckAt_of_not_hasValue {lexeme : String} {kind : TokenKind}
    (htext : text = before ++ lexeme ++ after) (hkind : Denotes lexeme kind)
    (hlongest : Longest lexeme after) (hbefore : DigitsEnd before lexeme)
    (hvalue : hasValue kind = false) :
    StuckAt text (.numberTooLarge before.utf8ByteSize lexeme) := by
  have hafter := hlongest.digitsEnd hkind
  cases hkind with
  | number hdigits =>
    refine .numberTooLarge htext hdigits hbefore hafter ?_
    simpa [hasValue] using hvalue
  | dice | capitalDice | percent | openParen | closeParen | operator | keyword | comparison =>
    cases hvalue

/-! ## Whole scans -/

/-- Behind its first character a lexeme is passed over. -/
theorem scanFrom_lexeme {c : Char} {lexeme rest : String} (hne : lexeme ≠ "")
    (h : String.singleton c ++ rest = lexeme ++ after) (position : Nat) (taken : List Token) :
    scanFrom (position + c.utf8Size) (lexeme.length - 1) taken rest.toList =
      scanFrom (position + lexeme.utf8ByteSize) 0 taken after.toList := by
  rcases eq_empty_or_singleton_append lexeme with rfl | ⟨d, passed, rfl⟩
  · contradiction
  · rw [String.append_assoc, String.singleton_append_inj] at h
    obtain ⟨rfl, rfl⟩ := h
    have hlength : (String.singleton c ++ passed).length - 1 = passed.toList.length := by
      rw [String.length_append, String.length_singleton, String.length_toList]
      omega
    rw [hlength, String.toList_append, scanFrom_skip, String.ofList_toList,
      String.utf8ByteSize_append, String.utf8ByteSize_singleton, Nat.add_assoc]

/-- From a place up to which the text is made of the tokens taken, the scan comes to what it may. -/
theorem scanFrom_scansTo {taken : List Token} (htext : text = before ++ after)
    (h : MaximalMunch text before.utf8ByteSize taken.reverse) (hdigits : DigitsEnd before after) :
    ScansTo text (scanFrom before.utf8ByteSize 0 taken after.toList) := by
  -- A lexeme is passed over at once, so the induction is on the length of what is left.
  induction hn : after.length using Nat.strongRecOn generalizing before after taken with
  | ind n ih =>
    rcases eq_empty_or_singleton_append after with rfl | ⟨c, rest, rfl⟩
    · rw [String.append_empty] at htext
      subst htext
      exact ⟨taken.reverse, by simp, h⟩
    · have hlist : (String.singleton c ++ rest).toList = c :: rest.toList := by
        rw [String.toList_append, String.toList_singleton, List.singleton_append]
      rw [String.length_append, String.length_singleton] at hn
      rw [hlist, scanFrom]
      by_cases hblank : isBlank c = true
      · rw [← String.append_assoc] at htext
        have hnext := h.blank htext hblank
        rw [← String.utf8ByteSize_singleton, ← String.utf8ByteSize_append] at hnext
        rw [if_pos hblank, ← String.utf8ByteSize_singleton, ← String.utf8ByteSize_append]
        exact ih rest.length (by omega) htext hnext (digitsEnd_blank hblank) rfl
      · rw [if_neg hblank]
        cases hl : longestLexeme? (c :: rest.toList) with
        | none =>
          rw [← String.append_assoc] at htext
          refine ⟨taken.reverse, h, .unexpectedChar htext (Bool.eq_false_iff.2 hblank) ?_⟩
          intro lexeme rest' kind heq
          exact not_denotes_of_longestLexeme?_eq_none (hlist ▸ hl) heq
        | some found =>
          obtain ⟨kind, length⟩ := found
          obtain ⟨lexeme, after, hsplit, rfl, hkind, hlongest⟩ :=
            longest_of_longestLexeme? (hlist ▸ hl)
          have hne := hkind.ne_empty
          have hlengths := congrArg String.length hsplit
          rw [String.length_append, String.length_append, String.length_singleton] at hlengths
          have hpos := mt String.length_eq_zero_iff.1 hne
          rw [hsplit] at htext hdigits
          rw [← String.append_assoc] at htext
          by_cases hvalue : hasValue kind = true
          · have hnext := h.lexeme htext hkind hlongest hvalue
            rw [← List.reverse_cons, ← String.utf8ByteSize_append] at hnext
            simp only [hvalue, if_true]
            rw [scanFrom_lexeme hne hsplit, ← String.utf8ByteSize_append, ← hkind.utf8ByteSize,
              ← String.utf8ByteSize_append]
            exact ih after.length (by omega) htext hnext ((hlongest.digitsEnd hkind).append hne) rfl
          · have htake : String.ofList ((c :: rest.toList).take lexeme.length) = lexeme := by
              rw [← hlist, hsplit, String.toList_append, ← String.length_toList, List.take_left,
                String.ofList_toList]
            simp only [hvalue, Bool.false_eq_true, if_false, htake]
            exact ⟨taken.reverse, h, stuckAt_of_not_hasValue htext hkind hlongest
              (hdigits.of_append hne) (Bool.eq_false_iff.2 hvalue)⟩

theorem scan_scansTo (text : String) : ScansTo text (scan text) := by
  have hnil : MaximalMunch text "".utf8ByteSize [].reverse := .nil text
  exact scanFrom_scansTo String.empty_append.symm hnil (digitsEnd_empty text)

/-! ## Positions -/

theorem StuckAt.isValid {e : LexError} (h : StuckAt text e) :
    String.Pos.Raw.IsValid text ⟨e.position⟩ := by
  cases h with
  | unexpectedChar htext =>
    rw [String.append_assoc] at htext
    exact String.Pos.Raw.isValid_iff_exists_append.2 ⟨_, _, htext, rfl⟩
  | numberTooLarge htext =>
    rw [String.append_assoc] at htext
    exact String.Pos.Raw.isValid_iff_exists_append.2 ⟨_, _, htext, rfl⟩

theorem Spells.isValid {t : Token} (h : Spells text t) :
    String.Pos.Raw.IsValid text ⟨t.start⟩ := by
  obtain ⟨before, lexeme, after, htext, hstart, -⟩ := h
  rw [String.append_assoc] at htext
  exact String.Pos.Raw.isValid_iff_exists_append.2 ⟨_, _, htext, by rw [hstart]; rfl⟩

/-- Every token starts at a boundary of characters. -/
theorem isValid_of_mem_scan (h : scan text = .ok tokens) {t : Token} (ht : t ∈ tokens) :
    String.Pos.Raw.IsValid text ⟨t.start⟩ := by
  have hscan := scan_scansTo text
  rw [h] at hscan
  obtain ⟨lexemes, rfl, hmunch⟩ := hscan
  rcases List.mem_append.1 ht with ht | ht
  · exact (hmunch.spelled t ht).isValid
  · rw [List.mem_singleton.1 ht]
    exact String.Pos.Raw.isValid_iff_exists_append.2 ⟨text, "", by simp, rfl⟩

end Token

open Token

/-- The error of a text stands between two characters of it or at its end. -/
theorem Expr.isValid_of_parse_eq_error {text : String} {e : Error} {position : Nat}
    (h : Expr.parse text = .error e) (hposition : e.position? = some position) :
    String.Pos.Raw.IsValid text ⟨position⟩ := by
  unfold Expr.parse at h
  split at h
  · next e' hscan =>
    cases h
    cases hposition
    have hstuck := scan_scansTo text
    rw [hscan] at hstuck
    obtain ⟨lexemes, -, hstuck⟩ := hstuck
    exact hstuck.isValid
  · next tokens hscan =>
    cases hread : Expr.ofTokens tokens with
    | ok f =>
      rw [hread] at h
      cases h
    | error e' =>
      rw [hread] at h
      cases h
      cases hposition
      have hne : tokens ≠ [] := by
        have hscan' := scan_scansTo text
        rw [hscan] at hscan'
        obtain ⟨lexemes, rfl, -⟩ := hscan'
        simp
      obtain ⟨t, ht, hstart⟩ := Expr.exists_token_of_ofTokens_eq_error hne hread
      rw [hstart]
      exact isValid_of_mem_scan hscan ht

/-- Scanning takes the longest lexeme again and again and loses nothing but blanks; it ends with the
text or where it is stuck. What is wrong with a text is reported at a character of it or at its end. -/
theorem Token.scan_maximalMunch (text : String) :
    (∀ tokens, scan text = .ok tokens → ∃ lexemes,
      tokens = lexemes ++ [⟨.endOfInput, text.utf8ByteSize, text.utf8ByteSize⟩] ∧
        MaximalMunch text text.utf8ByteSize lexemes) ∧
    (∀ e, scan text = .error e →
      ∃ lexemes, MaximalMunch text e.position lexemes ∧ StuckAt text e) ∧
    ∀ e position, Expr.parse text = .error e → e.position? = some position →
      String.Pos.Raw.IsValid text ⟨position⟩ ∧ position ≤ text.utf8ByteSize := by
  have hscan := scan_scansTo text
  refine ⟨fun tokens h => ?_, fun e h => ?_, fun e position h hposition => ?_⟩
  · rwa [h] at hscan
  · rwa [h] at hscan
  · have hvalid := Expr.isValid_of_parse_eq_error h hposition
    exact ⟨hvalid, hvalid.le_utf8ByteSize⟩

theorem Token.scan_accented_maximalMunch :
    scan "dl3 é" = .error (.unexpectedChar 4 'é') ∧
      (∃ lexemes, MaximalMunch "dl3 é" 4 lexemes ∧ StuckAt "dl3 é" (.unexpectedChar 4 'é')) ∧
      String.Pos.Raw.IsValid "dl3 é" ⟨4⟩ :=
  have h := scan_maximalMunch "dl3 é"
  ⟨rfl, h.2.1 _ rfl, (h.2.2 (.lex (.unexpectedChar 4 'é')) 4 rfl rfl).1⟩

end DiceNotation
