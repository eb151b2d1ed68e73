import DiceNotation.Proofs.Grammar
import DiceNotation.Token.Lexer

/-!
# Lexemes and what they scan to

`TokenKind.lexeme` spells a token. A lexeme is only recognised where the next character does not make
a longer one of it, so every statement about scanning carries the rest of the text along: `Lexes text
kinds` says that a text scans to the given kinds from any position, and lexemes and blanks are put in
front of such a text one at a time.
-/

namespace DiceNotation

namespace TokenKind

/-- The shortest spelling of the token. -/
def lexeme : TokenKind → List Char
  | number n => Nat.toDigits 10 n.toNat
  | dice => ['d']
  | percent => ['%']
  | openParen => ['(']
  | closeParen => [')']
  | operator op => op.symbol.toList
  | keyword word => word.text.toList
  | comparison c => c.symbol.toList
  | endOfInput => []

/-- Whether the character behind the lexeme makes a longer lexeme of it. -/
def isExtendedBy : TokenKind → Char → Bool
  | number _, c => c.isDigit
  | dice, c | keyword .keep, c => 'h' == c || 'l' == c
  | keyword (.trigger (.reroll .once)), c => 'r' == c
  | keyword (.trigger (.explode .recursive)), c => 'o' == c
  | comparison .less, c | comparison .greater, c => '=' == c
  | _, _ => false

/-- The lexeme ends in front of this text. -/
def EndsBefore (k : TokenKind) (rest : List Char) : Prop :=
  ∀ c ∈ rest.head?, k.isExtendedBy c = false

theorem endsBefore_nil (k : TokenKind) : k.EndsBefore [] := by
  simp [EndsBefore]

theorem endsBefore_cons {k : TokenKind} {c : Char} {rest : List Char} :
    k.EndsBefore (c :: rest) ↔ k.isExtendedBy c = false := by
  simp [EndsBefore]

end TokenKind

namespace Token
open TokenKind Grammar

theorem takeWhile_isDigit_toDigits_append (n : Nat) {rest : List Char}
    (h : ∀ c ∈ rest.head?, c.isDigit = false) :
    (Nat.toDigits 10 n ++ rest).takeWhile Char.isDigit = Nat.toDigits 10 n := by
  have hdigits : ∀ c ∈ Nat.toDigits 10 n, c.isDigit = true :=
    fun _ hc => Nat.isDigit_of_mem_toDigits (by decide) (by decide) hc
  have hrest : rest.takeWhile Char.isDigit = [] := by
    cases rest with
    | nil => rfl
    | cons c rest => simp [h c (by simp)]
  rw [List.takeWhile_append_of_pos hdigits, hrest, List.append_nil]

theorem longestLexeme?_number {n : Int} (hn : 0 ≤ n) {rest : List Char}
    (h : (number n).EndsBefore rest) :
    longestLexeme? ((number n).lexeme ++ rest) = some (number n, (number n).lexeme.length) := by
  have hdigits := takeWhile_isDigit_toDigits_append n.toNat h
  have hvalue : decimalValue (Nat.toDigits 10 n.toNat) = n.toNat := Nat.ofDigitChars_ten_toDigits
  simp only [longestLexeme?, lexeme, hdigits]
  split
  · next hnil => exact absurd hnil Nat.toDigits_ne_nil
  · rw [hvalue, Int.toNat_of_nonneg hn]

/-- The spellings that longer ones begin with. -/
def extendable : List TokenKind :=
  [dice, keyword .keep, keyword (.trigger (.reroll .once)), keyword (.trigger (.explode .recursive)),
    comparison .less, comparison .greater]

theorem longestLexeme?_extendable {k : TokenKind} (hk : k ∈ extendable) {rest : List Char}
    (h : k.EndsBefore rest) : longestLexeme? (k.lexeme ++ rest) = some (k, k.lexeme.length) := by
  simp only [extendable, List.mem_cons, List.not_mem_nil, or_false] at hk
  cases rest with
  | nil => rcases hk with rfl | rfl | rfl | rfl | rfl | rfl <;> rfl
  | cons c rest =>
    rw [endsBefore_cons] at h
    rcases hk with rfl | rfl | rfl | rfl | rfl | rfl <;>
      simp_all [isExtendedBy, longestLexeme?, fixedLexemes, spellings, lexeme, Keyword.text,
        Trigger.text, Comparison.symbol, List.isPrefixOf]

/-- Of a spelling and the text behind it exactly the spelling is taken, if the text does not extend
it. -/
theorem longestLexeme?_lexeme {k : TokenKind} (hnum : ∀ n, k = number n → 0 ≤ n)
    (hk : k ≠ endOfInput) {rest : List Char} (h : k.EndsBefore rest) :
    longestLexeme? (k.lexeme ++ rest) = some (k, k.lexeme.length) := by
  by_cases hext : k ∈ extendable
  · exact longestLexeme?_extendable hext h
  · cases k with
    | number n => exact longestLexeme?_number (hnum n rfl) h
    | endOfInput => contradiction
    | dice => simp [extendable] at hext
    | percent | openParen | closeParen => rfl
    | operator op => cases op <;> rfl
    | comparison c => cases c <;> first | rfl | simp [extendable] at hext
    | keyword word =>
      rcases word with _ | ⟨_ | _, _ | _⟩ | _ | _ | ⟨_ | _⟩ | ⟨_ | _⟩ | _ <;>
        first | rfl | simp [extendable] at hext

theorem isBlank_of_isDigit {c : Char} (hc : c.isDigit = true) : isBlank c = false := by
  cases hblank : isBlank c with
  | false => rfl
  | true =>
    simp only [isBlank, Bool.or_eq_true, beq_iff_eq] at hblank
    rcases hblank with (((rfl | rfl) | rfl) | rfl) | rfl <;> exact absurd hc (by decide)

theorem lexeme_head {k : TokenKind} (hk : k ≠ endOfInput) :
    ∃ c cs, k.lexeme = c :: cs ∧ isBlank c = false := by
  cases k with
  | endOfInput => contradiction
  | number n =>
    cases hcase : Nat.toDigits 10 n.toNat with
    | nil => exact absurd hcase Nat.toDigits_ne_nil
    | cons c cs =>
      have hc : c.isDigit = true :=
        Nat.isDigit_of_mem_toDigits (by decide) (by decide) (hcase ▸ List.mem_cons_self)
      exact ⟨c, cs, hcase, isBlank_of_isDigit hc⟩
  | dice | percent | openParen | closeParen => exact ⟨_, _, rfl, by decide⟩
  | operator op => cases op <;> exact ⟨_, _, rfl, by decide⟩
  | comparison c => cases c <;> exact ⟨_, _, rfl, by decide⟩
  | keyword word =>
    rcases word with _ | ⟨_ | _, _ | _⟩ | _ | _ | ⟨_ | _⟩ | ⟨_ | _⟩ | _ <;>
      exact ⟨_, _, rfl, by decide⟩

/-! ## Scanning a text piece by piece -/

theorem scanFrom_taken (position skip : Nat) (taken : List Token) (text : List Char) :
    scanFrom position skip taken text =
      (scanFrom position skip [] text).map (taken.reverse ++ ·) := by
  induction text generalizing position skip taken with
  | nil => simp [scanFrom, Except.map]
  | cons c rest ih =>
    cases skip with
    | succ skip => exact ih _ _ _
    | zero =>
      simp only [scanFrom]
      split
      · exact ih _ _ _
      · split
        · rfl
        · split
          · rw [ih, ih _ _ [_]]
            cases scanFrom _ _ [] rest <;> simp [Except.map]
          · rfl

/-- The rest of a lexeme that has been taken is passed over. -/
theorem scanFrom_skip (position : Nat) (taken : List Token) (passed rest : List Char) :
    scanFrom position passed.length taken (passed ++ rest) =
      scanFrom (position + (String.ofList passed).utf8ByteSize) 0 taken rest := by
  induction passed generalizing position with
  | nil => rfl
  | cons c passed ih =>
    rw [String.ofList_cons, String.utf8ByteSize_append, String.utf8ByteSize_singleton,
      ← Nat.add_assoc]
    exact ih (position + c.utf8Size)

/-- From wherever it starts, the text scans to tokens of these kinds and the end. -/
def Lexes (text : List Char) (kinds : List TokenKind) : Prop :=
  ∀ position, ∃ tokens, scanFrom position 0 [] text = .ok tokens ∧
    tokens.map (·.kind) = kinds ++ [.endOfInput]

theorem Lexes.nil : Lexes [] [] := fun position => ⟨[⟨.endOfInput, position, position⟩], rfl, rfl⟩

theorem Lexes.blank {c : Char} (hc : isBlank c = true) {text : List Char} {kinds : List TokenKind}
    (h : Lexes text kinds) : Lexes (c :: text) kinds := by
  intro position
  obtain ⟨tokens, hscan, hkinds⟩ := h (position + c.utf8Size)
  refine ⟨tokens, ?_, hkinds⟩
  rw [scanFrom, if_pos hc]
  exact hscan

/-- A lexeme with a value can be put in front of a text that does not extend it. -/
theorem Lexes.lexeme {k : TokenKind} (hk : k ≠ endOfInput) (hnum : ∀ n, k = number n → IsWritable n)
    {text : List Char} {kinds : List TokenKind} (hends : k.EndsBefore text) (h : Lexes text kinds) :
    Lexes (k.lexeme ++ text) (k :: kinds) := by
  intro position
  have hlongest := longestLexeme?_lexeme (fun n hn => (hnum n hn).1) hk hends
  have hvalue : hasValue k = true := by
    cases k with
    | number n => exact decide_eq_true (hnum n rfl).2
    | _ => rfl
  obtain ⟨c, cs, hlexeme, hblank⟩ := lexeme_head hk
  rw [hlexeme, List.cons_append] at hlongest
  have hskip := scanFrom_skip (position + c.utf8Size)
    [⟨k, position, position + (c :: cs).length⟩] cs text
  obtain ⟨tokens, hscan, hkinds⟩ := h _
  refine ⟨⟨k, position, position + (c :: cs).length⟩ :: tokens, ?_, by simp [hkinds]⟩
  rw [hlexeme, List.cons_append, scanFrom, if_neg (by simp [hblank]), hlongest]
  simp only [hvalue, if_true, List.length_cons, Nat.add_sub_cancel] at hskip ⊢
  rw [hskip, scanFrom_taken, hscan]
  rfl

/-! ## What every scan is made of -/

theorem longestLexeme?_kind {text : List Char} {k : TokenKind} {length : Nat}
    (h : longestLexeme? text = some (k, length)) :
    k ≠ endOfInput ∧ ∀ n, k = number n → 0 ≤ n := by
  unfold longestLexeme? at h
  split at h
  · obtain ⟨l, hl, heq⟩ := Option.map_eq_some_iff.1 h
    have hfixed : ∀ l ∈ fixedLexemes, l.2 ≠ endOfInput ∧ ∀ n, l.2 ≠ number n := by
      simp [fixedLexemes, spellings]
    obtain ⟨hend, hnumber⟩ := hfixed l (List.mem_of_find?_eq_some hl)
    cases heq
    exact ⟨hend, fun n hn => absurd hn (hnumber n)⟩
  · cases h
    refine ⟨by simp, ?_⟩
    rintro n ⟨⟩
    omega

/-- A successful scan adds tokens other than the end whose numbers have a value, and then the end. -/
theorem scanFrom_kinds {position skip : Nat} {taken tokens : List Token} {text : List Char}
    (h : scanFrom position skip taken text = .ok tokens) :
    ∃ kinds, tokens.map (·.kind) = taken.reverse.map (·.kind) ++ (kinds ++ [.endOfInput]) ∧
      .endOfInput ∉ kinds ∧ ∀ n, .number n ∈ kinds → IsWritable n := by
  induction text generalizing position skip taken with
  | nil =>
    cases h
    exact ⟨[], by simp⟩
  | cons c rest ih =>
    cases skip with
    | succ skip => exact ih h
    | zero =>
      simp only [scanFrom] at h
      split at h
      · exact ih h
      · split at h
        · cases h
        · next k length hlongest =>
          split at h
          · next hvalue =>
            obtain ⟨hend, hnonneg⟩ := longestLexeme?_kind hlongest
            obtain ⟨kinds, hkinds, hends, hnum⟩ := ih h
            refine ⟨k :: kinds, by simp [hkinds], by simp [hends, Ne.symm hend], ?_⟩
            intro n hn
            rcases List.mem_cons.1 hn with rfl | hn
            · exact ⟨hnonneg n rfl, of_decide_eq_true hvalue⟩
            · exact hnum n hn
          · cases h

theorem scan_kinds {text : String} {tokens : List Token} (h : scan text = .ok tokens) :
    ∃ kinds, tokens.map (·.kind) = kinds ++ [.endOfInput] ∧
      .endOfInput ∉ kinds ∧ ∀ n, .number n ∈ kinds → IsWritable n := by
  simpa using scanFrom_kinds h

end Token

end DiceNotation
