import Mathlib.Data.List.Infix
import DiceNotation.Token.Lexer

/-!
# What a lexeme denotes

`Denotes` says which token a piece of text is, taken by itself. The scanner looks for spellings in the
order of a table; that it finds the longest lexeme at the front of a text, or none where none starts, is
shown here from the order of that table.
-/

namespace DiceNotation.Token

/-- A run of decimal digits. -/
def IsDigits (text : String) : Prop := text ≠ "" ∧ ∀ c ∈ text.toList, c.isDigit = true

/-- The number that a run of decimal digits is written for. -/
def digitsValue (digits : String) : Nat := Nat.ofDigitChars 10 digits.toList 0

/-- The token that a piece of text stands for. -/
inductive Denotes : String → TokenKind → Prop
  | number {digits : String} (hdigits : IsDigits digits) :
      Denotes digits (.number (digitsValue digits))
  | dice : Denotes "d" .dice
  | capitalDice : Denotes "D" .dice
  | percent : Denotes "%" .percent
  | openParen : Denotes "(" .openParen
  | closeParen : Denotes ")" .closeParen
  | operator (op : BinaryOp) : Denotes op.symbol (.operator op)
  | keyword (word : Keyword) : Denotes word.text (.keyword word)
  | comparison (c : Comparison) : Denotes c.symbol (.comparison c)

theorem denotes_of_mem_spellings {text : String} {kind : TokenKind}
    (h : (text, kind) ∈ spellings) : Denotes text kind := by
  cases kind with
  | number n => simp [spellings] at h
  | endOfInput => simp [spellings] at h
  | dice =>
    obtain rfl | rfl : text = "d" ∨ text = "D" := by simpa [spellings] using h
    · exact .dice
    · exact .capitalDice
  | percent =>
    obtain rfl : text = "%" := by simpa [spellings] using h
    exact .percent
  | openParen =>
    obtain rfl : text = "(" := by simpa [spellings] using h
    exact .openParen
  | closeParen =>
    obtain rfl : text = ")" := by simpa [spellings] using h
    exact .closeParen
  | operator op =>
    obtain rfl : text = op.symbol := by
      cases op <;> simpa [spellings, BinaryOp.symbol] using h
    exact .operator op
  | keyword word =>
    obtain rfl : text = word.text := by
      rcases word with _ | ⟨_ | _, _ | _⟩ | _ | _ | ⟨_ | _⟩ | ⟨_ | _⟩ | _ <;>
        simpa [spellings, Keyword.text, Trigger.text] using h
    exact .keyword word
  | comparison c =>
    obtain rfl : text = c.symbol := by
      cases c <;> simpa [spellings, Comparison.symbol] using h
    exact .comparison c

theorem denotes_iff {text : String} {kind : TokenKind} :
    Denotes text kind ↔
      IsDigits text ∧ kind = .number (digitsValue text) ∨ (text, kind) ∈ spellings := by
  constructor
  · intro h
    cases h with
    | number hdigits => exact .inl ⟨hdigits, rfl⟩
    | operator op => cases op <;> simp [spellings, BinaryOp.symbol]
    | comparison c => cases c <;> simp [spellings, Comparison.symbol]
    | keyword word =>
      rcases word with _ | ⟨_ | _, _ | _⟩ | _ | _ | ⟨_ | _⟩ | ⟨_ | _⟩ | _ <;>
        simp [spellings, Keyword.text, Trigger.text]
    | dice | capitalDice | percent | openParen | closeParen => simp [spellings]
  · rintro (⟨hdigits, rfl⟩ | hmem)
    · exact .number hdigits
    · exact denotes_of_mem_spellings hmem

/-! ## The longest lexeme -/

/-- No spelling begins with one that stands before it in the table. -/
theorem pairwise_fixedLexemes : fixedLexemes.Pairwise fun a b => ¬ a.1 <+: b.1 := by
  decide +kernel

/-- The first spelling that a text begins with is the longest one. -/
theorem length_le_of_find? {text : List Char} {l : List Char × TokenKind}
    (h : fixedLexemes.find? (fun l => l.1.isPrefixOf text) = some l) {l' : List Char × TokenKind}
    (hl' : l' ∈ fixedLexemes) (hstarts : l'.1 <+: text) : l'.1.length ≤ l.1.length := by
  obtain ⟨hfound, before, after, hsplit, hbefore⟩ := List.find?_eq_some_iff_append.1 h
  rw [hsplit, List.mem_append, List.mem_cons] at hl'
  rcases hl' with hl' | rfl | hl'
  · have := hbefore l' hl'
    rw [List.isPrefixOf_iff_prefix.2 hstarts] at this
    cases this
  · exact Nat.le_refl _
  · have horder := hsplit ▸ pairwise_fixedLexemes
    have hnot := (List.pairwise_cons.1 (List.pairwise_append.1 horder).2.1).1 l' hl'
    rcases List.prefix_or_prefix_of_prefix (List.isPrefixOf_iff_prefix.1 hfound) hstarts with h | h
    · exact absurd h hnot
    · exact h.length_le

theorem mem_fixedLexemes {text : String} {kind : TokenKind} (h : (text, kind) ∈ spellings) :
    (text.toList, kind) ∈ fixedLexemes := List.mem_map_of_mem h

theorem mem_spellings {l : List Char × TokenKind} (h : l ∈ fixedLexemes) :
    (String.ofList l.1, l.2) ∈ spellings := by
  obtain ⟨s, hs, rfl⟩ := List.mem_map.1 h
  simpa using hs

theorem ne_nil_of_mem_fixedLexemes : ∀ l ∈ fixedLexemes, l.1 ≠ [] := by decide +kernel

/-- The spellings are in ASCII and have no digits. -/
theorem chars_of_mem_fixedLexemes {l : List Char × TokenKind} (h : l ∈ fixedLexemes) :
    ∀ c ∈ l.1, c.isDigit = false ∧ c.utf8Size = 1 := by
  have hall : ∀ l ∈ fixedLexemes, l.1.all (fun c => !c.isDigit && c.utf8Size == 1) = true := by
    decide +kernel
  simpa using hall l h

theorem takeWhile_isDigit_append {l : List Char × TokenKind} (h : l ∈ fixedLexemes)
    (rest : List Char) : (l.1 ++ rest).takeWhile Char.isDigit = [] := by
  obtain ⟨c, cs, hl⟩ := List.exists_cons_of_ne_nil (ne_nil_of_mem_fixedLexemes l h)
  have hdigit := (chars_of_mem_fixedLexemes h c (hl ▸ List.mem_cons_self)).1
  rw [hl, List.cons_append, List.takeWhile_cons, if_neg (by simp [hdigit])]

theorem longestLexeme?_of_isDigit {text : List Char} (h : text.takeWhile Char.isDigit ≠ []) :
    longestLexeme? text =
      some (.number (decimalValue (text.takeWhile Char.isDigit)),
        (text.takeWhile Char.isDigit).length) := by
  unfold longestLexeme?
  split
  · contradiction
  · rfl

theorem longestLexeme?_of_not_isDigit {text : List Char} (h : text.takeWhile Char.isDigit = []) :
    longestLexeme? text =
      (fixedLexemes.find? fun l => l.1.isPrefixOf text).map fun l => (l.2, l.1.length) := by
  rw [longestLexeme?, h]

/-- Whatever lexeme a text begins with, the scanner takes at least as much. -/
theorem length_le_longestLexeme? {lexeme : String} {kind : TokenKind} (h : Denotes lexeme kind)
    (rest : List Char) :
    ∃ kind' length, longestLexeme? (lexeme.toList ++ rest) = some (kind', length) ∧
      lexeme.length ≤ length := by
  rcases denotes_iff.1 h with ⟨⟨hne, hdigits⟩, -⟩ | hmem
  · have hrun : (lexeme.toList ++ rest).takeWhile Char.isDigit =
        lexeme.toList ++ rest.takeWhile Char.isDigit := List.takeWhile_append_of_pos hdigits
    have hne' : (lexeme.toList ++ rest).takeWhile Char.isDigit ≠ [] := by simp [hrun, hne]
    refine ⟨_, _, longestLexeme?_of_isDigit hne', ?_⟩
    rw [hrun, List.length_append, String.length_toList]
    exact Nat.le_add_right _ _
  · have hfixed := mem_fixedLexemes hmem
    have hstarts : lexeme.toList <+: lexeme.toList ++ rest := List.prefix_append _ _
    rw [longestLexeme?_of_not_isDigit (takeWhile_isDigit_append hfixed rest)]
    cases hfind : fixedLexemes.find? fun l => l.1.isPrefixOf (lexeme.toList ++ rest) with
    | none =>
      have hnot := List.find?_eq_none.1 hfind _ hfixed
      exact absurd (List.isPrefixOf_iff_prefix.2 hstarts) hnot
    | some l => exact ⟨l.2, l.1.length, rfl, length_le_of_find? hfind hfixed hstarts⟩

/-- In the text made of both no lexeme is longer than the first part. -/
def Longest (lexeme after : String) : Prop :=
  ∀ (longer rest : String) (kind : TokenKind), lexeme ++ after = longer ++ rest →
    Denotes longer kind → longer.length ≤ lexeme.length

theorem not_denotes_of_longestLexeme?_eq_none {text lexeme rest : String} {kind : TokenKind}
    (h : longestLexeme? text.toList = none) (htext : text = lexeme ++ rest) :
    ¬ Denotes lexeme kind := by
  intro hlexeme
  obtain ⟨kind', length, hlongest, -⟩ := length_le_longestLexeme? hlexeme rest.toList
  rw [htext, String.toList_append, hlongest] at h
  cases h

/-- What the scanner takes is a lexeme of the kind it says. -/
theorem exists_denotes_of_longestLexeme? {text : List Char} {kind : TokenKind} {length : Nat}
    (h : longestLexeme? text = some (kind, length)) :
    ∃ lexeme after, text = lexeme ++ after ∧ lexeme.length = length ∧
      Denotes (String.ofList lexeme) kind := by
  by_cases hrun : text.takeWhile Char.isDigit = []
  · rw [longestLexeme?_of_not_isDigit hrun] at h
    obtain ⟨l, hfind, heq⟩ := Option.map_eq_some_iff.1 h
    cases heq
    have hfixed := List.mem_of_find?_eq_some hfind
    obtain ⟨after, htext⟩ :=
      List.isPrefixOf_iff_prefix.1 (List.find?_eq_some_iff_append.1 hfind).1
    exact ⟨l.1, after, htext.symm, rfl, denotes_of_mem_spellings (mem_spellings hfixed)⟩
  · rw [longestLexeme?_of_isDigit hrun] at h
    cases h
    refine ⟨_, text.dropWhile Char.isDigit, List.takeWhile_append_dropWhile.symm, rfl, ?_⟩
    have hdigits : IsDigits (String.ofList (text.takeWhile Char.isDigit)) := by
      refine ⟨by simpa using hrun, fun c hc => ?_⟩
      rw [String.toList_ofList] at hc
      exact List.all_eq_true.1 List.all_takeWhile c hc
    have hnumber := Denotes.number hdigits
    rwa [digitsValue, String.toList_ofList] at hnumber

/-- The scanner takes the longest lexeme there is. -/
theorem longest_of_longestLexeme? {text : String} {kind : TokenKind} {length : Nat}
    (h : longestLexeme? text.toList = some (kind, length)) :
    ∃ lexeme after, text = lexeme ++ after ∧ lexeme.length = length ∧ Denotes lexeme kind ∧
      Longest lexeme after := by
  obtain ⟨lexeme, after, htext, hlength, hkind⟩ := exists_denotes_of_longestLexeme? h
  have hsplit : text = String.ofList lexeme ++ String.ofList after := by
    rw [← String.ofList_append, ← htext, String.ofList_toList]
  refine ⟨_, _, hsplit, by rw [String.length_ofList, hlength], hkind, ?_⟩
  intro longer rest kind' heq hlonger
  obtain ⟨_, length', hlongest, hle⟩ := length_le_longestLexeme? hlonger rest.toList
  rw [← String.toList_append, ← heq, ← hsplit, h] at hlongest
  cases hlongest
  rwa [String.length_ofList, hlength]

/-! ## The shape of lexemes -/

theorem Denotes.ne_empty {lexeme : String} {kind : TokenKind} (h : Denotes lexeme kind) :
    lexeme ≠ "" := by
  rcases denotes_iff.1 h with ⟨hdigits, -⟩ | hmem
  · exact hdigits.1
  · rintro rfl
    exact ne_nil_of_mem_fixedLexemes _ (mem_fixedLexemes hmem) rfl

theorem utf8Size_of_isDigit {c : Char} (h : c.isDigit = true) : c.utf8Size = 1 := by
  simp only [Char.isDigit, Bool.and_eq_true, decide_eq_true_eq] at h
  exact Char.utf8Size_eq_one_iff.2 (UInt32.le_trans h.2 (by decide))

/-- Lexemes are made of ASCII characters. -/
theorem Denotes.utf8Size_eq_one {lexeme : String} {kind : TokenKind} (h : Denotes lexeme kind) :
    ∀ c ∈ lexeme.toList, c.utf8Size = 1 := by
  rcases denotes_iff.1 h with ⟨hdigits, -⟩ | hmem
  · exact fun c hc => utf8Size_of_isDigit (hdigits.2 c hc)
  · exact fun c hc => (chars_of_mem_fixedLexemes (mem_fixedLexemes hmem) c hc).2

theorem utf8ByteSize_ofList {chars : List Char} (h : ∀ c ∈ chars, c.utf8Size = 1) :
    (String.ofList chars).utf8ByteSize = chars.length := by
  induction chars with
  | nil => rfl
  | cons c chars ih =>
    rw [List.forall_mem_cons] at h
    rw [String.ofList_cons, String.utf8ByteSize_append, String.utf8ByteSize_singleton, h.1, ih h.2,
      List.length_cons, Nat.add_comm]

theorem Denotes.utf8ByteSize {lexeme : String} {kind : TokenKind} (h : Denotes lexeme kind) :
    lexeme.utf8ByteSize = lexeme.length := by
  have hsize := utf8ByteSize_ofList h.utf8Size_eq_one
  rwa [String.ofList_toList, String.length_toList] at hsize

/-- No run of digits goes on from the one text into the other. -/
def DigitsEnd (before after : String) : Prop :=
  ∀ c ∈ before.toList.getLast?, ∀ c' ∈ after.toList.head?, c.isDigit = true → c'.isDigit = false

/-- A run of digits at the end of the longest lexeme goes no further. -/
theorem Longest.digitsEnd {lexeme after : String} {kind : TokenKind} (hkind : Denotes lexeme kind)
    (h : Longest lexeme after) : DigitsEnd lexeme after := by
  intro c hc c' hc' hdigit
  have hmem := List.mem_of_getLast? hc
  rcases denotes_iff.1 hkind with ⟨⟨-, hdigits⟩, -⟩ | hmem'
  · obtain ⟨rest, hafter⟩ := List.head?_eq_some_iff.1 hc'
    refine Bool.eq_false_iff.2 fun hdigit' => ?_
    have hlonger : IsDigits (lexeme ++ String.singleton c') := by
      refine ⟨by simp, fun d hd => ?_⟩
      rw [String.toList_append, String.toList_singleton, List.mem_append, List.mem_singleton] at hd
      rcases hd with hd | rfl
      · exact hdigits d hd
      · exact hdigit'
    have heq : lexeme ++ after = lexeme ++ String.singleton c' ++ String.ofList rest := by
      rw [String.append_assoc, ← String.ofList_cons, ← hafter, String.ofList_toList]
    have hle := h _ _ _ heq (.number hlonger)
    rw [String.length_append, String.length_singleton] at hle
    omega
  · rw [(chars_of_mem_fixedLexemes (mem_fixedLexemes hmem') c hmem).1] at hdigit
    cases hdigit

end DiceNotation.Token
