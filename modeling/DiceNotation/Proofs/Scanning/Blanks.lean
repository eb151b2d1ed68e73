import Mathlib.Data.List.TakeWhile
import DiceNotation.Proofs.Reader.Relocation
import DiceNotation.Proofs.Scanning.MaximalMunch
import DiceNotation.Proofs.Writable
import DiceNotation.Report

/-!
# Blanks do not matter

A lexeme ends in front of a blank, and whether it goes on is seen from the next character. So blanks can be
put in wherever no token is cut, and the text still scans to tokens of the same kinds; and lexemes that are
written apart scan to what they stand for. `Scans` follows a scan lexeme by lexeme, which is the form in which
two scans can be compared.
-/

namespace DiceNotation

namespace Token

/-! ## Where the longest lexeme ends -/

theorem isBlank_of_mem_fixedLexemes {l : List Char × TokenKind} (h : l ∈ fixedLexemes) :
    ∀ c ∈ l.1, isBlank c = false := by
  have hall : ∀ l ∈ fixedLexemes, l.1.all (fun c => !isBlank c) = true := by decide +kernel
  simpa using hall l h

theorem length_le_two_of_mem_fixedLexemes : ∀ l ∈ fixedLexemes, l.1.length ≤ 2 := by decide +kernel

/-- The second text starts with a blank or as the first one does. -/
def StartsAlike (rest rest' : List Char) : Prop :=
  ∀ c ∈ rest'.head?, isBlank c = true ∨ rest.head? = some c

/-- Whether a spelling reaches beyond a lexeme is seen from the next character. -/
theorem prefix_of_startsAlike {l m : List Char × TokenKind} (hl : l ∈ fixedLexemes)
    (hm : m ∈ fixedLexemes) {rest rest' : List Char} (halike : StartsAlike rest rest')
    (h : m.1 <+: l.1 ++ rest') : m.1 <+: l.1 ++ rest := by
  by_cases hlength : m.1.length ≤ l.1.length
  · have hshort := List.prefix_of_prefix_length_le h (List.prefix_append l.1 rest') hlength
    exact hshort.trans (List.prefix_append l.1 rest)
  · obtain ⟨more, hmore⟩ :=
      List.prefix_of_prefix_length_le (List.prefix_append l.1 rest') h (by omega)
    rw [← hmore, List.prefix_append_right_inj] at h ⊢
    have htwo := length_le_two_of_mem_fixedLexemes m hm
    have hpos := List.length_pos_iff.2 (ne_nil_of_mem_fixedLexemes l hl)
    have hmore_length := congrArg List.length hmore
    rw [List.length_append] at hmore_length
    obtain ⟨c, rfl⟩ : ∃ c, more = [c] := List.length_eq_one_iff.1 (by omega)
    obtain ⟨after, rfl⟩ := h
    have hc : isBlank c = false :=
      isBlank_of_mem_fixedLexemes hm c (hmore ▸ List.mem_append_right _ (List.mem_singleton_self c))
    rcases halike c rfl with hblank | hhead
    · rw [hc] at hblank
      cases hblank
    · obtain ⟨after', rfl⟩ := List.head?_eq_some_iff.1 hhead
      exact ⟨after', rfl⟩

/-- A front of the text as long as the lexeme is the lexeme. -/
theorem eq_of_prefix_of_length {front lexeme rest : List Char} (h : front <+: lexeme ++ rest)
    (hlength : front.length = lexeme.length) : front = lexeme :=
  (List.prefix_of_prefix_length_le h (List.prefix_append lexeme rest)
    (Nat.le_of_eq hlength)).eq_of_length hlength

/-- Where no digit follows, none follows in a text that starts alike. -/
theorem StartsAlike.takeWhile_isDigit {rest rest' : List Char} (halike : StartsAlike rest rest')
    (h : rest.takeWhile Char.isDigit = []) : rest'.takeWhile Char.isDigit = [] := by
  cases rest' with
  | nil => rfl
  | cons c after =>
    refine List.takeWhile_cons_of_neg fun hdigit => ?_
    rcases halike c rfl with hblank | hhead
    · rw [isBlank_of_isDigit hdigit] at hblank
      cases hblank
    · obtain ⟨after', rfl⟩ := List.head?_eq_some_iff.1 hhead
      rw [List.takeWhile_cons_of_pos hdigit] at h
      cases h

/-- The first fixed spelling at the front of a text is the first one in front of any text that starts
alike. -/
theorem find?_of_startsAlike {l : List Char × TokenKind} {rest rest' : List Char}
    (h : fixedLexemes.find? (fun m => m.1.isPrefixOf (l.1 ++ rest)) = some l)
    (halike : StartsAlike rest rest') :
    fixedLexemes.find? (fun m => m.1.isPrefixOf (l.1 ++ rest')) = some l := by
  obtain ⟨-, before, after, hsplit, hbefore⟩ := List.find?_eq_some_iff_append.1 h
  have hl : l ∈ fixedLexemes := List.mem_of_find?_eq_some h
  refine List.find?_eq_some_iff_append.2
    ⟨List.isPrefixOf_iff_prefix.2 (List.prefix_append _ _), before, after, hsplit, fun m hm => ?_⟩
  have hmem : m ∈ fixedLexemes := hsplit ▸ List.mem_append_left _ hm
  have hnot := hbefore m hm
  simp only [Bool.not_eq_true', Bool.eq_false_iff, ne_eq, List.isPrefixOf_iff_prefix] at hnot ⊢
  exact fun hstarts => hnot (prefix_of_startsAlike hl hmem halike hstarts)

/-- The longest lexeme at the front of a text is the longest one in front of any text that starts alike. -/
theorem longestLexeme?_of_startsAlike {lexeme rest rest' : List Char} {kind : TokenKind}
    (h : longestLexeme? (lexeme ++ rest) = some (kind, lexeme.length))
    (halike : StartsAlike rest rest') :
    longestLexeme? (lexeme ++ rest') = some (kind, lexeme.length) := by
  by_cases hrun : (lexeme ++ rest).takeWhile Char.isDigit = []
  · rw [longestLexeme?_of_not_isDigit hrun] at h
    obtain ⟨l, hfind, heq⟩ := Option.map_eq_some_iff.1 h
    have hl : l ∈ fixedLexemes := List.mem_of_find?_eq_some hfind
    obtain ⟨hstarts, -⟩ := List.find?_eq_some_iff_append.1 hfind
    rw [List.isPrefixOf_iff_prefix] at hstarts
    obtain rfl : l.1 = lexeme := eq_of_prefix_of_length hstarts (congrArg Prod.snd heq)
    rw [longestLexeme?_of_not_isDigit (takeWhile_isDigit_append hl rest'),
      find?_of_startsAlike hfind halike, ← heq]
    rfl
  · rw [longestLexeme?_of_isDigit hrun] at h
    obtain ⟨hkind, hlength⟩ := Prod.mk.inj (Option.some.inj h)
    have hlexeme : (lexeme ++ rest).takeWhile Char.isDigit = lexeme :=
      eq_of_prefix_of_length (List.takeWhile_prefix _) hlength
    have hdigits : ∀ c ∈ lexeme, c.isDigit = true := by
      rw [← hlexeme]
      exact List.all_eq_true.1 List.all_takeWhile
    have hend : rest.takeWhile Char.isDigit = [] := by
      rw [List.takeWhile_append_of_pos hdigits] at hlexeme
      simpa using hlexeme
    have hlexeme' : (lexeme ++ rest').takeWhile Char.isDigit = lexeme := by
      rw [List.takeWhile_append_of_pos hdigits, halike.takeWhile_isDigit hend, List.append_nil]
    rw [longestLexeme?_of_isDigit (by rw [hlexeme', ← hlexeme]; exact hrun), hlexeme', ← hkind,
      hlexeme]

/-- A lexeme by itself is scanned as what it denotes. -/
theorem longestLexeme?_of_denotes {lexeme : String} {kind : TokenKind} (h : Denotes lexeme kind) :
    longestLexeme? lexeme.toList = some (kind, lexeme.toList.length) := by
  rcases denotes_iff.1 h with ⟨⟨hne, hdigits⟩, rfl⟩ | hmem
  · have hrun : lexeme.toList.takeWhile Char.isDigit = lexeme.toList := List.takeWhile_eq_self_iff.2 hdigits
    rw [longestLexeme?_of_isDigit (by rw [hrun]; simpa using hne), hrun]
    rfl
  · have hall : ∀ l ∈ fixedLexemes, longestLexeme? l.1 = some (l.2, l.1.length) := by decide +kernel
    exact hall _ (mem_fixedLexemes hmem)

theorem Denotes.isBlank_eq_false {lexeme : String} {kind : TokenKind} (h : Denotes lexeme kind) :
    ∀ c ∈ lexeme.toList, isBlank c = false := by
  rcases denotes_iff.1 h with ⟨hdigits, -⟩ | hmem
  · exact fun c hc => isBlank_of_isDigit (hdigits.2 c hc)
  · exact isBlank_of_mem_fixedLexemes (mem_fixedLexemes hmem)

/-! ## Scans, lexeme by lexeme -/

/-- From a byte position on, the text scans to these tokens. -/
inductive Scans : Nat → List Char → List Token → Prop
  | nil (position : Nat) : Scans position [] [⟨.endOfInput, position, position⟩]
  | blank {position : Nat} {c : Char} {rest : List Char} {tokens : List Token}
      (hc : isBlank c = true) (hrest : Scans (position + c.utf8Size) rest tokens) :
      Scans position (c :: rest) tokens
  | lexeme {position : Nat} {lexeme rest : List Char} {kind : TokenKind} {tokens : List Token}
      (hkind : Denotes (String.ofList lexeme) kind)
      (hlongest : longestLexeme? (lexeme ++ rest) = some (kind, lexeme.length))
      (hvalue : hasValue kind = true) (hrest : Scans (position + lexeme.length) rest tokens) :
      Scans position (lexeme ++ rest) (⟨kind, position, position + lexeme.length⟩ :: tokens)

/-- Of a lexeme the first character is looked at and the others are passed over. -/
theorem scanFrom_lexeme_append {lexeme rest : List Char} {kind : TokenKind}
    (hkind : Denotes (String.ofList lexeme) kind)
    (hlongest : longestLexeme? (lexeme ++ rest) = some (kind, lexeme.length))
    (hvalue : hasValue kind = true) (position : Nat) :
    scanFrom position 0 [] (lexeme ++ rest) =
      (scanFrom (position + lexeme.length) 0 [] rest).map
        (⟨kind, position, position + lexeme.length⟩ :: ·) := by
  have hsize := hkind.utf8Size_eq_one
  have hblank := hkind.isBlank_eq_false
  have hne := hkind.ne_empty
  rw [String.toList_ofList] at hsize hblank
  cases lexeme with
  | nil => exact absurd rfl hne
  | cons c passed =>
    rw [List.forall_mem_cons] at hsize hblank
    rw [List.cons_append] at hlongest ⊢
    rw [scanFrom, if_neg (by simp [hblank.1]), hlongest]
    simp only [hvalue, if_true, List.length_cons, Nat.add_sub_cancel]
    rw [scanFrom_skip, scanFrom_taken, utf8ByteSize_ofList hsize.2, hsize.1, Nat.add_right_comm,
      Nat.add_assoc]
    rfl

theorem Scans.scanFrom_eq {position : Nat} {text : List Char} {tokens : List Token}
    (h : Scans position text tokens) : scanFrom position 0 [] text = .ok tokens := by
  induction h with
  | nil position => rfl
  | blank hc _ ih => rw [scanFrom, if_pos hc, ih]
  | lexeme hkind hlongest hvalue _ ih =>
    rw [scanFrom_lexeme_append hkind hlongest hvalue, ih]
    rfl

theorem scans_of_scanFrom {position : Nat} {text : List Char} {tokens : List Token}
    (h : scanFrom position 0 [] text = .ok tokens) : Scans position text tokens := by
  -- A lexeme is passed over at once, so the induction is on the length of the text.
  induction hn : text.length using Nat.strongRecOn generalizing position text tokens with
  | ind n ih =>
    cases text with
    | nil =>
      cases h
      exact .nil position
    | cons c rest =>
      rw [List.length_cons] at hn
      by_cases hblank : isBlank c = true
      · rw [scanFrom, if_pos hblank] at h
        exact .blank hblank (ih rest.length (by omega) h rfl)
      · cases hl : longestLexeme? (c :: rest) with
        | none =>
          rw [scanFrom, if_neg hblank, hl] at h
          cases h
        | some found =>
          obtain ⟨kind, length⟩ := found
          obtain ⟨lexeme, after, hsplit, rfl, hkind⟩ := exists_denotes_of_longestLexeme? hl
          by_cases hvalue : hasValue kind = true
          · have hlengths := congrArg List.length hsplit
            rw [List.length_cons, List.length_append] at hlengths
            have hpos : 0 < lexeme.length := by
              refine List.length_pos_iff.2 fun hnil => hkind.ne_empty ?_
              rw [hnil]
            rw [hsplit] at h hl ⊢
            rw [scanFrom_lexeme_append hkind hl hvalue] at h
            cases hrest : scanFrom (position + lexeme.length) 0 [] after with
            | error e =>
              rw [hrest] at h
              cases h
            | ok others =>
              rw [hrest] at h
              cases h
              exact .lexeme hkind hl hvalue (ih after.length (by omega) hrest rfl)
          · rw [scanFrom, if_neg hblank, hl] at h
            simp only [hvalue, Bool.false_eq_true, if_false] at h
            cases h

/-- Blanks in front of a text only move its tokens. -/
theorem Scans.blanks {gap : List Char} (hgap : ∀ c ∈ gap, isBlank c = true)
    {text : List Char} {kinds : List TokenKind}
    (h : ∀ position, ∃ tokens, Scans position text tokens ∧ tokens.map (·.kind) = kinds)
    (position : Nat) :
    ∃ tokens, Scans position (gap ++ text) tokens ∧ tokens.map (·.kind) = kinds := by
  induction gap generalizing position with
  | nil => exact h position
  | cons c gap ih =>
    rw [List.forall_mem_cons] at hgap
    obtain ⟨tokens, hscans, hkinds⟩ := ih hgap.2 (position + c.utf8Size)
    exact ⟨tokens, .blank hgap.1 hscans, hkinds⟩

/-! ## Adding blanks -/

/-- No token stretches over the byte position. -/
def Between (tokens : List Token) (position : Nat) : Prop :=
  ∀ t ∈ tokens, position ≤ t.start ∨ t.stop ≤ position

instance (tokens : List Token) (position : Nat) : Decidable (Between tokens position) :=
  inferInstanceAs (Decidable (∀ t ∈ tokens, _))

/-- Tokens that stand one behind the other are not cut where one of them starts or stops. -/
theorem between_of_pairwise {tokens : List Token} (hspan : ∀ t ∈ tokens, t.start ≤ t.stop)
    (hordered : tokens.Pairwise fun a b => a.stop ≤ b.start) {t : Token} (ht : t ∈ tokens) :
    Between tokens t.start ∧ Between tokens t.stop := by
  obtain ⟨front, back, rfl⟩ := List.append_of_mem ht
  obtain ⟨-, htail, hfront⟩ := List.pairwise_append.1 hordered
  have hback := (List.pairwise_cons.1 htail).1
  have hends : ∀ u ∈ front ++ t :: back, u.stop ≤ t.start ∨ u = t ∨ t.stop ≤ u.start := by
    intro u hu
    rcases List.mem_append.1 hu with hu | hu
    · exact .inl (hfront u hu t List.mem_cons_self)
    · rcases List.mem_cons.1 hu with rfl | hu
      · exact .inr (.inl rfl)
      · exact .inr (.inr (hback u hu))
  have ht_span := hspan t ht
  constructor
  · intro u hu
    rcases hends u hu with h | rfl | h
    · exact .inr h
    · exact .inl (Nat.le_refl _)
    · exact .inl (Nat.le_trans ht_span h)
  · intro u hu
    rcases hends u hu with h | rfl | h
    · exact .inr (Nat.le_trans h ht_span)
    · exact .inr (Nat.le_refl _)
    · exact .inl h

/-- The tokens of a text are cut neither at its ends nor where one of them starts or stops. -/
theorem between_of_scan {text : String} {tokens : List Token} (h : scan text = .ok tokens) :
    Between tokens 0 ∧ Between tokens text.utf8ByteSize ∧
      ∀ t ∈ tokens, Between tokens t.start ∧ Between tokens t.stop := by
  have hscan := scan_scansTo text
  rw [h] at hscan
  obtain ⟨lexemes, rfl, hmunch⟩ := hscan
  have hspan : ∀ t ∈ lexemes ++ [(⟨.endOfInput, text.utf8ByteSize, text.utf8ByteSize⟩ : Token)],
      t.start ≤ t.stop := by
    intro t ht
    rcases List.mem_append.1 ht with ht | ht
    · exact Nat.le_of_lt (hmunch.bounded t ht).1
    · rw [List.mem_singleton.1 ht]
  have hordered : (lexemes ++ [(⟨.endOfInput, text.utf8ByteSize, text.utf8ByteSize⟩ : Token)]).Pairwise
      fun a b => a.stop ≤ b.start := by
    refine List.pairwise_append.2 ⟨hmunch.apart, List.pairwise_singleton _ _, fun a ha b hb => ?_⟩
    rw [List.mem_singleton.1 hb]
    exact (hmunch.bounded a ha).2
  have hend := between_of_pairwise hspan hordered
    (List.mem_append_right lexemes (List.mem_singleton_self _))
  exact ⟨fun t _ => .inl (Nat.zero_le _), hend.1, fun t ht => between_of_pairwise hspan hordered ht⟩

/-- The second text is the first one with blanks put in at allowed places. Places are byte positions of the
first text, which starts at the given one. -/
inductive BlanksAdded (allowed : Nat → Prop) : Nat → List Char → List Char → Prop
  | nil (position : Nat) : BlanksAdded allowed position [] []
  | keep (c : Char) {position : Nat} {text text' : List Char}
      (hrest : BlanksAdded allowed (position + c.utf8Size) text text') :
      BlanksAdded allowed position (c :: text) (c :: text')
  | add {c : Char} {position : Nat} {text text' : List Char} (hc : isBlank c = true)
      (hallowed : allowed position) (hrest : BlanksAdded allowed position text text') :
      BlanksAdded allowed position text (c :: text')

namespace BlanksAdded

variable {allowed : Nat → Prop} {position : Nat} {text text' : List Char}

theorem startsAlike (h : BlanksAdded allowed position text text') : StartsAlike text text' := by
  intro c hc
  cases h with
  | nil => cases hc
  | keep d =>
    cases hc
    exact .inr rfl
  | add hd =>
    cases hc
    exact .inl hd

theorem of_nil (h : BlanksAdded allowed position [] text') : ∀ c ∈ text', isBlank c = true := by
  generalize hnil : ([] : List Char) = text at h
  induction h with
  | nil => simp
  | keep => cases hnil
  | add hc _ _ ih => exact List.forall_mem_cons.2 ⟨hc, ih hnil⟩

/-- In front of a character that was there some blanks may have been added. -/
theorem of_cons {c : Char} (h : BlanksAdded allowed position (c :: text) text') :
    ∃ gap rest, text' = gap ++ c :: rest ∧ (∀ c ∈ gap, isBlank c = true) ∧
      BlanksAdded allowed (position + c.utf8Size) text rest := by
  generalize hcons : c :: text = whole at h
  induction h with
  | nil => cases hcons
  | keep d hrest =>
    cases hcons
    exact ⟨[], _, rfl, by simp, hrest⟩
  | @add d _ _ _ hd _ _ ih =>
    obtain ⟨gap, rest, rfl, hgap, hrest⟩ := ih hcons
    exact ⟨d :: gap, rest, rfl, List.forall_mem_cons.2 ⟨hd, hgap⟩, hrest⟩

/-- Nothing has been added to a piece of the text in which no place is allowed. -/
theorem of_append {piece : List Char} (hsize : ∀ c ∈ piece, c.utf8Size = 1)
    (hnone : ∀ q, position ≤ q → q < position + piece.length → ¬ allowed q)
    (h : BlanksAdded allowed position (piece ++ text) text') :
    ∃ rest, text' = piece ++ rest ∧ BlanksAdded allowed (position + piece.length) text rest := by
  induction piece generalizing position text' with
  | nil => exact ⟨text', rfl, h⟩
  | cons c piece ih =>
    rw [List.forall_mem_cons] at hsize
    rw [List.length_cons] at hnone ⊢
    cases h with
    | keep _ hrest =>
      rw [hsize.1] at hrest
      obtain ⟨rest, rfl, hrest'⟩ := ih hsize.2 (fun q hlow hhigh => hnone q (by omega) (by omega)) hrest
      exact ⟨rest, rfl, by rwa [Nat.add_right_comm, Nat.add_assoc] at hrest'⟩
    | add _ hallowed _ => exact absurd hallowed (hnone position (Nat.le_refl _) (by omega))

end BlanksAdded

/-- A text with blanks put in between its tokens scans to tokens of the same kinds. -/
theorem Scans.of_blanksAdded {allowed : Nat → Prop} {position : Nat} {text : List Char}
    {tokens : List Token} (h : Scans position text tokens)
    (hallowed : ∀ q, allowed q → Between tokens q) {text' : List Char}
    (hadded : BlanksAdded allowed position text text') (position' : Nat) :
    ∃ tokens', Scans position' text' tokens' ∧ tokens'.map (·.kind) = tokens.map (·.kind) := by
  induction h generalizing text' position' with
  | nil position =>
    rw [← List.append_nil text']
    exact Scans.blanks hadded.of_nil (fun p => ⟨_, .nil p, rfl⟩) position'
  | @blank position c rest tokens hc _ ih =>
    obtain ⟨gap, after, rfl, hgap, hadded⟩ := hadded.of_cons
    refine Scans.blanks hgap (fun p => ?_) position'
    obtain ⟨tokens', hscans, hkinds⟩ := ih hallowed hadded (p + c.utf8Size)
    exact ⟨tokens', .blank hc hscans, hkinds⟩
  | @lexeme position lexeme rest kind tokens hkind hlongest hvalue _ ih =>
    have hsize := hkind.utf8Size_eq_one
    have hne := hkind.ne_empty
    rw [String.toList_ofList] at hsize
    cases lexeme with
    | nil => exact absurd rfl hne
    | cons c passed =>
      rw [List.forall_mem_cons] at hsize
      obtain ⟨gap, behind, rfl, hgap, hbehind⟩ := hadded.of_cons
      rw [hsize.1] at hbehind
      -- The token is not cut, so what follows its first character is the rest of it.
      have huncut : ∀ q, position + 1 ≤ q → q < position + 1 + passed.length → ¬ allowed q := by
        intro q hlow hhigh hq
        rcases hallowed q hq _ List.mem_cons_self with hstart | hstop
        · simp only at hstart
          omega
        · simp only [List.length_cons] at hstop
          omega
      obtain ⟨after, rfl, hafter⟩ := hbehind.of_append hsize.2 huncut
      rw [Nat.add_assoc, Nat.add_comm 1] at hafter
      refine Scans.blanks hgap (fun p => ?_) position'
      have hrest : ∀ q, allowed q → Between tokens q :=
        fun q hq t ht => hallowed q hq t (List.mem_cons_of_mem _ ht)
      obtain ⟨tokens', hscans, hkinds⟩ := ih hrest hafter (p + (c :: passed).length)
      refine ⟨_, .lexeme hkind ?_ hvalue hscans, by rw [List.map_cons, List.map_cons, hkinds]⟩
      exact longestLexeme?_of_startsAlike hlongest hafter.startsAlike

/-! ## Lexemes written apart -/

/-- Lexemes of these kinds one after another, with blanks between them. Blanks at the end are optional. -/
inductive WrittenApart : List TokenKind → List Char → Prop
  | nil : WrittenApart [] []
  | cons (lexeme gap : List Char) {rest : List Char} {kind : TokenKind} {kinds : List TokenKind}
      (hkind : Denotes (String.ofList lexeme) kind) (hgap : ∀ c ∈ gap, isBlank c = true)
      (hapart : kinds ≠ [] → gap ≠ []) (hrest : WrittenApart kinds rest) :
      WrittenApart (kind :: kinds) (lexeme ++ (gap ++ rest))

theorem WrittenApart.exists_scans {kinds : List TokenKind} {text : List Char}
    (h : WrittenApart kinds text) (hvalue : ∀ k ∈ kinds, hasValue k = true) (position : Nat) :
    ∃ tokens, Scans position text tokens ∧ tokens.map (·.kind) = kinds ++ [.endOfInput] := by
  induction h generalizing position with
  | nil => exact ⟨_, .nil position, rfl⟩
  | @cons lexeme gap rest kind kinds hkind hgap hapart hrest ih =>
    rw [List.forall_mem_cons] at hvalue
    have hfollows : StartsAlike [] (gap ++ rest) := by
      intro c hc
      cases gap with
      | cons d gap =>
        cases hc
        exact .inl (hgap _ List.mem_cons_self)
      | nil =>
        cases hrest with
        | nil => cases hc
        | cons => exact absurd rfl (hapart (List.cons_ne_nil _ _))
    have halone := longestLexeme?_of_denotes hkind
    rw [String.toList_ofList, ← List.append_nil lexeme] at halone
    have hlongest := longestLexeme?_of_startsAlike (by simpa using halone) hfollows
    obtain ⟨tokens, hscans, hkinds⟩ :=
      Scans.blanks hgap (ih hvalue.2) (position + lexeme.length)
    exact ⟨_, .lexeme hkind hlongest hvalue.1 hscans, by rw [List.map_cons, hkinds, List.cons_append]⟩

/-- A token is denoted by its shortest spelling. -/
theorem denotes_lexeme {k : TokenKind} (hend : k ≠ .endOfInput) (hnum : ∀ n, k = .number n → 0 ≤ n) :
    Denotes (String.ofList k.lexeme) k := by
  have hlongest := longestLexeme?_lexeme hnum hend k.endsBefore_nil
  obtain ⟨lexeme, after, hsplit, hlength, hkind⟩ := exists_denotes_of_longestLexeme? hlongest
  rw [List.append_nil] at hsplit
  have hafter : after = [] := by
    rw [hsplit, List.length_append] at hlength
    exact List.length_eq_zero_iff.1 (by omega)
  rw [hafter, List.append_nil] at hsplit
  rwa [hsplit]

theorem exists_writtenApart {kinds : List TokenKind} (hend : .endOfInput ∉ kinds)
    (hnum : ∀ n, .number n ∈ kinds → 0 ≤ n) : ∃ text, WrittenApart kinds text := by
  induction kinds with
  | nil => exact ⟨[], .nil⟩
  | cons k kinds ih =>
    rw [List.mem_cons, not_or] at hend
    obtain ⟨text, htext⟩ := ih hend.2 fun n hn => hnum n (List.mem_cons_of_mem k hn)
    have hkind := denotes_lexeme (Ne.symm hend.1) fun n hn => hnum n (hn ▸ List.mem_cons_self)
    exact ⟨_, .cons _ [' '] hkind (List.forall_mem_singleton.2 rfl) (fun _ => List.cons_ne_nil _ _) htext⟩

end Token

open Token Grammar

/-- The second text is read as the first one: it has tokens of the same kinds, is the same expression or
is refused for the same reason at the same token, and comes to the same when it is rolled. -/
structure SameReading (text : String) (tokens : List Token) (text' : String) (tokens' : List Token) : Prop where
  scanned : scan text' = .ok tokens'
  kinds : tokens'.map (·.kind) = tokens.map (·.kind)
  parsed : ∀ e, Expr.parse text = .ok e → Expr.parse text' = .ok e
  refused : ∀ error, Expr.parse text = .error error → ∃ (i : Nat) (t t' : Token) (kind : ParseErrorKind),
    tokens[i]? = some t ∧ tokens'[i]? = some t' ∧ error = .parse (.atToken t kind) ∧
      Expr.parse text' = .error (.parse (.atToken t' kind))
  rolled : ∀ e, Expr.parse text = .ok e → ∀ (ρ : Type) [Roller ρ] (roller : ρ) (limits : Limits),
    rollText text' roller limits = rollText text roller limits

theorem sameReading_of_kinds {text text' : String} {tokens tokens' : List Token}
    (hscan : scan text = .ok tokens) (hscan' : scan text' = .ok tokens')
    (hkinds : tokens'.map (·.kind) = tokens.map (·.kind)) : SameReading text tokens text' tokens' := by
  have hne : tokens ≠ [] := by
    have hshape := scan_scansTo text
    rw [hscan] at hshape
    obtain ⟨lexemes, rfl, -⟩ := hshape
    simp
  obtain ⟨hread, hrefused⟩ := Expr.ofTokens_of_kinds hne hkinds
  have hparse : Expr.parse text = (Expr.ofTokens tokens).mapError Error.parse := by
    rw [Expr.parse, hscan]
  have hparse' : Expr.parse text' = (Expr.ofTokens tokens').mapError Error.parse := by
    rw [Expr.parse, hscan']
  have hparsed : ∀ e, Expr.parse text = .ok e → Expr.parse text' = .ok e := by
    intro e he
    rw [hparse, mapError_eq_ok_iff] at he
    rw [hparse', hread e he]
    rfl
  refine ⟨hscan', hkinds, hparsed, fun error herror => ?_, fun e he ρ _ roller limits => ?_⟩
  · cases hr : Expr.ofTokens tokens with
    | ok e =>
      rw [hparse, hr] at herror
      cases herror
    | error parseError =>
      rw [hparse, hr] at herror
      cases herror
      obtain ⟨i, t, t', kind, ht, ht', rfl, hr'⟩ := hrefused _ hr
      exact ⟨i, t, t', kind, ht, ht', rfl, by rw [hparse', hr']; rfl⟩
  · rw [rollText, rollText, he, hparsed e he]

/-- Blanks that are put in between the tokens of a text, at its ends or anywhere else where no token is cut,
change nothing but positions. Lexemes of any kinds can be written apart and then scan to these kinds. -/
theorem blanks_insignificant :
    (∀ (text : String) (tokens : List Token), scan text = .ok tokens →
      (Between tokens 0 ∧ Between tokens text.utf8ByteSize ∧
        ∀ t ∈ tokens, Between tokens t.start ∧ Between tokens t.stop) ∧
      ∀ text' : String, BlanksAdded (Between tokens) 0 text.toList text'.toList →
        ∃ tokens', SameReading text tokens text' tokens') ∧
    ∀ kinds : List TokenKind, .endOfInput ∉ kinds → (∀ n, .number n ∈ kinds → IsWritable n) →
      (∃ text : String, WrittenApart kinds text.toList) ∧
      ∀ text : String, WrittenApart kinds text.toList →
        ∃ tokens, scan text = .ok tokens ∧ tokens.map (·.kind) = kinds ++ [.endOfInput] := by
  refine ⟨fun text tokens hscan => ⟨between_of_scan hscan, fun text' hadded => ?_⟩,
    fun kinds hend hnum => ⟨?_, fun text hwritten => ?_⟩⟩
  · obtain ⟨tokens', hscans, hkinds⟩ :=
      (scans_of_scanFrom hscan).of_blanksAdded (fun _ hq => hq) hadded 0
    exact ⟨tokens', sameReading_of_kinds hscan hscans.scanFrom_eq hkinds⟩
  · obtain ⟨text, hwritten⟩ := exists_writtenApart hend fun n hn => (hnum n hn).1
    exact ⟨String.ofList text, by rwa [String.toList_ofList]⟩
  · have hvalue : ∀ k ∈ kinds, hasValue k = true := by
      intro k hk
      cases k with
      | number n => exact decide_eq_true (hnum n hk).2
      | _ => rfl
    obtain ⟨tokens, hscans, hkinds⟩ := hwritten.exists_scans hvalue 0
    exact ⟨tokens, hscans.scanFrom_eq, hkinds⟩

theorem spreadText_insignificant :
    (∃ tokens tokens', SameReading "2d6kh+k" tokens "\t2 d6kh\n+k " tokens') ∧
      ∃ tokens, scan "r r" = .ok tokens ∧ tokens.map (·.kind) =
        [.keyword (.trigger (.reroll .once)), .keyword (.trigger (.reroll .once)), .endOfInput] := by
  obtain ⟨hadded, hapart⟩ := blanks_insignificant
  constructor
  · obtain ⟨tokens', hreading⟩ := (hadded "2d6kh+k" _ rfl).2 "\t2 d6kh\n+k " <|
      .add (by decide) (by decide) <| .keep '2' <| .add (by decide) (by decide) <| .keep 'd' <|
        .keep '6' <| .keep 'k' <| .keep 'h' <| .add (by decide) (by decide) <| .keep '+' <|
          .keep 'k' <| .add (by decide) (by decide) <| .nil _
    exact ⟨_, tokens', hreading⟩
  · have hreroll : Denotes (Keyword.trigger (.reroll .once)).text (.keyword (.trigger (.reroll .once))) :=
      .keyword _
    have hwritten := (hapart _ (by decide) (by simp)).2 "r r" <|
      .cons ['r'] [' '] hreroll (List.forall_mem_singleton.2 rfl) (fun _ => List.cons_ne_nil _ _) <|
        .cons ['r'] [] hreroll (by simp) (fun h => absurd rfl h) .nil
    exact hwritten

end DiceNotation
