import DiceNotation.Breakdown
import DiceNotation.Proofs.Alphabet
import DiceNotation.Proofs.RoundTrip

/-!
# Breakdowns without their brackets

A breakdown is the notation of an expression with the rolls of every group put behind it in brackets.
Nothing that is written of a die or of an expression has a bracket in it, so the brackets can be told
from the rest: once they are deleted with all that stands in them, the notation is left.
-/

namespace DiceNotation
open Grammar Token

/-- Deletes all that stands in brackets, and the brackets, where `depth` of them are open already. With
`blanks`, a blank in front of an outermost bracket goes with it. -/
def deleteBracketed (blanks : Bool) : Nat → List Char → List Char
  | _, [] => []
  | depth, c :: rest =>
    if c = '[' then deleteBracketed blanks (depth + 1) rest
    else if c = ']' then deleteBracketed blanks (depth - 1) rest
    else if 0 < depth ∨ (blanks ∧ c = ' ' ∧ rest.head? = some '[') then
      deleteBracketed blanks depth rest
    else c :: deleteBracketed blanks depth rest

/-- The text without its brackets, what they hold, and with `blanks` the blanks in front of them. -/
def withoutBrackets (blanks : Bool) (text : String) : String :=
  .ofList (deleteBracketed blanks 0 text.toList)

/-! ## Words -/

/-- Neither a bracket nor a blank is in the text. -/
def IsWord (text : String) : Prop := ∀ c ∈ text.toList, c ∉ ['[', ']', ' ']

instance (text : String) : Decidable (IsWord text) :=
  List.decidableBAll (· ∉ ['[', ']', ' ']) text.toList

namespace IsWord

theorem append {front back : String} (hfront : IsWord front) (hback : IsWord back) :
    IsWord (front ++ back) := by
  intro c hc
  rw [String.toList_append, List.mem_append] at hc
  exact hc.elim (hfront c) (hback c)

theorem ite {p : Prop} [Decidable p] {yes no : String} (hyes : IsWord yes) (hno : IsWord no) :
    IsWord (if p then yes else no) := by
  split
  · exact hyes
  · exact hno

/-- Brackets and blanks are not in the alphabet of groups and numbers. -/
theorem of_inAlphabet {text : String} (h : InAlphabet text) : IsWord text := by
  intro c hc hbad
  simp only [List.mem_cons, List.not_mem_nil, or_false] at hbad
  rcases hbad with rfl | rfl | rfl <;> exact h.not_mem (by decide) hc

theorem int (x : Int) : IsWord (toString x) := .of_inAlphabet (.int x)

end IsWord

theorem DiceGroup.isWord_render (g : DiceGroup) : IsWord g.render := .of_inAlphabet g.inAlphabet_render

namespace Style

/-- Whatever has happened to a die, it is written as a word. -/
def WritesWords (style : Style) : Prop := ∀ d sides, IsWord (style.die d sides)

theorem writesWords_of_face {style : Style} (h : ∀ d sides, IsWord (style.face d sides)) :
    style.WritesWords := by
  intro d sides
  have hexploded : IsWord (if d.exploded then "!" else "") := .ite (by decide) (by decide)
  have hsuccess : IsWord (if d.isKept && d.success == some true then "s" else "") :=
    .ite (by decide) (by decide)
  have hmarked := ((h d sides).append hexploded).append hsuccess
  unfold die
  cases d.status with
  | kept => exact hmarked
  | dropped => exact (IsWord.append (by decide) hmarked).append (by decide)
  | rerolled => exact hmarked.append (by decide)

theorem plain_writesWords : plain.WritesWords := by
  refine writesWords_of_face fun d sides => ?_
  exact .ite (.int d.value) (((IsWord.int d.rolled).append (by decide)).append (.int d.value))

theorem markdown_writesWords : markdown.WritesWords := by
  refine writesWords_of_face fun d sides => ?_
  have hbold : IsWord ("**" ++ toString d.rolled ++ "**") :=
    (IsWord.append (by decide) (.int d.rolled)).append (by decide)
  have hrolled : IsWord (if d.rolled = 1 ∨ d.rolled = sides.top then
      "**" ++ toString d.rolled ++ "**" else toString d.rolled) := .ite hbold (.int d.rolled)
  exact .ite hrolled ((hrolled.append (by decide)).append (.int d.value))

end Style

/-! ## Deleting -/

section Deleting

variable {blanks : Bool}

/-- Outside of brackets the characters of a word stay. -/
theorem deleteBracketed_word {word : List Char} (h : ∀ c ∈ word, c ∉ ['[', ']', ' '])
    (rest : List Char) :
    deleteBracketed blanks 0 (word ++ rest) = word ++ deleteBracketed blanks 0 rest := by
  induction word with
  | nil => rfl
  | cons c word ih =>
    have hc := h c List.mem_cons_self
    simp only [List.mem_cons, List.not_mem_nil, or_false, not_or] at hc
    obtain ⟨hopen, hclose, hblank⟩ := hc
    rw [List.cons_append, deleteBracketed, if_neg hopen, if_neg hclose, if_neg (by simp [hblank]),
      ih fun c' hc' => h c' (List.mem_cons_of_mem c hc'), List.cons_append]

/-- A blank stays unless a bracket opens behind it. -/
theorem deleteBracketed_blank {rest : List Char} (h : rest.head? ≠ some '[') :
    deleteBracketed blanks 0 (' ' :: rest) = ' ' :: deleteBracketed blanks 0 rest := by
  rw [deleteBracketed, if_neg (by decide), if_neg (by decide), if_neg (by simp [h])]

/-- Within brackets nothing stays. -/
theorem deleteBracketed_inside {inside : List Char} (h : ∀ c ∈ inside, c ≠ '[' ∧ c ≠ ']')
    (rest : List Char) :
    deleteBracketed blanks 1 (inside ++ ']' :: rest) = deleteBracketed blanks 0 rest := by
  induction inside with
  | nil => rfl
  | cons c inside ih =>
    obtain ⟨hopen, hclose⟩ := h c List.mem_cons_self
    rw [List.cons_append, deleteBracketed, if_neg hopen, if_neg hclose, if_pos (.inl Nat.one_pos)]
    exact ih fun c' hc' => h c' (List.mem_cons_of_mem c hc')

/-- The blank in front of brackets stays only if no blanks are deleted. -/
theorem deleteBracketed_brackets {inside : List Char} (h : ∀ c ∈ inside, c ≠ '[' ∧ c ≠ ']')
    (rest : List Char) :
    deleteBracketed blanks 0 (' ' :: '[' :: (inside ++ ']' :: rest)) =
      (if blanks then [] else [' ']) ++ deleteBracketed blanks 0 rest := by
  have hopened : deleteBracketed blanks 0 ('[' :: (inside ++ ']' :: rest)) =
      deleteBracketed blanks 0 rest := by
    rw [deleteBracketed, if_pos rfl]
    exact deleteBracketed_inside h rest
  rw [deleteBracketed, if_neg (by decide), if_neg (by decide), hopened]
  cases blanks with
  | true => simp
  | false => simp

/-- Deleting what is in brackets makes the one text of the other, whatever follows it. The text does not
start with a bracket, so that it does not take a blank in front of it along. -/
structure ReducesTo (blanks : Bool) (text plain : List Char) : Prop where
  head : ∃ c rest, text = c :: rest ∧ c ≠ '['
  delete : ∀ rest, deleteBracketed blanks 0 (text ++ rest) = plain ++ deleteBracketed blanks 0 rest

namespace ReducesTo

variable {text text' plain plain' : List Char}

theorem word {word : String} (h : IsWord word) (hne : word ≠ "") :
    ReducesTo blanks word.toList word.toList := by
  refine ⟨?_, deleteBracketed_word h⟩
  cases hword : word.toList with
  | nil => exact absurd (String.toList_eq_nil_iff.1 hword) hne
  | cons c rest =>
    refine ⟨c, rest, rfl, ?_⟩
    rintro rfl
    exact h '[' (hword ▸ List.mem_cons_self) List.mem_cons_self

theorem append (h : ReducesTo blanks text plain) (h' : ReducesTo blanks text' plain') :
    ReducesTo blanks (text ++ text') (plain ++ plain') := by
  obtain ⟨c, rest, rfl, hc⟩ := h.head
  refine ⟨⟨c, rest ++ text', rfl, hc⟩, fun rest' => ?_⟩
  rw [List.append_assoc, h.delete, h'.delete, List.append_assoc]

theorem blank (h : ReducesTo blanks text plain) : ReducesTo blanks (' ' :: text) (' ' :: plain) := by
  refine ⟨⟨' ', text, rfl, by decide⟩, fun rest => ?_⟩
  have hhead : (text ++ rest).head? ≠ some '[' := by
    obtain ⟨c, rest', rfl, hc⟩ := h.head
    simpa using hc
  rw [List.cons_append, deleteBracketed_blank hhead, h.delete, List.cons_append]

theorem parenthesize {text plain : String} (h : ReducesTo blanks text.toList plain.toList) (e : Expr)
    (least : Nat) :
    ReducesTo blanks (e.parenthesize text least).toList (e.parenthesize plain least).toList := by
  unfold Expr.parenthesize
  split
  · have hopen : ReducesTo blanks "(".toList "(".toList := .word (by decide) (by decide)
    have hclose : ReducesTo blanks ")".toList ")".toList := .word (by decide) (by decide)
    simp only [String.toList_append]
    exact (hopen.append h).append hclose
  · exact h

end ReducesTo

end Deleting

/-! ## Breakdowns -/

/-- A group as it is left when its rolls are deleted. -/
def DiceGroup.renderWithout (blanks : Bool) (g : DiceGroup) : String :=
  g.render ++ if blanks then "" else " "

theorem DiceGroup.render_ne_empty (g : DiceGroup) : g.render ≠ "" := by
  simp [render, String.append_eq_empty_iff]

theorem toString_ne_empty (x : Int) : toString x ≠ "" := by
  have hnat (n : Nat) : toString n ≠ "" := by
    intro hempty
    have hdigits := toList_toString_nat n
    rw [hempty] at hdigits
    exact Nat.toDigits_ne_nil hdigits.symm
  cases x with
  | ofNat n => exact hnat n
  | negSucc n =>
    intro hempty
    have hsign : toString (Int.negSucc n) = "-" ++ toString (n + 1) := rfl
    rw [hsign, String.append_eq_empty_iff] at hempty
    exact absurd hempty.1 (by decide)

namespace Style

variable {style : Style} {blanks : Bool}

/-- No die puts a bracket among those that stand around the rolls of its group. -/
theorem not_bracket_of_mem_dice (hstyle : style.WritesWords) (dice : List Die) (sides : Sides) :
    ∀ c ∈ (String.intercalate ", " (dice.map fun d => style.die d sides)).toList,
      c ≠ '[' ∧ c ≠ ']' := by
  rw [String.toList_intercalate, List.map_map]
  induction dice with
  | nil => exact fun c hc => by cases hc
  | cons d rest ih =>
    have hd : ∀ c ∈ (style.die d sides).toList, c ≠ '[' ∧ c ≠ ']' := by
      intro c hc
      have hword := hstyle d sides c hc
      simp only [List.mem_cons, List.not_mem_nil, or_false, not_or] at hword
      exact ⟨hword.1, hword.2.1⟩
    cases rest with
    | nil => simpa using hd
    | cons d' rest =>
      intro c hc
      simp only [List.map_cons, List.intercalate_cons_cons, List.mem_append] at hc ih
      rcases hc with (hc | hc) | hc
      · exact hd c hc
      · have hseparator : c = ',' ∨ c = ' ' := by simpa using hc
        rcases hseparator with rfl | rfl <;> decide
      · exact ih c hc

theorem reducesTo_group (hstyle : style.WritesWords) (g : DiceGroup) (dice : List Die) :
    ReducesTo blanks (style.group g dice).toList (g.renderWithout blanks).toList := by
  let inside := (String.intercalate ", " (dice.map fun d => style.die d g.sides)).toList
  have hinside : ∀ c ∈ inside, c ≠ '[' ∧ c ≠ ']' := not_bracket_of_mem_dice hstyle dice g.sides
  have htext : (style.group g dice).toList = g.render.toList ++ ' ' :: '[' :: (inside ++ [']']) := by
    simp [group, inside, String.toList_append]
  have hplain : (g.renderWithout blanks).toList = g.render.toList ++ if blanks then [] else [' '] := by
    cases blanks with
    | true | false => simp [DiceGroup.renderWithout, String.toList_append]
  rw [htext, hplain]
  refine ⟨?_, fun rest => ?_⟩
  · have hword : ReducesTo blanks g.render.toList g.render.toList :=
      .word g.isWord_render g.render_ne_empty
    obtain ⟨c, rest, hrender, hc⟩ := hword.head
    exact ⟨c, _, by rw [hrender, List.cons_append], hc⟩
  · simp only [List.append_assoc, List.cons_append, List.nil_append]
    rw [deleteBracketed_word g.isWord_render, deleteBracketed_brackets hinside rest]

theorem reducesTo_breakdownFrom (hstyle : style.WritesWords) (groups : List GroupRolls) (e : Expr)
    (next : Nat) :
    ReducesTo blanks (style.breakdownFrom groups e next).1.toList
      (e.renderWith (DiceGroup.renderWithout blanks)).toList := by
  induction e generalizing next with
  | literal x => exact .word (.int x) (toString_ne_empty x)
  | dice g => exact reducesTo_group hstyle g _
  | negate e ih =>
    have hsign : ReducesTo blanks "-".toList "-".toList := .word (by decide) (by decide)
    have hoperand := (ih next).parenthesize e Expr.negationPrecedence
    simp only [breakdownFrom, Expr.renderWith, String.toList_append]
    exact hsign.append hoperand
  | binary op l r ihl ihr =>
    have hleft := (ihl next).parenthesize l op.precedence
    have hright := (ihr (style.breakdownFrom groups l next).2).parenthesize r (op.precedence + 1)
    have hsymbol : ReducesTo blanks op.symbol.toList op.symbol.toList := by
      cases op with
      | add | sub | mul | div => exact .word (by decide) (by decide)
    have hall := hleft.append (hsymbol.append hright.blank).blank
    have hblank : " ".toList = [' '] := rfl
    simp only [breakdownFrom, Expr.renderWith, String.toList_append, hblank, List.append_assoc,
      List.cons_append, List.nil_append]
    exact hall

/-- Whatever the groups rolled, deleting their rolls leaves the notation. -/
theorem withoutBrackets_breakdown (hstyle : style.WritesWords) (e : Expr) (groups : List GroupRolls) :
    withoutBrackets blanks (style.breakdown e groups) =
      e.renderWith (DiceGroup.renderWithout blanks) := by
  have hreduces : ReducesTo blanks (style.breakdown e groups).toList
      (e.renderWith (DiceGroup.renderWithout blanks)).toList :=
    reducesTo_breakdownFrom hstyle groups e 0
  have hdelete := hreduces.delete []
  rw [List.append_nil, deleteBracketed, List.append_nil] at hdelete
  rw [withoutBrackets, hdelete, String.ofList_toList]

end Style

theorem Expr.renderWith_renderWithout_true (e : Expr) :
    e.renderWith (DiceGroup.renderWithout true) = e.render := by
  have hgroup : DiceGroup.renderWithout true = DiceGroup.render := by
    funext g
    exact String.append_empty
  rw [hgroup, e.renderWith_render]

/-- A blank that is left behind a group is skipped. -/
theorem Expr.parse_renderWithout {e : Expr} (he : e.Writable) (blanks : Bool) :
    Expr.parse (e.renderWith (DiceGroup.renderWithout blanks)) = .ok e := by
  have hgroup : ∀ {g : DiceGroup} {text kinds}, g.Writable → StartsNoDigit text →
      Lexes text kinds → Lexes ((g.renderWithout blanks).toList ++ text) (g.spelling ++ kinds) := by
    intro g text kinds hg hends h
    cases blanks with
    | true =>
      rw [DiceGroup.renderWithout, if_pos rfl, String.append_empty]
      exact DiceGroup.lexes hg hends h
    | false =>
      rw [DiceGroup.renderWithout, if_neg Bool.false_ne_true, String.toList_append, List.append_assoc]
      exact DiceGroup.lexes hg (startsNoDigit_cons (c := ' ') rfl text) (Lexes.blank rfl h)
  have hlexes := Expr.lexes_renderWith hgroup he (fun n => TokenKind.endsBefore_nil _) Lexes.nil
  rw [List.append_nil, List.append_nil] at hlexes
  exact Expr.parse_eq_ok_of_lexes he hlexes

/-- Without its brackets and the blanks in front of them a breakdown is the notation of its expression,
whatever rolls it was given, and an expression that was read from a text is read again from what is
left, with these blanks or without them. -/
theorem Style.breakdown_withoutBrackets {style : Style} (hstyle : style = plain ∨ style = markdown)
    (e : Expr) (groups : List GroupRolls) :
    withoutBrackets true (style.breakdown e groups) = e.render ∧
      ∀ text, Expr.parse text = .ok e → ∀ blanks,
        Expr.parse (withoutBrackets blanks (style.breakdown e groups)) = .ok e := by
  have hwords : style.WritesWords := by
    rcases hstyle with rfl | rfl
    · exact plain_writesWords
    · exact markdown_writesWords
  refine ⟨?_, fun text htext blanks => ?_⟩
  · rw [withoutBrackets_breakdown hwords, e.renderWith_renderWithout_true]
  · rw [withoutBrackets_breakdown hwords]
    exact Expr.parse_renderWithout (Expr.writable_of_parse htext) blanks

/-- A group without rolls beside one whose die exploded, was clamped below nothing, dropped, and marked
a success. -/
theorem Style.oddRolls_withoutBrackets :
    let e : Expr := .binary .sub (.dice ⟨.one, .usual, []⟩)
      (.binary .sub (.literal 4) (.negate (.dice ⟨.one, .usual, [.clamp (.maximum 0)]⟩)))
    let groups : List GroupRolls := [⟨1, 0, #[⟨0, 1, -3, .dropped, .explosion, true, some true⟩,
      ⟨7, 6, 6, .kept, .initial, true, some true⟩]⟩]
    markdown.breakdown e groups = "1d6 [] - (4 - -1d6ma0 [~~**1**->-3!~~, **6**!s])" ∧
      withoutBrackets true (markdown.breakdown e groups) = "1d6 - (4 - -1d6ma0)" ∧
      withoutBrackets false (markdown.breakdown e groups) = "1d6  - (4 - -1d6ma0 )" ∧
      ∀ blanks, Expr.parse (withoutBrackets blanks (markdown.breakdown e groups)) = .ok e := by
  intro e groups
  have hwritable : e.Writable := by
    simp [e, Expr.Writable, DiceGroup.Writable, Modifier.Writable, IsWritable, maxInt, DiceCount.one]
  have hmarkdown := breakdown_withoutBrackets (.inr rfl) e groups
  refine ⟨by decide +kernel, ?_, by decide +kernel, ?_⟩
  · rw [hmarkdown.1]
    decide +kernel
  · exact hmarkdown.2 _ (Expr.parse_renderWithout hwritable true)

end DiceNotation
