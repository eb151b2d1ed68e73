import DiceNotation.Expr.Printer
import DiceNotation.Proofs.Writable

/-!
# What is written is read back

The notation of an expression is compared with the list of token kinds it is made of, its spelling. The
grammar derives the expression from its spelling, because parentheses stand wherever a level needs
them. The text scans to its spelling, because no piece of it is extended by the next one: a number is
followed by no digit, and a keyword or comparison by a number or a comparison sign.
-/

namespace DiceNotation
open Grammar TokenKind

def Condition.spelling (c : Condition) : List TokenKind :=
  match c.comparison with
  | .equal => [number c.bound]
  | sign => [TokenKind.comparison sign, number c.bound]

def Modifier.spelling : Modifier → List TokenKind
  | select s => [keyword (.select s.action s.rank), number s.count]
  | clamp (.minimum bound) => [keyword .minimum, number bound]
  | clamp (.maximum bound) => [keyword .maximum, number bound]
  | reroll repeats c => keyword (.trigger (.reroll repeats)) :: c.spelling
  | explode repeats c => keyword (.trigger (.explode repeats)) :: c.spelling
  | countSuccesses c => keyword (.trigger .countSuccesses) :: c.spelling

def DiceGroup.spelling (g : DiceGroup) : List TokenKind :=
  number g.count.toNat :: TokenKind.dice :: number g.sides.toNat ::
    g.modifiers.flatMap Modifier.spelling

/-- Encloses the spelling of an operand that binds less tightly than `least`. -/
def Expr.enclose (operand : Expr) (kinds : List TokenKind) (least : Nat) : List TokenKind :=
  if operand.precedence < least then openParen :: (kinds ++ [closeParen]) else kinds

/-- The kinds of the tokens that the notation is made of. -/
def Expr.spelling : Expr → List TokenKind
  | literal x => [number x]
  | dice g => g.spelling
  | negate e => operator .sub :: e.enclose e.spelling negationPrecedence
  | binary op l r =>
    l.enclose l.spelling op.precedence ++ operator op :: r.enclose r.spelling (op.precedence + 1)

/-! ## The grammar derives an expression from its spelling -/

theorem Condition.spellsCondition (c : Condition) (usual : Int) :
    SpellsCondition usual c.spelling c := by
  obtain ⟨sign, bound⟩ := c
  cases sign with
  | equal => exact .bare bound
  | less | greater | lessEqual | greaterEqual => exact .compared _ bound

theorem Modifier.spellsModifier (m : Modifier) (sides : Sides) :
    SpellsModifier sides m.spelling m := by
  cases m with
  | select s => exact .select s.action s.rank (.written s.count)
  | clamp c =>
    cases c with
    | minimum bound => exact .minimum bound
    | maximum bound => exact .maximum bound
  | reroll repeats c => exact .reroll repeats (c.spellsCondition 1)
  | explode repeats c => exact .explode repeats (c.spellsCondition sides.top)
  | countSuccesses c => exact .countSuccesses (c.spellsCondition sides.top)

theorem spellsModifiers_flatMap (sides : Sides) (ms : List Modifier) :
    SpellsModifiers sides (ms.flatMap Modifier.spelling) ms := by
  induction ms with
  | nil => exact .nil
  | cons m ms ih => exact .cons (m.spellsModifier sides) ih

theorem DiceGroup.spellsDice {g : DiceGroup} (h : g.Writable) : SpellsDice g.spelling g := by
  obtain ⟨count, sides, modifiers⟩ := g
  exact .group (.written count h.1) (.written sides) (spellsModifiers_flatMap sides modifiers)

namespace Expr
open Reading

/-- The part of the grammar that an expression of this precedence is. -/
def levelOf (precedence : Nat) : Level :=
  if precedence ≤ 1 then .expression else if precedence = 2 then .term else .factor

theorem levelPrecedence_levelOf {precedence : Nat} (hpos : 1 ≤ precedence) :
    levelPrecedence (levelOf precedence) = min precedence 3 := by
  unfold levelOf
  split
  · simp only [levelPrecedence]
    omega
  · split <;> simp only [levelPrecedence] <;> omega

theorem one_le_precedence (e : Expr) : 1 ≤ e.precedence := by
  cases e with
  | binary op => cases op <;> simp [precedence, BinaryOp.precedence]
  | literal | dice | negate => simp [precedence, negationPrecedence]

/-- An enclosed operand can stand wherever its bound says. -/
theorem derives_enclose {e : Expr} (h : Derives (levelOf e.precedence) e.spelling e)
    {level : Level} {least : Nat} (hleast : levelPrecedence level = least) :
    Derives level (e.enclose e.spelling least) e := by
  have hprec := levelPrecedence_levelOf e.one_le_precedence
  have hpos := e.one_le_precedence
  have hthree : levelPrecedence level ≤ 3 := by cases level <;> decide
  unfold enclose
  split
  · have hinner : Derives .expression e.spelling e := by
      apply derives_of_le h
      rw [hprec]
      show 1 ≤ _
      omega
    exact derives_of_le (.parentheses hinner) hthree
  · exact derives_of_le h (by omega)

theorem derives_spelling {e : Expr} (h : e.Writable) :
    Derives (levelOf e.precedence) e.spelling e := by
  induction e with
  | literal x => exact .literal x
  | dice g => exact .dice (DiceGroup.spellsDice h)
  | negate e ih => exact .negate (derives_enclose (ih h) rfl)
  | binary op l r ihl ihr =>
    have hlevel : ∃ level level', levelOf op.precedence = level ∧
        op.precedence = levelPrecedence level ∧ op.precedence + 1 = levelPrecedence level' := by
      cases op
      case add | sub => exact ⟨.expression, .term, rfl, rfl, rfl⟩
      case mul | div => exact ⟨.term, .factor, rfl, rfl, rfl⟩
    obtain ⟨level, level', hop, hl, hr⟩ := hlevel
    simp only [precedence, hop, spelling]
    exact derives_binary (derives_enclose (ihl h.1) hl.symm) (derives_enclose (ihr h.2) hr.symm) hl
      (by omega)

end Expr

/-! ## The text scans to the spelling -/

open Token

theorem toList_toString_nat (n : Nat) : (toString n).toList = (number n).lexeme := by
  simp [lexeme]

theorem toList_toString_int {x : Int} (h : 0 ≤ x) : (toString x).toList = (number x).lexeme := by
  obtain ⟨n, rfl⟩ := Int.eq_ofNat_of_zero_le h
  exact toList_toString_nat n

theorem Lexes.number {x : Int} (hx : IsWritable x) {text : List Char} {kinds : List TokenKind}
    (hends : (TokenKind.number x).EndsBefore text) (h : Lexes text kinds) :
    Lexes ((toString x).toList ++ text) (.number x :: kinds) := by
  rw [toList_toString_int hx.1]
  refine Lexes.lexeme (by simp) ?_ hends h
  rintro n ⟨⟩
  exact hx

/-- A sign or a word is never extended by a digit. -/
theorem isExtendedBy_of_isDigit {k : TokenKind} (hk : ∀ n, k ≠ TokenKind.number n) {c : Char}
    (hc : c.isDigit = true) : k.isExtendedBy c = false := by
  have hne : ∀ d : Char, d.isDigit = false → (d == c) = false := by
    intro d hd
    rw [beq_eq_false_iff_ne]
    rintro rfl
    rw [hc] at hd
    cases hd
  unfold isExtendedBy
  split
  · exact absurd rfl (hk _)
  all_goals first | rfl | simp [hne]

theorem endsBefore_number {k : TokenKind} (hk : ∀ n, k ≠ TokenKind.number n) {x : Int} (hx : 0 ≤ x)
    (text : List Char) : k.EndsBefore ((toString x).toList ++ text) := by
  rw [toList_toString_int hx]
  cases hcase : Nat.toDigits 10 x.toNat with
  | nil => exact absurd hcase Nat.toDigits_ne_nil
  | cons c cs =>
    have hc : c.isDigit = true :=
      Nat.isDigit_of_mem_toDigits (by decide) (by decide) (hcase ▸ List.mem_cons_self)
    rw [lexeme, hcase, List.cons_append, endsBefore_cons]
    exact isExtendedBy_of_isDigit hk hc

variable {text : List Char} {kinds : List TokenKind}

/-- No digit comes first, so that a number can end here. -/
def StartsNoDigit (text : List Char) : Prop := ∀ n, (TokenKind.number n).EndsBefore text

theorem startsNoDigit_cons {c : Char} (hc : c.isDigit = false) (text : List Char) :
    StartsNoDigit (c :: text) := fun _ => endsBefore_cons.2 hc

/-- No word that takes a condition is extended by a comparison sign. -/
theorem endsBefore_symbol (t : Trigger) (sign : Comparison) (text : List Char) :
    (keyword (.trigger t)).EndsBefore (sign.symbol.toList ++ text) := by
  rcases t with ⟨_ | _⟩ | ⟨_ | _⟩ | _ <;> cases sign <;> exact endsBefore_cons.2 rfl

/-- A condition follows its trigger without a break. -/
theorem Condition.lexes_trigger {c : Condition} (hc : IsWritable c.bound) (t : Trigger)
    (hends : StartsNoDigit text) (h : Lexes text kinds) :
    Lexes ((t.text ++ c.render).toList ++ text) (keyword (.trigger t) :: (c.spelling ++ kinds)) := by
  obtain ⟨sign, bound⟩ := c
  have hbound : Lexes ((toString bound).toList ++ text) (.number bound :: kinds) :=
    Lexes.number hc (hends bound) h
  rw [String.toList_append, List.append_assoc]
  by_cases hsign : sign = .equal
  · subst hsign
    have hword := endsBefore_number (k := keyword (.trigger t)) (by simp) hc.1 text
    exact Lexes.lexeme (by simp) (by simp) hword hbound
  · have hrender : (render ⟨sign, bound⟩).toList ++ text =
        (TokenKind.comparison sign).lexeme ++ ((toString bound).toList ++ text) := by
      rw [← List.append_assoc]
      cases sign <;> first | contradiction | exact congrArg (· ++ text) String.toList_append
    have hspelling : spelling ⟨sign, bound⟩ = [TokenKind.comparison sign, .number bound] := by
      cases sign <;> first | contradiction | rfl
    have hcomparison := endsBefore_number (k := TokenKind.comparison sign) (by simp) hc.1 text
    rw [hrender, hspelling]
    refine Lexes.lexeme (by simp) (by simp) (endsBefore_symbol t sign _) ?_
    exact Lexes.lexeme (by simp) (by simp) hcomparison hbound

/-- A word and the number behind it. -/
theorem lexes_word_number (word : Keyword) {x : Int} (hx : IsWritable x)
    (hends : StartsNoDigit text) (h : Lexes text kinds) :
    Lexes ((word.text ++ toString x).toList ++ text) (keyword word :: .number x :: kinds) := by
  have hword := endsBefore_number (k := keyword word) (by simp) hx.1 text
  rw [String.toList_append, List.append_assoc]
  exact Lexes.lexeme (by simp) (by simp) hword (Lexes.number hx (hends x) h)

theorem Selection.keyword_eq (s : Selection) : s.keyword = (Keyword.select s.action s.rank).text := by
  obtain ⟨_ | _, _ | _, count⟩ := s <;> rfl

theorem Modifier.lexes {m : Modifier} (hm : m.Writable) (hends : StartsNoDigit text)
    (h : Lexes text kinds) : Lexes (m.render.toList ++ text) (m.spelling ++ kinds) := by
  cases m with
  | select s =>
    have hcount : IsWritable s.count := ⟨Int.natCast_nonneg _, hm⟩
    have hlexes := lexes_word_number (.select s.action s.rank) hcount hends h
    rwa [← Selection.keyword_eq] at hlexes
  | clamp c =>
    cases c with
    | minimum bound => exact lexes_word_number .minimum hm hends h
    | maximum bound => exact lexes_word_number .maximum hm hends h
  | reroll repeats c =>
    have hlexes := Condition.lexes_trigger hm (.reroll repeats) hends h
    cases repeats <;> exact hlexes
  | explode repeats c =>
    have hlexes := Condition.lexes_trigger hm (.explode repeats) hends h
    cases repeats <;> exact hlexes
  | countSuccesses c => exact Condition.lexes_trigger hm .countSuccesses hends h

theorem text_head (word : Keyword) : ∃ c cs, word.text.toList = c :: cs ∧ c.isDigit = false := by
  rcases word with _ | ⟨_ | _, _ | _⟩ | _ | _ | ⟨_ | _⟩ | ⟨_ | _⟩ | _ <;>
    exact ⟨_, _, rfl, by decide⟩

/-- Every modifier starts with its word. -/
theorem Modifier.render_eq (m : Modifier) : ∃ word rest, m.render = Keyword.text word ++ rest := by
  cases m with
  | select s =>
    exact ⟨.select s.action s.rank, toString s.count, congrArg (· ++ _) s.keyword_eq⟩
  | clamp c =>
    cases c with
    | minimum bound => exact ⟨.minimum, toString bound, rfl⟩
    | maximum bound => exact ⟨.maximum, toString bound, rfl⟩
  | reroll repeats c => exact ⟨.trigger (.reroll repeats), c.render, by cases repeats <;> rfl⟩
  | explode repeats c => exact ⟨.trigger (.explode repeats), c.render, by cases repeats <;> rfl⟩
  | countSuccesses c => exact ⟨.trigger .countSuccesses, c.render, rfl⟩

theorem Modifier.startsNoDigit (m : Modifier) (text : List Char) :
    StartsNoDigit (m.render.toList ++ text) := by
  obtain ⟨word, rest, hrender⟩ := m.render_eq
  obtain ⟨c, cs, hword, hc⟩ := text_head word
  rw [hrender, String.toList_append, hword]
  exact startsNoDigit_cons hc _

theorem lexes_modifiers {ms : List Modifier} (hms : ∀ m ∈ ms, m.Writable)
    (hends : StartsNoDigit text) (h : Lexes text kinds) :
    StartsNoDigit ((String.join (ms.map Modifier.render)).toList ++ text) ∧
      Lexes ((String.join (ms.map Modifier.render)).toList ++ text)
        (ms.flatMap Modifier.spelling ++ kinds) := by
  induction ms with
  | nil => exact ⟨by simpa using hends, by simpa using h⟩
  | cons m ms ih =>
    obtain ⟨hends', hlexes⟩ := ih fun m hm => hms m (by simp [hm])
    simp only [List.map_cons, String.join_cons, String.toList_append, List.append_assoc,
      List.flatMap_cons]
    exact ⟨m.startsNoDigit _, Modifier.lexes (hms m (by simp)) hends' hlexes⟩

theorem DiceGroup.lexes {g : DiceGroup} (hg : g.Writable) (hends : StartsNoDigit text)
    (h : Lexes text kinds) : Lexes (g.render.toList ++ text) (g.spelling ++ kinds) := by
  obtain ⟨hends', hlexes⟩ := lexes_modifiers hg.2 hends h
  have hcount : IsWritable g.count.toNat := ⟨Int.natCast_nonneg _, hg.1⟩
  have hsides : IsWritable g.sides.toNat := writable_top g.sides
  have hdice := endsBefore_number (k := TokenKind.dice) (by simp) hsides.1
    ((String.join (g.modifiers.map Modifier.render)).toList ++ text)
  simp only [DiceGroup.render, String.toList_append, List.append_assoc]
  refine Lexes.number hcount (startsNoDigit_cons rfl _ _) ?_
  refine Lexes.lexeme (k := TokenKind.dice) (by simp) (by simp) hdice ?_
  exact Lexes.number hsides (hends' _) hlexes

/-- An operand in parentheses scans if the operand does, whatever follows it. -/
theorem Expr.lexes_parenthesize {e : Expr} {text' : String}
    (he : ∀ {text kinds}, StartsNoDigit text → Lexes text kinds →
      Lexes (text'.toList ++ text) (e.spelling ++ kinds))
    (least : Nat) (hends : StartsNoDigit text) (h : Lexes text kinds) :
    Lexes ((e.parenthesize text' least).toList ++ text) (e.enclose e.spelling least ++ kinds) := by
  unfold parenthesize enclose
  split
  · simp only [String.toList_append, List.append_assoc, List.cons_append]
    have hclose : Lexes (')' :: text) (closeParen :: kinds) :=
      Lexes.lexeme (k := closeParen) (by simp) (by simp) (fun _ _ => rfl) h
    have hinner := he (startsNoDigit_cons (by decide) text) hclose
    exact Lexes.lexeme (k := openParen) (by simp) (by simp) (fun _ _ => rfl) hinner
  · exact he hends h

/-- The notation of an expression whose groups are written by `write`. -/
def Expr.renderWith (write : DiceGroup → String) : Expr → String
  | literal x => toString x
  | dice g => write g
  | negate e => "-" ++ parenthesize e (e.renderWith write) negationPrecedence
  | binary op l r =>
    parenthesize l (l.renderWith write) op.precedence ++ " " ++ op.symbol ++ " " ++
      parenthesize r (r.renderWith write) (op.precedence + 1)

theorem Expr.renderWith_render (e : Expr) : e.renderWith DiceGroup.render = e.render := by
  induction e with
  | literal x => rfl
  | dice g => rfl
  | negate e ih => rw [renderWith, ih, render]
  | binary op l r ihl ihr => rw [renderWith, ihl, ihr, render]

/-- An expression scans to its spelling if its groups are written so that they do. -/
theorem Expr.lexes_renderWith {write : DiceGroup → String}
    (hwrite : ∀ {g : DiceGroup} {text kinds}, g.Writable → StartsNoDigit text → Lexes text kinds →
      Lexes ((write g).toList ++ text) (g.spelling ++ kinds))
    {e : Expr} (he : e.Writable) {text : List Char} {kinds : List TokenKind}
    (hends : StartsNoDigit text) (h : Lexes text kinds) :
    Lexes ((e.renderWith write).toList ++ text) (e.spelling ++ kinds) := by
  induction e generalizing text kinds with
  | literal x => exact Lexes.number he (hends x) h
  | dice g => exact hwrite he hends h
  | negate e ih =>
    have hoperand := lexes_parenthesize (fun ht hk => ih he ht hk) negationPrecedence hends h
    simp only [renderWith, String.toList_append, List.append_assoc]
    exact Lexes.lexeme (k := operator .sub) (by simp) (by simp) (fun _ _ => rfl) hoperand
  | binary op l r ihl ihr =>
    have hright := lexes_parenthesize (fun ht hk => ihr he.2 ht hk) (op.precedence + 1) hends h
    have hop := Lexes.lexeme (k := operator op) (by simp) (by simp)
      (fun _ _ => rfl) (Lexes.blank (c := ' ') rfl hright)
    have hleft := lexes_parenthesize (fun ht hk => ihl he.1 ht hk) op.precedence
      (startsNoDigit_cons (c := ' ') rfl _) (Lexes.blank rfl hop)
    simp only [renderWith, spelling, String.toList_append, List.append_assoc, List.cons_append]
    exact hleft

/-- The notation of an expression scans to its spelling. -/
theorem Expr.lexes {e : Expr} (he : e.Writable) {text : List Char} {kinds : List TokenKind}
    (hends : StartsNoDigit text) (h : Lexes text kinds) :
    Lexes (e.render.toList ++ text) (e.spelling ++ kinds) := by
  rw [← e.renderWith_render]
  exact lexes_renderWith (fun hg ht hk => DiceGroup.lexes hg ht hk) he hends h

/-- A text that scans to the spelling of an expression is read as the expression. -/
theorem Expr.parse_eq_ok_of_lexes {e : Expr} (he : e.Writable) {text : String}
    (h : Lexes text.toList e.spelling) : Expr.parse text = .ok e := by
  obtain ⟨tokens, hscan, hkinds⟩ := h 0
  have hderives : Derives .expression e.spelling e := by
    have hpos := e.one_le_precedence
    apply Reading.derives_of_le (derives_spelling he)
    rw [levelPrecedence_levelOf hpos]
    show 1 ≤ _
    omega
  exact parse_eq_ok_iff.2 ⟨tokens, hscan, ofTokens_of_derives hkinds hderives⟩

/-- The expressions that texts denote are those whose numbers can stand in a text, and of these each
is denoted by its own notation. -/
theorem Expr.parse_render :
    (∀ e : Expr, e.Writable → Expr.parse e.render = .ok e) ∧
      ∀ text e, Expr.parse text = .ok e → e.Writable := by
  refine ⟨fun e he => ?_, fun text e h => writable_of_parse h⟩
  have hlexes := Expr.lexes he (fun n => endsBefore_nil _) Lexes.nil
  rw [List.append_nil, List.append_nil] at hlexes
  exact parse_eq_ok_of_lexes he hlexes

/-- Differences to the right of a minus, a sign in front of dice, and modifiers of every kind. -/
def crowdedExpr : Expr :=
  .binary .sub (.literal 1) (.binary .sub (.literal 2) (.negate (.dice ⟨⟨3, by decide, by decide⟩,
    .usual, [.reroll .recursive ⟨.less, 2⟩, .explode .once ⟨.equal, 5⟩, .select ⟨.drop, .highest, 1⟩,
      .clamp (.minimum 2), .countSuccesses ⟨.greaterEqual, 7⟩]⟩)))

theorem crowdedExpr_parse : crowdedExpr.Writable ∧
    crowdedExpr.render = "1 - (2 - -3d6rr<2!o5dh1mi2cs>=7)" ∧
    Expr.parse crowdedExpr.render = .ok crowdedExpr := by
  have hwritable : crowdedExpr.Writable := by
    simp [crowdedExpr, Expr.Writable, DiceGroup.Writable, Modifier.Writable, IsWritable, maxInt]
  exact ⟨hwritable, by decide +kernel, Expr.parse_render.1 crowdedExpr hwritable⟩

end DiceNotation
