import DiceNotation.Expr.Parser

/-!
# The grammar of the notation

`Derives` says, production by production, which lists of token kinds spell which expression. Nothing
here reads tokens: the reader's stack and phases do not occur, so that the reader can be compared with
the grammar. Repetitions are written with their last item apart, which groups operators to the left.

The second half draws consequences that need no reader: a derived list never holds the end of the
input, and modifiers may be written behind those already there.
-/

namespace DiceNotation.Grammar

/-- The numbers that a token can hold: there is no sign, and a value has to fit. -/
def IsWritable (n : Int) : Prop := 0 ≤ n ∧ n ≤ maxInt

instance (n : Int) : Decidable (IsWritable n) := inferInstanceAs (Decidable (_ ∧ _))

/-- How many dice a selection is about: `[number]`, and one die without it. -/
inductive SpellsSelectionCount : List TokenKind → Nat → Prop
  | usual : SpellsSelectionCount [] 1
  | written (n : Nat) : SpellsSelectionCount [.number n] n

/-- A condition, `[[comparison] number]`; without a number the face has to be the `usual` one. -/
inductive SpellsCondition (usual : Int) : List TokenKind → Condition → Prop
  | usual : SpellsCondition usual [] ⟨.equal, usual⟩
  | bare (n : Int) : SpellsCondition usual [.number n] ⟨.equal, n⟩
  | compared (c : Comparison) (n : Int) :
      SpellsCondition usual [.comparison c, .number n] ⟨c, n⟩

/-- A modifier of dice with the given sides. Rerolls answer a one unless told otherwise; explosions
and successes answer the greatest face. -/
inductive SpellsModifier (sides : Sides) : List TokenKind → Modifier → Prop
  | keep {ts : List TokenKind} {n : Nat} (count : SpellsSelectionCount ts n) :
      SpellsModifier sides (.keyword .keep :: ts) (.select ⟨.keep, .highest, n⟩)
  | select (action : Action) (rank : Rank) {ts : List TokenKind} {n : Nat}
      (count : SpellsSelectionCount ts n) :
      SpellsModifier sides (.keyword (.select action rank) :: ts) (.select ⟨action, rank, n⟩)
  | minimum (n : Int) :
      SpellsModifier sides [.keyword .minimum, .number n] (.clamp (.minimum n))
  | maximum (n : Int) :
      SpellsModifier sides [.keyword .maximum, .number n] (.clamp (.maximum n))
  | reroll (repeats : Repeats) {ts : List TokenKind} {c : Condition}
      (condition : SpellsCondition 1 ts c) :
      SpellsModifier sides (.keyword (.trigger (.reroll repeats)) :: ts) (.reroll repeats c)
  | explode (repeats : Repeats) {ts : List TokenKind} {c : Condition}
      (condition : SpellsCondition sides.top ts c) :
      SpellsModifier sides (.keyword (.trigger (.explode repeats)) :: ts) (.explode repeats c)
  | countSuccesses {ts : List TokenKind} {c : Condition}
      (condition : SpellsCondition sides.top ts c) :
      SpellsModifier sides (.keyword (.trigger .countSuccesses) :: ts) (.countSuccesses c)

/-- `modifier*`, in the written order. -/
inductive SpellsModifiers (sides : Sides) : List TokenKind → List Modifier → Prop
  | nil : SpellsModifiers sides [] []
  | cons {ts us : List TokenKind} {m : Modifier} {ms : List Modifier}
      (head : SpellsModifier sides ts m) (tail : SpellsModifiers sides us ms) :
      SpellsModifiers sides (ts ++ us) (m :: ms)

/-- `[number]` in front of the `d`: from one to the greatest value, and one die without it. -/
inductive SpellsCount : List TokenKind → DiceCount → Prop
  | usual : SpellsCount [] .one
  | written (count : DiceCount) (small : (count.toNat : Int) ≤ maxInt) :
      SpellsCount [.number count.toNat] count

/-- `[number | '%']` behind the `d`: as many sides as a die can have, a hundred for the percent sign,
and six without either. -/
inductive SpellsSides : List TokenKind → Sides → Prop
  | usual : SpellsSides [] .usual
  | percent : SpellsSides [.percent] .percentile
  | written (sides : Sides) : SpellsSides [.number sides.toNat] sides

/-- `[number] 'd' [number | '%'] modifier*`. -/
inductive SpellsDice : List TokenKind → DiceGroup → Prop
  | group {cs ss ms : List TokenKind} {count : DiceCount} {sides : Sides}
      {modifiers : List Modifier} (hcount : SpellsCount cs count) (hsides : SpellsSides ss sides)
      (hmodifiers : SpellsModifiers sides ms modifiers) :
      SpellsDice (cs ++ .dice :: (ss ++ ms)) ⟨count, sides, modifiers⟩

/-- The nonterminals that nest. -/
inductive Level where
  | expression | term | factor
  deriving DecidableEq, Repr

/-- Which expression a list of token kinds spells as a whole expression, a term or a factor. -/
inductive Derives : Level → List TokenKind → Expr → Prop
  | literal (n : Int) : Derives .factor [.number n] (.literal n)
  | dice {ts : List TokenKind} {g : DiceGroup} (group : SpellsDice ts g) :
      Derives .factor ts (.dice g)
  | negate {ts : List TokenKind} {e : Expr} (operand : Derives .factor ts e) :
      Derives .factor (.operator .sub :: ts) (.negate e)
  | parentheses {ts : List TokenKind} {e : Expr} (inner : Derives .expression ts e) :
      Derives .factor (.openParen :: (ts ++ [.closeParen])) e
  | factor {ts : List TokenKind} {e : Expr} (single : Derives .factor ts e) : Derives .term ts e
  | product {ls rs : List TokenKind} {l r : Expr} (op : BinaryOp) (hop : op = .mul ∨ op = .div)
      (left : Derives .term ls l) (right : Derives .factor rs r) :
      Derives .term (ls ++ .operator op :: rs) (.binary op l r)
  | term {ts : List TokenKind} {e : Expr} (single : Derives .term ts e) : Derives .expression ts e
  | sum {ls rs : List TokenKind} {l r : Expr} (op : BinaryOp) (hop : op = .add ∨ op = .sub)
      (left : Derives .expression ls l) (right : Derives .term rs r) :
      Derives .expression (ls ++ .operator op :: rs) (.binary op l r)

/-! ## The end of the input is never part of an expression -/

theorem SpellsModifier.endOfInput_not_mem {sides : Sides} {ts : List TokenKind} {m : Modifier}
    (h : SpellsModifier sides ts m) : .endOfInput ∉ ts := by
  cases h with
  | keep count | select _ _ count => cases count <;> simp
  | minimum | maximum => simp
  | reroll _ condition | explode _ condition | countSuccesses condition => cases condition <;> simp

theorem SpellsModifiers.endOfInput_not_mem {sides : Sides} {ts : List TokenKind}
    {ms : List Modifier} (h : SpellsModifiers sides ts ms) : .endOfInput ∉ ts := by
  induction h with
  | nil => simp
  | cons head _ ih => simp [head.endOfInput_not_mem, ih]

theorem SpellsDice.endOfInput_not_mem {ts : List TokenKind} {g : DiceGroup}
    (h : SpellsDice ts g) : .endOfInput ∉ ts := by
  obtain ⟨hcount, hsides, hmodifiers⟩ := h
  have := hmodifiers.endOfInput_not_mem
  cases hcount <;> cases hsides <;> simpa

theorem Derives.endOfInput_not_mem {level : Level} {ts : List TokenKind} {e : Expr}
    (h : Derives level ts e) : .endOfInput ∉ ts := by
  induction h with
  | literal => simp
  | dice group => exact group.endOfInput_not_mem
  | negate _ ih | parentheses _ ih => simpa using ih
  | factor _ ih | term _ ih => exact ih
  | product _ _ _ _ ihl ihr | sum _ _ _ _ ihl ihr => simp [ihl, ihr]

/-- Modifiers may be added behind those already there. -/
theorem SpellsModifiers.append {sides : Sides} {ts us : List TokenKind} {ms ns : List Modifier}
    (h : SpellsModifiers sides ts ms) (h' : SpellsModifiers sides us ns) :
    SpellsModifiers sides (ts ++ us) (ms ++ ns) := by
  induction h with
  | nil => exact h'
  | cons head _ ih =>
    rw [List.append_assoc]
    exact .cons head ih

theorem SpellsDice.addModifier {ts us : List TokenKind} {g : DiceGroup} {m : Modifier}
    (h : SpellsDice ts g) (h' : SpellsModifier g.sides us m) :
    SpellsDice (ts ++ us) (g.addModifier m) := by
  obtain ⟨hcount, hsides, hmodifiers⟩ := h
  have hm : SpellsModifiers _ (us ++ []) [m] := .cons h' .nil
  rw [List.append_nil] at hm
  simpa [DiceGroup.addModifier] using SpellsDice.group hcount hsides (hmodifiers.append hm)

end DiceNotation.Grammar
