import DiceNotation.Error
import DiceNotation.Proofs.Lexemes
import DiceNotation.Proofs.Reader.Acceptance

/-!
# Expressions that a text can denote

The notation has no sign inside a number and no number beyond the greatest value. `Expr.Writable` says
that an expression respects both, and every expression that is read from a text does.
-/

namespace DiceNotation
open Grammar (IsWritable)

theorem mapError_eq_ok_iff {ε ε' α : Type} {r : Except ε α} {conv : ε → ε'} {x : α} :
    r.mapError conv = .ok x ↔ r = .ok x := by
  cases r with
  | error e =>
    constructor
    · intro h
      cases h
    · intro h
      cases h
  | ok y =>
    constructor
    · intro h
      cases h
      rfl
    · intro h
      cases h
      rfl

/-- The number of the modifier can stand in a text. -/
def Modifier.Writable : Modifier → Prop
  | select s => (s.count : Int) ≤ maxInt
  | clamp (.minimum bound) | clamp (.maximum bound) => IsWritable bound
  | reroll _ c | explode _ c | countSuccesses c => IsWritable c.bound

def DiceGroup.Writable (g : DiceGroup) : Prop :=
  (g.count.toNat : Int) ≤ maxInt ∧ ∀ m ∈ g.modifiers, m.Writable

/-- Every number of the expression can stand in a text. -/
def Expr.Writable : Expr → Prop
  | literal x => IsWritable x
  | dice g => g.Writable
  | negate e => e.Writable
  | binary _ l r => l.Writable ∧ r.Writable

namespace Grammar

theorem writable_one : IsWritable 1 := by decide

theorem writable_top (s : Sides) : IsWritable s.top := by
  have := s.le_max
  simp only [IsWritable, Sides.top, maxInt, maxSides] at *
  omega

theorem SpellsSelectionCount.le_maxInt {ts : List TokenKind} {n : Nat}
    (h : SpellsSelectionCount ts n) (hnum : ∀ n, .number n ∈ ts → IsWritable n) :
    (n : Int) ≤ maxInt := by
  cases h with
  | usual => decide
  | written => exact (hnum n (by simp)).2

theorem SpellsCondition.writable {usual : Int} {ts : List TokenKind} {c : Condition}
    (h : SpellsCondition usual ts c) (husual : IsWritable usual)
    (hnum : ∀ n, .number n ∈ ts → IsWritable n) : IsWritable c.bound := by
  cases h with
  | usual => exact husual
  | bare n | compared _ n => exact hnum n (by simp)

theorem SpellsModifier.writable {sides : Sides} {ts : List TokenKind} {m : Modifier}
    (h : SpellsModifier sides ts m) (hnum : ∀ n, .number n ∈ ts → IsWritable n) : m.Writable := by
  cases h with
  | keep count | select _ _ count =>
    exact count.le_maxInt fun n hn => hnum n (by simp [hn])
  | minimum n | maximum n => exact hnum n (by simp)
  | reroll _ condition =>
    exact condition.writable writable_one fun n hn => hnum n (by simp [hn])
  | explode _ condition | countSuccesses condition =>
    exact condition.writable (writable_top sides) fun n hn => hnum n (by simp [hn])

theorem SpellsModifiers.writable {sides : Sides} {ts : List TokenKind} {ms : List Modifier}
    (h : SpellsModifiers sides ts ms) (hnum : ∀ n, .number n ∈ ts → IsWritable n) :
    ∀ m ∈ ms, m.Writable := by
  induction h with
  | nil => simp
  | cons head _ ih =>
    have hhead := head.writable fun n hn => hnum n (by simp [hn])
    have htail := ih fun n hn => hnum n (by simp [hn])
    simpa using ⟨hhead, htail⟩

theorem SpellsDice.writable {ts : List TokenKind} {g : DiceGroup} (h : SpellsDice ts g)
    (hnum : ∀ n, .number n ∈ ts → IsWritable n) : g.Writable := by
  obtain ⟨hcount, hsides, hmodifiers⟩ := h
  refine ⟨?_, hmodifiers.writable fun n hn => hnum n (by simp [hn])⟩
  cases hcount with
  | usual =>
    show ((1 : Nat) : Int) ≤ maxInt
    decide
  | written _ small => exact small

/-- An expression derived from writable numbers is writable. -/
theorem Derives.writable {level : Level} {ts : List TokenKind} {e : Expr} (h : Derives level ts e)
    (hnum : ∀ n, .number n ∈ ts → IsWritable n) : e.Writable := by
  induction h with
  | literal n => exact hnum n (by simp)
  | dice group => exact group.writable hnum
  | negate _ ih | parentheses _ ih => exact ih fun n hn => hnum n (by simp [hn])
  | factor _ ih | term _ ih => exact ih hnum
  | product _ _ _ _ ihl ihr | sum _ _ _ _ ihl ihr =>
    exact ⟨ihl fun n hn => hnum n (by simp [hn]), ihr fun n hn => hnum n (by simp [hn])⟩

end Grammar

namespace Expr

/-- Reading a text is scanning it and then reading its tokens. -/
theorem parse_eq_ok_iff {text : String} {e : Expr} :
    Expr.parse text = .ok e ↔ ∃ tokens, Token.scan text = .ok tokens ∧ ofTokens tokens = .ok e := by
  unfold Expr.parse
  cases Token.scan text with
  | error err => simp
  | ok tokens =>
    simp only [Except.ok.injEq, exists_eq_left']
    exact mapError_eq_ok_iff

theorem writable_of_parse {text : String} {e : Expr} (h : Expr.parse text = .ok e) :
    e.Writable := by
  obtain ⟨tokens, hscan, hread⟩ := parse_eq_ok_iff.1 h
  obtain ⟨kinds, hkinds, hend, hnum⟩ := Token.scan_kinds hscan
  exact (derives_of_ofTokens hkinds hend hnum hread).writable hnum

end Expr

end DiceNotation
