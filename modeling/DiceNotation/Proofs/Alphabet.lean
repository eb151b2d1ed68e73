import DiceNotation.Expr.Printer

/-!
# The alphabet of groups and numbers

Whatever its count, sides and modifiers are, a group of dice is written with digits and a few letters and
signs. Blanks, parentheses and brackets are none of them.
-/

namespace DiceNotation

/-- A character that groups of dice and numbers are written with. -/
def isLetter (c : Char) : Bool := c.isDigit || "-dkhlrmiacso!<>=".toList.contains c

/-- The text is written in the alphabet. -/
def InAlphabet (text : String) : Prop := ∀ c ∈ text.toList, isLetter c = true

instance (text : String) : Decidable (InAlphabet text) :=
  List.decidableBAll (fun c => isLetter c = true) text.toList

namespace InAlphabet

theorem append {front back : String} (hfront : InAlphabet front) (hback : InAlphabet back) :
    InAlphabet (front ++ back) := by
  intro c hc
  rw [String.toList_append, List.mem_append] at hc
  exact hc.elim (hfront c) (hback c)

theorem join {words : List String} (h : ∀ w ∈ words, InAlphabet w) :
    InAlphabet (String.join words) := by
  induction words with
  | nil => exact fun c hc => by cases hc
  | cons w rest ih =>
    rw [String.join_cons]
    exact (h w List.mem_cons_self).append (ih fun w' hw' => h w' (List.mem_cons_of_mem w hw'))

theorem nat (n : Nat) : InAlphabet (toString n) := by
  intro c hc
  have hdigits : (toString n).toList = Nat.toDigits 10 n := by simp
  rw [hdigits] at hc
  have hdigit : c.isDigit = true := Nat.isDigit_of_mem_toDigits (by decide) (by decide) hc
  rw [isLetter, hdigit, Bool.true_or]

theorem int (x : Int) : InAlphabet (toString x) := by
  cases x with
  | ofNat n => exact .nat n
  | negSucc n =>
    have hsign : toString (Int.negSucc n) = "-" ++ toString (n + 1) := rfl
    rw [hsign]
    exact append (by decide) (.nat (n + 1))

theorem not_mem {text : String} (h : InAlphabet text) {c : Char} (hc : isLetter c = false) :
    c ∉ text.toList := by
  intro hmem
  rw [h c hmem] at hc
  cases hc

end InAlphabet

theorem Condition.inAlphabet_render (c : Condition) : InAlphabet c.render := by
  obtain ⟨comparison, bound⟩ := c
  have hsymbol : InAlphabet comparison.symbol := by
    cases comparison <;> (simp only [Comparison.symbol]; decide)
  cases comparison with
  | equal => exact .int bound
  | less | greater | lessEqual | greaterEqual => exact hsymbol.append (.int bound)

theorem Modifier.inAlphabet_render (m : Modifier) : InAlphabet m.render := by
  cases m with
  | select s =>
    have hkeyword : InAlphabet s.keyword := by
      obtain ⟨action, rank, count⟩ := s
      cases action <;> cases rank <;> (simp only [Selection.keyword]; decide)
    exact hkeyword.append (.nat s.count)
  | clamp c =>
    cases c with
    | minimum bound | maximum bound => exact .append (by decide) (.int bound)
  | reroll repeats c | explode repeats c =>
    cases repeats with
    | once | recursive => exact .append (by decide) c.inAlphabet_render
  | countSuccesses c => exact .append (by decide) c.inAlphabet_render

theorem DiceGroup.inAlphabet_render (g : DiceGroup) : InAlphabet g.render := by
  have hmodifiers : InAlphabet (String.join (g.modifiers.map Modifier.render)) := by
    refine .join fun w hw => ?_
    obtain ⟨m, -, rfl⟩ := List.mem_map.1 hw
    exact m.inAlphabet_render
  exact (((InAlphabet.nat _).append (by decide)).append (.nat _)).append hmodifiers

end DiceNotation
