import DiceNotation.Proofs.Alphabet
import DiceNotation.Proofs.Reader.ViablePrefix
import DiceNotation.Proofs.RoundTrip
import Mathlib.Order.Bounds.Basic

/-!
# As few parentheses as possible

Every parenthesis of the notation is forced: whatever tokens are read as an expression, they open at least
as many parentheses as its notation does. The reader pays for this as it goes. What it holds, frames and the
factor in hand, is never written with more parentheses than it has taken in, because an operand that binds
less tightly than its place requires can only have come out of parentheses.
-/

namespace DiceNotation.Expr
open Grammar

/-- How many parentheses the notation opens. -/
def openParens (e : Expr) : Nat := e.render.toList.count '('

/-- How many parentheses are opened where an operand has to bind at least as tightly as `least`. -/
def openParensAt (least : Nat) (e : Expr) : Nat :=
  e.openParens + if e.precedence < least then 1 else 0

theorem count_parenthesize (least : Nat) (e : Expr) :
    (e.parenthesize e.render least).toList.count '(' = e.openParensAt least := by
  unfold parenthesize openParensAt openParens
  split
  · have hopen : "(".toList.count '(' = 1 := by decide
    have hclose : ")".toList.count '(' = 0 := by decide
    rw [String.toList_append, String.toList_append, List.count_append, List.count_append, hopen,
      hclose]
    omega
  · rfl

theorem openParens_literal (x : Int) : (literal x).openParens = 0 :=
  List.count_eq_zero_of_not_mem ((InAlphabet.int x).not_mem (by decide))

theorem openParens_dice (g : DiceGroup) : (dice g).openParens = 0 :=
  List.count_eq_zero_of_not_mem (g.inAlphabet_render.not_mem (by decide))

theorem openParens_negate (e : Expr) :
    (negate e).openParens = e.openParensAt negationPrecedence := by
  have hsign : "-".toList.count '(' = 0 := by decide
  rw [openParens, render, String.toList_append, List.count_append, hsign, count_parenthesize,
    Nat.zero_add]

theorem openParens_binary (op : BinaryOp) (l r : Expr) :
    (binary op l r).openParens =
      l.openParensAt op.precedence + r.openParensAt (op.precedence + 1) := by
  have hblank : " ".toList.count '(' = 0 := by decide
  have hsymbol : op.symbol.toList.count '(' = 0 := by
    cases op with
    | add | sub | mul | div => decide
  simp only [openParens, render, String.toList_append, List.count_append, count_parenthesize, hblank,
    hsymbol, Nat.add_zero]

theorem openParensAt_mono {least least' : Nat} (h : least ≤ least') (e : Expr) :
    e.openParensAt least ≤ e.openParensAt least' := by
  by_cases hleast : e.precedence < least
  · rw [openParensAt, openParensAt, if_pos hleast, if_pos (Nat.lt_of_lt_of_le hleast h)]
  · rw [openParensAt, if_neg hleast]
    exact Nat.le_add_right _ _

theorem openParensAt_eq {least : Nat} {e : Expr} (h : least ≤ e.precedence) :
    e.openParensAt least = e.openParens := by
  rw [openParensAt, if_neg (by omega), Nat.add_zero]

theorem openParensAt_le (least : Nat) (e : Expr) : e.openParensAt least ≤ e.openParens + 1 := by
  unfold openParensAt
  split
  · exact Nat.le_refl _
  · omega

/-! ## What the reader holds -/

/-- The parentheses that a frame is written with; one that is still open has been taken in. -/
def Frame.openParens : Frame → Nat
  | parenthesis => 1
  | negation => 0
  | leftOperand l op => l.openParensAt op.precedence

def Phase.openParens : Phase → Nat
  | closed inner => inner.openParens + 1
  | _ => 0

namespace Reading

def frameParens : List Frame → Nat
  | [] => 0
  | frame :: stack => frame.openParens + frameParens stack

/-- No left operand stands on a frame that would have taken a part of it. -/
def Ordered : List Frame → Prop
  | [] => True
  | .leftOperand _ op :: stack =>
    (∃ level, op.precedence = levelPrecedence level ∧ Admits level stack) ∧ Ordered stack
  | .parenthesis :: stack | .negation :: stack => Ordered stack

/-- What the reader holds is written with no more than `n` parentheses. -/
def Within (n : Nat) : Reading → Prop
  | unfinished stack phase => Ordered stack ∧ frameParens stack + phase.openParens ≤ n
  | finished e => e.openParens ≤ n

/-- Reducing needs no parenthesis, since what comes off the stack binds tightly enough for its place. -/
theorem reduce_within {stack : List Frame} (hstack : Ordered stack) {least : Nat} {target : Level}
    (htarget : levelPrecedence target = max 1 least) {level : Level}
    (hle : levelPrecedence target ≤ levelPrecedence level) (hadmits : Admits level stack) (e : Expr) :
    Ordered (reduce least e stack).2 ∧ Admits target (reduce least e stack).2 ∧
      frameParens (reduce least e stack).2 +
          (reduce least e stack).1.openParensAt (levelPrecedence target) ≤
        frameParens stack + e.openParensAt (levelPrecedence level) := by
  induction stack generalizing level e with
  | nil =>
    have hmono := e.openParensAt_mono hle
    exact ⟨trivial, by cases target <;> trivial, Nat.add_le_add_left hmono _⟩
  | cons frame stack ih =>
    cases frame with
    | parenthesis =>
      have hmono := e.openParensAt_mono hle
      exact ⟨hstack, by cases target <;> trivial, Nat.add_le_add_left hmono _⟩
    | negation =>
      obtain rfl : level = .factor := by cases level <;> simp_all [Admits]
      have hnegate : (negate e).openParensAt (levelPrecedence .factor) =
          e.openParensAt (levelPrecedence .factor) :=
        (openParensAt_eq (Nat.le_refl 3)).trans (openParens_negate e)
      have hrest := ih hstack hle trivial (negate e)
      rw [hnegate] at hrest
      have hframes : frameParens (.negation :: stack) = frameParens stack := Nat.zero_add _
      rwa [reduce, hframes]
    | leftOperand l op =>
      obtain ⟨⟨level', hop, hbelow⟩, hordered⟩ := hstack
      have hlt : op.precedence < levelPrecedence level := by
        cases level with
        | factor => cases op <;> decide
        | expression | term => exact hadmits
      have hframes : frameParens (.leftOperand l op :: stack) =
          l.openParensAt op.precedence + frameParens stack := rfl
      by_cases hleast : least ≤ op.precedence
      -- The operand is now printed behind its operator, where it needs no parentheses it did not need here.
      · have hop1 : 1 ≤ op.precedence := by cases op <;> decide
        have hbinary : (binary op l e).openParensAt (levelPrecedence level') =
            l.openParensAt op.precedence + e.openParensAt (op.precedence + 1) := by
          rw [← hop, openParensAt_eq (Nat.le_refl op.precedence), openParens_binary]
        have hright : e.openParensAt (op.precedence + 1) ≤ e.openParensAt (levelPrecedence level) :=
          e.openParensAt_mono hlt
        obtain ⟨hkept, hreduced, hrest⟩ := ih hordered (by omega) hbelow (binary op l e)
        rw [reduce, if_pos hleast]
        refine ⟨hkept, hreduced, ?_⟩
        omega
      · have hmono := e.openParensAt_mono hle
        rw [reduce, if_neg hleast]
        refine ⟨⟨⟨level', hop, hbelow⟩, hordered⟩, ?_, Nat.add_le_add_left hmono _⟩
        cases target with
        | factor => trivial
        | expression | term =>
          show op.precedence < levelPrecedence _
          omega

/-- A factor that has been read is in no need of more parentheses than it came with. -/
theorem reduce_factor_within {stack : List Frame} (hstack : Ordered stack) {least : Nat}
    {target : Level} (htarget : levelPrecedence target = max 1 least) (e : Expr) :
    Ordered (reduce least e stack).2 ∧ Admits target (reduce least e stack).2 ∧
      frameParens (reduce least e stack).2 +
          (reduce least e stack).1.openParensAt (levelPrecedence target) ≤
        frameParens stack + e.openParensAt (levelPrecedence .factor) := by
  have hle : levelPrecedence target ≤ levelPrecedence .factor := by cases target <;> decide
  exact reduce_within hstack htarget hle trivial e

variable {stack : List Frame} {token : Token} {after : Reading}

theorem afterFactor_within (hstack : Ordered stack) {e : Expr}
    (h : afterFactor stack e token = .ok after) :
    Within (frameParens stack + e.openParensAt 3) after := by
  have hwhole : levelPrecedence .expression = max 1 0 := rfl
  unfold afterFactor at h
  split at h
  · next op hkind =>
    obtain ⟨target, hop⟩ : ∃ target, op.precedence = levelPrecedence target := by
      cases op with
      | add | sub => exact ⟨.expression, rfl⟩
      | mul | div => exact ⟨.term, rfl⟩
    have hmax : levelPrecedence target = max 1 op.precedence := by
      rw [hop]
      cases target <;> rfl
    obtain ⟨hordered, hadmits, hcost⟩ := reduce_factor_within hstack hmax e
    rw [← hop] at hcost
    cases h
    refine ⟨⟨⟨target, hop, hadmits⟩, hordered⟩, ?_⟩
    have hframes : frameParens (.leftOperand (reduce op.precedence e stack).1 op ::
        (reduce op.precedence e stack).2) =
          (reduce op.precedence e stack).1.openParensAt op.precedence +
            frameParens (reduce op.precedence e stack).2 := rfl
    have hphase : Phase.start.openParens = 0 := rfl
    have hfactor : e.openParensAt (levelPrecedence .factor) = e.openParensAt 3 := rfl
    omega
  · obtain ⟨hordered, -, hcost⟩ := reduce_factor_within hstack hwhole e
    split at h
    · next inner below hreduce =>
      rw [hreduce] at hordered hcost
      cases h
      refine ⟨hordered, ?_⟩
      have hframes : frameParens (.parenthesis :: below) = 1 + frameParens below := rfl
      have hinner := openParensAt_eq inner.one_le_precedence
      have hphase : (Phase.closed inner).openParens = inner.openParens + 1 := rfl
      simp only [levelPrecedence] at hcost
      omega
    · cases h
  · obtain ⟨-, -, hcost⟩ := reduce_factor_within hstack hwhole e
    split at h
    · next whole hreduce =>
      rw [hreduce] at hcost
      cases h
      have hprinted := openParensAt_eq whole.one_le_precedence
      simp only [levelPrecedence] at hcost
      show whole.openParens ≤ _
      omega
    · cases h
  · split at h
    · cases h
    · cases h

theorem afterGroup_within (hstack : Ordered stack) {g : DiceGroup}
    (h : afterGroup stack g token = .ok after) : Within (frameParens stack) after := by
  unfold afterGroup at h
  split at h
  · cases h
    exact ⟨hstack, Nat.le_refl _⟩
  · have hdice : (dice g).openParensAt 3 = 0 :=
      (openParensAt_eq (Nat.le_succ 3)).trans (openParens_dice g)
    have hcost := afterFactor_within hstack h
    rwa [hdice] at hcost

theorem afterKeyword_within (hstack : Ordered stack) {g : DiceGroup} {word : Keyword}
    (h : afterKeyword stack g word token = .ok after) : Within (frameParens stack) after := by
  cases word with
  | keep | select =>
    simp only [afterKeyword, afterSelection] at h
    split at h
    · cases h
      exact ⟨hstack, Nat.le_refl _⟩
    · exact afterGroup_within hstack h
  | minimum | maximum =>
    simp only [afterKeyword, afterClamp] at h
    split at h
    · cases h
      exact ⟨hstack, Nat.le_refl _⟩
    · cases h
  | trigger t =>
    simp only [afterKeyword, afterTrigger] at h
    split at h
    · cases h
      exact ⟨hstack, Nat.le_refl _⟩
    · cases h
      exact ⟨hstack, Nat.le_refl _⟩
    · exact afterGroup_within hstack h

theorem Within.mono {n n' : Nat} {reading : Reading} (h : Within n reading) (hle : n ≤ n') :
    Within n' reading := by
  cases reading with
  | unfinished stack phase => exact ⟨h.1, Nat.le_trans h.2 hle⟩
  | finished e => exact Nat.le_trans h hle

/-- How many parentheses the tokens open. -/
def openings (tokens : List Token) : Nat := (tokens.map (·.kind)).count .openParen

theorem openings_append (tokens more : List Token) :
    openings (tokens ++ more) = openings tokens + openings more := by
  rw [openings, List.map_append, List.count_append, openings, openings]

theorem atStart_within (hstack : Ordered stack) (h : atStart stack token = .ok after) :
    Within (frameParens stack + openings [token]) after := by
  unfold atStart at h
  split at h
  · cases h
    refine ⟨hstack, ?_⟩
    have hframes : frameParens (.negation :: stack) = frameParens stack := Nat.zero_add _
    rw [hframes]
    exact Nat.le_add_right _ _
  · cases h
    exact ⟨hstack, Nat.le_add_right _ _⟩
  · cases h
    exact ⟨hstack, Nat.le_add_right _ _⟩
  · next hkind =>
    cases h
    refine ⟨hstack, ?_⟩
    have hframes : frameParens (.parenthesis :: stack) = 1 + frameParens stack := rfl
    have hopens : openings [token] = 1 := by simp [openings, hkind]
    rw [hframes, hopens, Nat.add_comm 1]
    exact Nat.le_refl _
  · cases h

/-- What the reader holds grows by no more parentheses than the token opens. -/
theorem afterPhase_within (hstack : Ordered stack) {phase : Phase}
    (h : afterPhase stack phase token = .ok after) :
    Within (frameParens stack + phase.openParens + openings [token]) after := by
  have hfree : phase ≠ .start → Within (frameParens stack + phase.openParens) after := by
    intro hphase
    cases phase with
    | start => exact absurd rfl hphase
    | number n written =>
      simp only [afterPhase, afterNumber] at h
      split at h
      · split at h
        · cases h
          exact ⟨hstack, Nat.le_refl _⟩
        · cases h
      · cases h
      · have hliteral : (literal n).openParensAt 3 = 0 :=
          (openParensAt_eq (Nat.le_succ 3)).trans (openParens_literal n)
        have hcost := afterFactor_within hstack h
        rwa [hliteral] at hcost
    | diceSign count =>
      simp only [afterPhase, afterDiceSign] at h
      split at h
      · split at h
        · cases h
          exact ⟨hstack, Nat.le_refl _⟩
        · cases h
      · cases h
        exact ⟨hstack, Nat.le_refl _⟩
      · exact afterGroup_within hstack h
    | group g => exact afterGroup_within hstack h
    | keyword g word => exact afterKeyword_within hstack h
    | comparison g t c =>
      simp only [afterPhase, afterComparison] at h
      split at h
      · cases h
        exact ⟨hstack, Nat.le_refl _⟩
      · cases h
    | closed inner =>
      simp only [afterPhase, afterClosed] at h
      split at h
      · cases h
      · exact (afterFactor_within hstack h).mono
          (Nat.add_le_add_left (inner.openParensAt_le 3) _)
  by_cases hphase : phase = .start
  · subst hphase
    exact atStart_within hstack h
  · exact (hfree hphase).mono (Nat.le_add_right _ _)

theorem step_within {n : Nat} {before : Reading} (hbefore : Within n before)
    (h : step before token = .ok after) : Within (n + openings [token]) after := by
  cases before with
  | finished e =>
    cases h
    exact hbefore.mono (Nat.le_add_right _ _)
  | unfinished stack phase =>
    exact (afterPhase_within hbefore.1 h).mono (Nat.add_le_add_right hbefore.2 _)

/-- Whatever the tokens are read as is written with no more parentheses than they open. -/
theorem Reads.within {tokens : List Token} {n : Nat} {before : Reading} (hbefore : Within n before)
    (h : Reads before tokens after) : Within (n + openings tokens) after := by
  induction tokens generalizing n before with
  | nil =>
    cases h
    exact hbefore
  | cons token tokens ih =>
    obtain ⟨middle, hstep, hrest⟩ := h.of_cons
    rw [← List.singleton_append, openings_append, ← Nat.add_assoc]
    exact ih (step_within hbefore hstep) hrest

/-! ## Whole lists of tokens -/

/-- A parenthesis opens only where a factor has to start. -/
theorem afterPhase_openParen {phase : Phase} (hkind : token.kind = .openParen)
    (h : afterPhase stack phase token = .ok after) :
    after = .unfinished (.parenthesis :: stack) .start := by
  have hfactor : ∀ e, afterFactor stack e token ≠ .ok after := by
    intro e
    simp only [afterFactor, hkind]
    split <;> simp [unexpected]
  cases phase with
  | start =>
    simp only [afterPhase, atStart, hkind] at h
    exact (Except.ok.inj h).symm
  | number | diceSign | group | closed =>
    simp [afterPhase, afterNumber, afterDiceSign, afterGroup, afterClosed, hkind, hfactor] at h
  | comparison =>
    simp [afterPhase, afterComparison, unexpected, hkind] at h
  | keyword g word =>
    cases word <;>
      simp [afterPhase, afterKeyword, afterSelection, afterClamp, afterTrigger, afterGroup, unexpected,
        hkind, hfactor] at h

/-- Opening parentheses never finishes an expression. -/
theorem finished_of_reads_openParen {n : Nat} {before : Reading} {e : Expr}
    (hkind : token.kind = .openParen)
    (h : Reads before (List.replicate n token) (.finished e)) : before = .finished e := by
  induction n generalizing before with
  | zero =>
    cases h
    rfl
  | succ n ih =>
    obtain ⟨middle, hstep, hrest⟩ := h.of_cons
    obtain rfl := ih hrest
    cases before with
    | finished e' => exact Except.ok.inj hstep
    | unfinished stack phase => cases afterPhase_openParen hkind hstep

end Reading

open Reading

/-- Tokens that are read as an expression open at least as many parentheses as its notation. -/
theorem openParens_le_openings {tokens : List Token} {e : Expr} (h : ofTokens tokens = .ok e) :
    e.openParens ≤ openings tokens := by
  cases hlast : tokens.getLast? with
  | none =>
    rw [ofTokens, hlast] at h
    cases h
  | some last =>
    rw [ofTokens_eq_ok_iff_reads hlast] at h
    have hinitial : Within 0 .initial := ⟨trivial, Nat.le_refl _⟩
    -- The reader goes on over copies of the last token, which must not be counted with the list.
    by_cases hkind : last.kind = .openParen
    · obtain ⟨middle, hreads, hcopies⟩ := h.of_append
      obtain rfl := finished_of_reads_openParen hkind hcopies
      have hcost := hreads.within hinitial
      rwa [Nat.zero_add] at hcost
    · have hcopies : openings (List.replicate (tokens.length + 1) last) = 0 := by
        rw [openings, List.map_replicate, List.count_replicate, if_neg (by simpa using hkind)]
      have hcost := h.within hinitial
      rwa [openings_append, hcopies, Nat.zero_add] at hcost

/-! ## The notation itself is a list that opens no more -/

theorem openParen_not_mem_spelling (m : Modifier) : TokenKind.openParen ∉ m.spelling := by
  have hcondition : ∀ c : Condition, TokenKind.openParen ∉ c.spelling := by
    rintro ⟨sign, bound⟩
    cases sign <;> simp [Condition.spelling]
  cases m with
  | select => simp [Modifier.spelling]
  | clamp c => cases c <;> simp [Modifier.spelling]
  | reroll _ c | explode _ c | countSuccesses c => simp [Modifier.spelling, hcondition c]

theorem count_enclose (e : Expr) (least : Nat) (h : e.spelling.count .openParen = e.openParens) :
    (e.enclose e.spelling least).count .openParen = e.openParensAt least := by
  unfold enclose openParensAt
  split
  · simp [List.count_append, h]
  · exact h

theorem count_spelling (e : Expr) : e.spelling.count .openParen = e.openParens := by
  induction e with
  | literal x => simp [spelling, openParens_literal]
  | dice g =>
    rw [openParens_dice, List.count_eq_zero]
    simp [spelling, DiceGroup.spelling, openParen_not_mem_spelling]
  | negate e ih =>
    rw [openParens_negate, ← count_enclose e _ ih]
    simp [spelling]
  | binary op l r ihl ihr =>
    rw [openParens_binary, ← count_enclose l _ ihl, ← count_enclose r _ ihr]
    simp [spelling]

/-- The notation of a parsed expression opens as few parentheses as any tokens that are read as it. -/
theorem isLeast_openings {text : String} {e : Expr} (h : Expr.parse text = .ok e) :
    IsLeast {n | ∃ tokens, ofTokens tokens = .ok e ∧ openings tokens = n} e.openParens := by
  refine ⟨?_, ?_⟩
  · have he := writable_of_parse h
    have hlexes := Expr.lexes he (fun n => TokenKind.endsBefore_nil _) Token.Lexes.nil
    rw [List.append_nil, List.append_nil] at hlexes
    obtain ⟨tokens, hscan, hkinds⟩ := hlexes 0
    obtain ⟨tokens', hscan', hread⟩ := parse_eq_ok_iff.1 (parse_eq_ok_of_lexes he hlexes)
    obtain rfl : tokens = tokens' := Except.ok.inj (hscan.symm.trans hscan')
    refine ⟨tokens, hread, ?_⟩
    rw [openings, hkinds, List.count_append, count_spelling]
    rfl
  · rintro n ⟨tokens, htokens, rfl⟩
    exact openParens_le_openings htokens

/-- A difference on the right of a minus needs its parentheses. -/
def nestedDifference : Expr :=
  .binary .sub (.literal 1) (.binary .sub (.literal 2) (.literal 3))

theorem nestedDifference_isLeast :
    Expr.parse "(1) - ((2 - 3))" = .ok nestedDifference ∧ nestedDifference.openParens = 1 ∧
      IsLeast {n | ∃ tokens, ofTokens tokens = .ok nestedDifference ∧ openings tokens = n} 1 := by
  have hparse : Expr.parse "(1) - ((2 - 3))" = .ok nestedDifference := by decide +kernel
  have hcount : nestedDifference.openParens = 1 := by decide +kernel
  have hleast := isLeast_openings hparse
  rw [hcount] at hleast
  exact ⟨hparse, hcount, hleast⟩

end DiceNotation.Expr
