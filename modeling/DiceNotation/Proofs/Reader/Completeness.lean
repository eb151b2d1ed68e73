import DiceNotation.Proofs.Grammar

/-!
# Every derived list is read

The reader holds a stack of surroundings and a phase instead of calling itself, so a list that spells an
operand cannot be read on its own: what is read stands for the operand only in front of a token that
ends operands. `StandsFor` says when frames and a phase are as good as an operand of the old stack, and
`ReadsAs` says that tokens of given kinds lead there from wherever their level may stand. An induction
over the derivation then gives `readsAs_of_derives`.
-/

namespace DiceNotation.Expr.Reading
open DiceNotation.Grammar

/-- Reading the tokens takes one state to the other. -/
def Reads (before : Reading) (tokens : List Token) (after : Reading) : Prop :=
  tokens.foldlM step before = .ok after

theorem Reads.nil (r : Reading) : Reads r [] r := rfl

theorem Reads.cons {a b c : Reading} {token : Token} {tokens : List Token}
    (hstep : step a token = .ok b) (h : Reads b tokens c) : Reads a (token :: tokens) c := by
  unfold Reads at *
  rw [List.foldlM_cons, hstep]
  exact h

theorem Reads.append {a b c : Reading} {tokens more : List Token} (h : Reads a tokens b)
    (h' : Reads b more c) : Reads a (tokens ++ more) c := by
  unfold Reads at *
  rw [List.foldlM_append, h]
  exact h'

theorem Reads.single {a b : Reading} {token : Token} (hstep : step a token = .ok b) :
    Reads a [token] b :=
  .cons hstep (.nil b)

/-- The kinds that can stand right behind an operand. -/
def EndsOperand : TokenKind → Prop
  | .operator _ | .closeParen | .endOfInput => True
  | _ => False

/-- The phase goes on like the finished group, whether the group ends or a modifier follows. -/
def OffersGroup (phase : Phase) (g : DiceGroup) : Prop :=
  ∀ stack token, EndsOperand token.kind ∨ (∃ word, token.kind = .keyword word) →
    afterPhase stack phase token = afterGroup stack g token

/-- The phase goes on like the finished operand. -/
def OffersOperand (phase : Phase) (e : Expr) : Prop :=
  ∀ stack token, EndsOperand token.kind → afterPhase stack phase token = afterFactor stack e token

theorem OffersGroup.offersOperand {phase : Phase} {g : DiceGroup} (h : OffersGroup phase g) :
    OffersOperand phase (.dice g) := by
  intro stack token hends
  rw [h stack token (.inl hends)]
  unfold afterGroup
  split
  · next hkind => simp [hkind, EndsOperand] at hends
  · rfl

theorem offersGroup_group (g : DiceGroup) : OffersGroup (.group g) g := fun _ _ _ => rfl

theorem offersGroup_diceSign (count : DiceCount) :
    OffersGroup (.diceSign count) ⟨count, .usual, []⟩ := by
  intro stack token hends
  simp only [afterPhase, afterDiceSign]
  split <;> simp_all [EndsOperand]

/-- A keyword whose argument is left out stands for its usual modifier. -/
theorem offersGroup_keyword {g : DiceGroup} {word : Keyword} {m : Modifier}
    (h : SpellsModifier g.sides [.keyword word] m) :
    OffersGroup (.keyword g word) (g.addModifier m) := by
  intro stack token hends
  simp only [afterPhase]
  cases h with
  | keep count | select _ _ count =>
    cases count
    simp only [afterKeyword, afterSelection]
    split <;> simp_all [EndsOperand]
  | reroll _ condition | explode _ condition | countSuccesses condition =>
    cases condition
    simp only [afterKeyword, afterTrigger]
    split <;> simp_all [EndsOperand, Trigger.modifier, Trigger.usualCondition, Condition.equalTo]

/-! ## Groups of dice -/

theorem reads_keyword {phase : Phase} {g : DiceGroup} (h : OffersGroup phase g)
    (stack : List Frame) {token : Token} {word : Keyword} (hkind : token.kind = .keyword word) :
    Reads (.unfinished stack phase) [token] (.unfinished stack (.keyword g word)) := by
  apply Reads.single
  simp [step, h stack token (.inr ⟨word, hkind⟩), afterGroup, hkind]

/-- The argument behind a keyword completes its modifier. -/
theorem reads_argument {g : DiceGroup} {word : Keyword} {us : List TokenKind} {m : Modifier}
    (h : SpellsModifier g.sides (.keyword word :: us) m) (stack : List Frame) {tokens : List Token}
    (hkinds : tokens.map (·.kind) = us) :
    ∃ after, OffersGroup after (g.addModifier m) ∧
      Reads (.unfinished stack (.keyword g word)) tokens (.unfinished stack after) := by
  by_cases hus : us = []
  · subst hus
    rw [List.map_eq_nil_iff] at hkinds
    subst hkinds
    exact ⟨_, offersGroup_keyword h, .nil _⟩
  · refine ⟨.group (g.addModifier m), offersGroup_group _, ?_⟩
    cases h with
    | keep count | select _ _ count =>
      cases count with
      | usual => contradiction
      | written n =>
        obtain ⟨t, rfl, ht⟩ := List.map_eq_singleton_iff.1 hkinds
        apply Reads.single
        simp [step, afterPhase, afterKeyword, afterSelection, modified, selectionCount, ht]
    | minimum n | maximum n =>
      obtain ⟨t, rfl, ht⟩ := List.map_eq_singleton_iff.1 hkinds
      apply Reads.single
      simp [step, afterPhase, afterKeyword, afterClamp, modified, ht]
    | reroll _ condition | explode _ condition | countSuccesses condition =>
      cases condition with
      | usual => contradiction
      | bare n =>
        obtain ⟨t, rfl, ht⟩ := List.map_eq_singleton_iff.1 hkinds
        apply Reads.single
        simp [step, afterPhase, afterKeyword, afterTrigger, modified, Trigger.modifier,
          Condition.equalTo, ht]
      | compared c n =>
        obtain ⟨t, rest, rfl, ht, hrest⟩ := List.map_eq_cons_iff.1 hkinds
        obtain ⟨t', rfl, ht'⟩ := List.map_eq_singleton_iff.1 hrest
        apply Reads.cons
        · simp [step, afterPhase, afterKeyword, afterTrigger, ht]
          rfl
        · apply Reads.single
          simp [step, afterPhase, afterComparison, modified, Trigger.modifier, ht']

theorem reads_modifier {g : DiceGroup} {ts : List TokenKind} {m : Modifier}
    (h : SpellsModifier g.sides ts m) {phase : Phase} (hphase : OffersGroup phase g)
    (stack : List Frame) {tokens : List Token} (hkinds : tokens.map (·.kind) = ts) :
    ∃ after, OffersGroup after (g.addModifier m) ∧
      Reads (.unfinished stack phase) tokens (.unfinished stack after) := by
  obtain ⟨word, us, rfl⟩ : ∃ word us, ts = .keyword word :: us := by
    cases h <;> exact ⟨_, _, rfl⟩
  obtain ⟨t, rest, rfl, ht, hrest⟩ := List.map_eq_cons_iff.1 hkinds
  obtain ⟨after, hafter, hreads⟩ := reads_argument h stack hrest
  exact ⟨after, hafter, (reads_keyword hphase stack ht).append hreads⟩

theorem reads_modifiers {sides : Sides} {ts : List TokenKind} {ms : List Modifier}
    (h : SpellsModifiers sides ts ms) {g : DiceGroup} (hsides : g.sides = sides) {phase : Phase}
    (hphase : OffersGroup phase g) (stack : List Frame) {tokens : List Token}
    (hkinds : tokens.map (·.kind) = ts) :
    ∃ after, OffersGroup after { g with modifiers := g.modifiers ++ ms } ∧
      Reads (.unfinished stack phase) tokens (.unfinished stack after) := by
  induction h generalizing g phase tokens with
  | nil =>
    rw [List.map_eq_nil_iff] at hkinds
    subst hkinds
    exact ⟨phase, by simpa using hphase, .nil _⟩
  | cons head _ ih =>
    obtain ⟨first, rest, rfl, hfirst, hrest⟩ := List.map_eq_append_iff.1 hkinds
    obtain ⟨middle, hmiddle, hreads⟩ := reads_modifier (hsides ▸ head) hphase stack hfirst
    obtain ⟨after, hafter, hreads'⟩ := ih (g := g.addModifier _) hsides hmiddle hrest
    exact ⟨after, by simpa [DiceGroup.addModifier] using hafter, hreads.append hreads'⟩

theorem diceCount_ofInt?_coe (count : DiceCount) : DiceCount.ofInt? count.toNat = some count := by
  simp [DiceCount.ofInt?, count.pos, count.le_max]

theorem sides_ofInt?_coe (sides : Sides) : Sides.ofInt? sides.toNat = some sides := by
  simp [Sides.ofInt?, sides.pos, sides.le_max]

theorem reads_count {ts : List TokenKind} {count : DiceCount} (h : SpellsCount ts count)
    (stack : List Frame) {tokens : List Token} (hkinds : tokens.map (·.kind) = ts ++ [.dice]) :
    Reads (.unfinished stack .start) tokens (.unfinished stack (.diceSign count)) := by
  cases h with
  | usual =>
    obtain ⟨t, rfl, ht⟩ := List.map_eq_singleton_iff.1 hkinds
    apply Reads.single
    simp [step, afterPhase, atStart, ht]
  | written =>
    obtain ⟨t, rest, rfl, ht, hrest⟩ := List.map_eq_cons_iff.1 hkinds
    obtain ⟨t', rfl, ht'⟩ := List.map_eq_singleton_iff.1 hrest
    apply Reads.cons
    · simp [step, afterPhase, atStart, ht]
      rfl
    · apply Reads.single
      simp [step, afterPhase, afterNumber, ht', diceCount_ofInt?_coe]

theorem reads_sides {ts : List TokenKind} {sides : Sides} (h : SpellsSides ts sides)
    (count : DiceCount) (stack : List Frame) {tokens : List Token}
    (hkinds : tokens.map (·.kind) = ts) :
    ∃ after, OffersGroup after ⟨count, sides, []⟩ ∧
      Reads (.unfinished stack (.diceSign count)) tokens (.unfinished stack after) := by
  cases h with
  | usual =>
    rw [List.map_eq_nil_iff] at hkinds
    subst hkinds
    exact ⟨_, offersGroup_diceSign count, .nil _⟩
  | percent =>
    obtain ⟨t, rfl, ht⟩ := List.map_eq_singleton_iff.1 hkinds
    refine ⟨.group ⟨count, .percentile, []⟩, offersGroup_group _, .single ?_⟩
    simp [step, afterPhase, afterDiceSign, ht]
  | written =>
    obtain ⟨t, rfl, ht⟩ := List.map_eq_singleton_iff.1 hkinds
    refine ⟨.group ⟨count, sides, []⟩, offersGroup_group _, .single ?_⟩
    simp [step, afterPhase, afterDiceSign, ht, sides_ofInt?_coe]

theorem reads_dice {ts : List TokenKind} {g : DiceGroup} (h : SpellsDice ts g)
    (stack : List Frame) {tokens : List Token} (hkinds : tokens.map (·.kind) = ts) :
    ∃ after, OffersGroup after g ∧
      Reads (.unfinished stack .start) tokens (.unfinished stack after) := by
  obtain ⟨hcount, hsides, hmodifiers⟩ := h
  rw [List.append_cons] at hkinds
  obtain ⟨first, rest, rfl, hfirst, hrest⟩ := List.map_eq_append_iff.1 hkinds
  obtain ⟨second, third, rfl, hsecond, hthird⟩ := List.map_eq_append_iff.1 hrest
  obtain ⟨middle, hmiddle, hreads⟩ := reads_sides hsides _ stack hsecond
  obtain ⟨after, hafter, hreads'⟩ := reads_modifiers hmodifiers rfl hmiddle stack hthird
  exact ⟨after, hafter, (reads_count hcount stack hfirst).append (hreads.append hreads')⟩

/-! ## Operands and their surroundings -/

/-- How tightly a part of the grammar binds. -/
def levelPrecedence : Level → Nat
  | .expression => 1
  | .term => 2
  | .factor => 3

/-- The stack has no frame on top that would take a part of an operand of this level. -/
def Admits : Level → List Frame → Prop
  | .factor, _ | _, [] | _, .parenthesis :: _ => True
  | level, .leftOperand _ op :: _ => op.precedence < levelPrecedence level
  | _, .negation :: _ => False

theorem reduce_of_admits {level : Level} {stack : List Frame} (h : Admits level stack)
    (hlevel : level ≠ .factor) {least : Nat} (hleast : levelPrecedence level ≤ least) (e : Expr) :
    reduce least e stack = (e, stack) := by
  cases stack with
  | nil => rfl
  | cons frame stack =>
    cases frame with
    | parenthesis => rfl
    | negation => cases level <;> simp_all [Admits]
    | leftOperand l op =>
      have hop : op.precedence < levelPrecedence level := by
        cases level <;> simp_all [Admits]
      rw [reduce, if_neg (by omega)]

theorem Admits.of_expression {stack : List Frame} (h : Admits .expression stack) :
    Admits .term stack := by
  cases stack with
  | nil => trivial
  | cons frame _ =>
    cases frame <;> simp_all [Admits, levelPrecedence]

/-- With these frames and phase the reader has taken in the operand `e` of the old stack: surroundings
that bind less tightly than the level see no difference. -/
def StandsFor (level : Level) (e : Expr) (stack after : List Frame) (phase : Phase) : Prop :=
  ∃ f, OffersOperand phase f ∧
    ∀ least ≤ levelPrecedence level, reduce least f after = reduce least e stack

theorem StandsFor.mono {level level' : Level} {e : Expr} {stack after : List Frame} {phase : Phase}
    (h : StandsFor level e stack after phase)
    (hle : levelPrecedence level' ≤ levelPrecedence level) :
    StandsFor level' e stack after phase := by
  obtain ⟨f, hf, hreduce⟩ := h
  exact ⟨f, hf, fun least hleast => hreduce least (Nat.le_trans hleast hle)⟩

theorem OffersOperand.standsFor {phase : Phase} {e : Expr} (h : OffersOperand phase e)
    (level : Level) (stack : List Frame) : StandsFor level e stack stack phase :=
  ⟨e, h, fun _ _ => rfl⟩

/-- The right operand completes the operation that waits for it. -/
theorem StandsFor.leftOperand {level level' : Level} {l r : Expr} {op : BinaryOp}
    {stack after : List Frame} {phase : Phase}
    (h : StandsFor level r (.leftOperand l op :: stack) after phase)
    (hle : levelPrecedence level' ≤ levelPrecedence level)
    (hop : op.precedence = levelPrecedence level') :
    StandsFor level' (.binary op l r) stack after phase := by
  obtain ⟨f, hf, hreduce⟩ := h
  refine ⟨f, hf, fun least hleast => ?_⟩
  rw [hreduce least (Nat.le_trans hleast hle), reduce, if_pos (by omega)]

theorem StandsFor.reads_operator {level : Level} {e : Expr} {stack after : List Frame}
    {phase : Phase} (h : StandsFor level e stack after phase) (hstack : Admits level stack)
    {op : BinaryOp} (hop : op.precedence = levelPrecedence level) {token : Token}
    (hkind : token.kind = .operator op) :
    Reads (.unfinished after phase) [token] (.unfinished (.leftOperand e op :: stack) .start) := by
  obtain ⟨f, hf, hreduce⟩ := h
  have hlevel : level ≠ .factor := by
    rintro rfl
    cases op <;> cases hop
  apply Reads.single
  rw [step, hf after token (by simp [hkind, EndsOperand])]
  simp [afterFactor, hkind, hreduce op.precedence (by omega),
    reduce_of_admits hstack hlevel (Nat.le_of_eq hop.symm)]

theorem StandsFor.reads_closeParen {e : Expr} {stack after : List Frame} {phase : Phase}
    (h : StandsFor .expression e (.parenthesis :: stack) after phase) {token : Token}
    (hkind : token.kind = .closeParen) :
    Reads (.unfinished after phase) [token] (.unfinished stack (.closed e)) := by
  obtain ⟨f, hf, hreduce⟩ := h
  apply Reads.single
  rw [step, hf after token (by simp [hkind, EndsOperand])]
  simp [afterFactor, hkind, hreduce 0 (by omega), reduce]

theorem StandsFor.reads_endOfInput {e : Expr} {after : List Frame} {phase : Phase}
    (h : StandsFor .expression e [] after phase) {token : Token}
    (hkind : token.kind = .endOfInput) :
    Reads (.unfinished after phase) [token] (.finished e) := by
  obtain ⟨f, hf, hreduce⟩ := h
  apply Reads.single
  rw [step, hf after token (by simp [hkind, EndsOperand])]
  simp [afterFactor, hkind, hreduce 0 (by omega), reduce]

/-- Wherever the level may stand, tokens of these kinds are read as the operand `e`. -/
def ReadsAs (level : Level) (ts : List TokenKind) (e : Expr) : Prop :=
  ∀ stack, Admits level stack → ∀ tokens : List Token, tokens.map (·.kind) = ts →
    ∃ after phase, StandsFor level e stack after phase ∧
      Reads (.unfinished stack .start) tokens (.unfinished after phase)

theorem ReadsAs.literal (n : Int) : ReadsAs .factor [.number n] (.literal n) := by
  intro stack _ tokens hkinds
  obtain ⟨t, rfl, ht⟩ := List.map_eq_singleton_iff.1 hkinds
  refine ⟨stack, .number n t, OffersOperand.standsFor ?_ _ _, .single ?_⟩
  · intro stack token hends
    simp only [afterPhase, afterNumber]
    split <;> simp_all [EndsOperand]
  · simp [step, afterPhase, atStart, ht]

theorem ReadsAs.negate {ts : List TokenKind} {e : Expr} (h : ReadsAs .factor ts e) :
    ReadsAs .factor (.operator .sub :: ts) (.negate e) := by
  intro stack _ tokens hkinds
  obtain ⟨t, rest, rfl, ht, hrest⟩ := List.map_eq_cons_iff.1 hkinds
  obtain ⟨after, phase, ⟨f, hf, hreduce⟩, hreads⟩ := h (.negation :: stack) trivial rest hrest
  refine ⟨after, phase, ⟨f, hf, fun least hleast => ?_⟩, .cons ?_ hreads⟩
  · -- A negation on the stack takes its operand whatever may come next.
    rw [hreduce least hleast, reduce]
  · simp [step, afterPhase, atStart, ht]

theorem ReadsAs.parentheses {ts : List TokenKind} {e : Expr} (h : ReadsAs .expression ts e) :
    ReadsAs .factor (.openParen :: (ts ++ [.closeParen])) e := by
  intro stack _ tokens hkinds
  obtain ⟨t, rest, rfl, ht, hrest⟩ := List.map_eq_cons_iff.1 hkinds
  obtain ⟨inner, last, rfl, hinner, hlast⟩ := List.map_eq_append_iff.1 hrest
  obtain ⟨t', rfl, ht'⟩ := List.map_eq_singleton_iff.1 hlast
  obtain ⟨after, phase, hstands, hreads⟩ := h (.parenthesis :: stack) trivial inner hinner
  refine ⟨stack, .closed e, OffersOperand.standsFor ?_ _ _,
    .cons ?_ (hreads.append (hstands.reads_closeParen ht'))⟩
  · intro stack token hends
    simp only [afterPhase, afterClosed]
    split <;> simp_all [EndsOperand]
  · simp [step, afterPhase, atStart, ht]

theorem ReadsAs.binary {level level' : Level} {ls rs : List TokenKind} {l r : Expr} {op : BinaryOp}
    (hl : ReadsAs level ls l) (hr : ReadsAs level' rs r) (hop : op.precedence = levelPrecedence level)
    (hlt : levelPrecedence level < levelPrecedence level') :
    ReadsAs level (ls ++ .operator op :: rs) (.binary op l r) := by
  intro stack hstack tokens hkinds
  obtain ⟨first, rest, rfl, hfirst, hrest⟩ := List.map_eq_append_iff.1 hkinds
  obtain ⟨t, second, rfl, ht, hsecond⟩ := List.map_eq_cons_iff.1 hrest
  have hadmits : Admits level' (.leftOperand l op :: stack) := by
    cases level' <;> simp_all [Admits]
  obtain ⟨_, _, hleft, hreads⟩ := hl stack hstack first hfirst
  obtain ⟨after, phase, hright, hreads'⟩ := hr _ hadmits second hsecond
  exact ⟨after, phase, hright.leftOperand (Nat.le_of_lt hlt) hop,
    hreads.append ((hleft.reads_operator hstack hop ht).append hreads')⟩

/-- Whatever the grammar derives is read as what it derives. -/
theorem readsAs_of_derives {level : Level} {ts : List TokenKind} {e : Expr}
    (h : Derives level ts e) : ReadsAs level ts e := by
  induction h with
  | literal n => exact .literal n
  | dice group =>
    intro stack _ tokens hkinds
    obtain ⟨phase, hphase, hreads⟩ := reads_dice group stack hkinds
    exact ⟨stack, phase, hphase.offersOperand.standsFor _ _, hreads⟩
  | negate _ ih => exact ih.negate
  | parentheses _ ih => exact ih.parentheses
  | factor _ ih =>
    intro stack _ tokens hkinds
    obtain ⟨after, phase, hstands, hreads⟩ := ih stack trivial tokens hkinds
    exact ⟨after, phase, hstands.mono (by decide), hreads⟩
  | term _ ih =>
    intro stack hstack tokens hkinds
    obtain ⟨after, phase, hstands, hreads⟩ := ih stack hstack.of_expression tokens hkinds
    exact ⟨after, phase, hstands.mono (by decide), hreads⟩
  | product op hop _ _ ihl ihr =>
    refine ihl.binary ihr ?_ (by decide)
    rcases hop with rfl | rfl <;> rfl
  | sum op hop _ _ ihl ihr =>
    refine ihl.binary ihr ?_ (by decide)
    rcases hop with rfl | rfl <;> rfl

end DiceNotation.Expr.Reading
