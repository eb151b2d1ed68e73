import DiceNotation.Proofs.Reader.Completeness

/-!
# Whatever is read is derived

`Reached` relates the kinds of the tokens taken in so far to the state of the reader: the frames of the
stack, from the bottom up, and then the phase spell exactly these kinds. Every step keeps the relation,
so a finished expression is derived by the tokens in front of the end.
-/

namespace DiceNotation.Expr.Reading
open DiceNotation.Grammar

/-- The kinds that the frames have taken in, the top frame last. A left operand stands on frames that
could not take it as a part. -/
inductive SpellsStack : List TokenKind → List Frame → Prop
  | empty : SpellsStack [] []
  | parenthesis {ts : List TokenKind} {stack : List Frame} (below : SpellsStack ts stack) :
      SpellsStack (ts ++ [.openParen]) (.parenthesis :: stack)
  | negation {ts : List TokenKind} {stack : List Frame} (below : SpellsStack ts stack) :
      SpellsStack (ts ++ [.operator .sub]) (.negation :: stack)
  | leftOperand {level : Level} {ts ls : List TokenKind} {stack : List Frame} {l : Expr}
      {op : BinaryOp} (below : SpellsStack ts stack) (admits : Admits level stack)
      (left : Derives level ls l) (hop : op.precedence = levelPrecedence level) :
      SpellsStack (ts ++ (ls ++ [.operator op])) (.leftOperand l op :: stack)

/-- The kinds that the factor in hand has taken in. -/
inductive SpellsPhase : List TokenKind → Phase → Prop
  | start : SpellsPhase [] .start
  | number {n : Int} (token : Token) (writable : IsWritable n) :
      SpellsPhase [.number n] (.number n token)
  | diceSign {cs : List TokenKind} {count : DiceCount} (hcount : SpellsCount cs count) :
      SpellsPhase (cs ++ [.dice]) (.diceSign count)
  | group {ts : List TokenKind} {g : DiceGroup} (hg : SpellsDice ts g) : SpellsPhase ts (.group g)
  | keyword {ts : List TokenKind} {g : DiceGroup} (hg : SpellsDice ts g) (word : Keyword) :
      SpellsPhase (ts ++ [.keyword word]) (.keyword g word)
  | comparison {ts : List TokenKind} {g : DiceGroup} (hg : SpellsDice ts g) (t : Trigger)
      (c : Comparison) :
      SpellsPhase (ts ++ [.keyword (.trigger t), .comparison c]) (.comparison g t c)
  | closed {ts : List TokenKind} {e : Expr} (inner : Derives .expression ts e) :
      SpellsPhase (.openParen :: (ts ++ [.closeParen])) (.closed e)

/-- The kinds that the reader has taken in; what follows the end of the input does not count. -/
inductive Reached : List TokenKind → Reading → Prop
  | unfinished {ts us : List TokenKind} {stack : List Frame} {phase : Phase}
      (hstack : SpellsStack ts stack) (hphase : SpellsPhase us phase) :
      Reached (ts ++ us) (.unfinished stack phase)
  | finished {ts : List TokenKind} {e : Expr} (whole : Derives .expression ts e)
      (rest : List TokenKind) : Reached (ts ++ .endOfInput :: rest) (.finished e)

/-! ## Reducing the stack -/

/-- An operand that binds tightly can stand where a looser one is wanted. -/
theorem derives_of_le {level level' : Level} {ts : List TokenKind} {e : Expr}
    (h : Derives level ts e) (hle : levelPrecedence level' ≤ levelPrecedence level) :
    Derives level' ts e := by
  cases level <;> cases level' <;> simp only [levelPrecedence] at hle
  case expression.expression | term.term | factor.factor => exact h
  case term.expression => exact .term h
  case factor.term => exact .factor h
  case factor.expression => exact .term (.factor h)
  all_goals omega

theorem derives_binary {level level' : Level} {ls rs : List TokenKind} {l r : Expr} {op : BinaryOp}
    (hl : Derives level ls l) (hr : Derives level' rs r) (hop : op.precedence = levelPrecedence level)
    (hlt : op.precedence < levelPrecedence level') :
    Derives level (ls ++ .operator op :: rs) (.binary op l r) := by
  cases level with
  | expression =>
    refine .sum op ?_ hl (derives_of_le hr ?_)
    · cases op <;> simp_all [BinaryOp.precedence, levelPrecedence]
    · rw [hop] at hlt
      exact hlt
  | term =>
    refine .product op ?_ hl (derives_of_le hr ?_)
    · cases op <;> simp_all [BinaryOp.precedence, levelPrecedence]
    · rw [hop] at hlt
      exact hlt
  | factor => cases op <;> simp [BinaryOp.precedence, levelPrecedence] at hop

/-- Reducing moves kinds from the stack to the operand, until what is left admits the new operand. -/
theorem reduce_sound {ts : List TokenKind} {stack : List Frame} (hstack : SpellsStack ts stack)
    {least : Nat} {target : Level} (htarget : levelPrecedence target = max 1 least) {level : Level}
    (hle : levelPrecedence target ≤ levelPrecedence level) {us : List TokenKind} {e : Expr}
    (he : Derives level us e) (hadmits : Admits level stack) :
    ∃ ts' us', ts ++ us = ts' ++ us' ∧ SpellsStack ts' (reduce least e stack).2 ∧
      Admits target (reduce least e stack).2 ∧ Derives target us' (reduce least e stack).1 := by
  induction hstack generalizing level us e with
  | empty => exact ⟨[], us, rfl, .empty, by cases target <;> trivial, derives_of_le he hle⟩
  | parenthesis below =>
    exact ⟨_, us, rfl, .parenthesis below, by cases target <;> trivial, derives_of_le he hle⟩
  | @negation ts stack below ih =>
    obtain rfl : level = .factor := by cases level <;> simp_all [Admits]
    obtain ⟨ts', us', heq, hrest⟩ := ih hle (.negate he) trivial
    refine ⟨ts', us', ?_, by simpa only [reduce] using hrest⟩
    rw [← heq, List.append_assoc, List.singleton_append]
  | @leftOperand level' ts ls stack l op below admits left hop ih =>
    have hlt : op.precedence < levelPrecedence level := by
      cases level <;> first | exact hadmits | (cases op <;> decide)
    by_cases hleast : least ≤ op.precedence
    · have hop1 : 1 ≤ op.precedence := by cases op <;> decide
      obtain ⟨ts', us', heq, hrest⟩ := ih (by omega) (derives_binary left he hop hlt) admits
      refine ⟨ts', us', ?_, by simpa only [reduce, if_pos hleast] using hrest⟩
      rw [← heq]
      simp
    · refine ⟨_, us, rfl, ?_⟩
      simp only [reduce, if_neg hleast]
      refine ⟨.leftOperand below admits left hop, ?_, derives_of_le he hle⟩
      cases target with
      | factor => trivial
      | expression | term =>
        show op.precedence < levelPrecedence _
        omega

/-! ## One token -/

theorem SpellsStack.parenthesis_inv {ts : List TokenKind} {stack : List Frame}
    (h : SpellsStack ts (.parenthesis :: stack)) :
    ∃ below, ts = below ++ [.openParen] ∧ SpellsStack below stack := by
  cases h with
  | parenthesis below => exact ⟨_, rfl, below⟩

theorem afterFactor_sound {ts us : List TokenKind} {stack : List Frame} {e : Expr} {token : Token}
    {after : Reading} (hstack : SpellsStack ts stack) (he : Derives .factor us e)
    (h : afterFactor stack e token = .ok after) : Reached (ts ++ us ++ [token.kind]) after := by
  unfold afterFactor at h
  split at h
  · next op hkind =>
    obtain ⟨target, htarget⟩ : ∃ target, op.precedence = levelPrecedence target := by
      cases op <;> first | exact ⟨.expression, rfl⟩ | exact ⟨.term, rfl⟩
    have hmax : levelPrecedence target = max 1 op.precedence := by
      rw [htarget]
      cases target <;> rfl
    obtain ⟨ts', us', heq, hbelow, hadmits, hleft⟩ :=
      reduce_sound hstack hmax (by cases target <;> decide) he trivial
    cases h
    have hstack' := SpellsStack.leftOperand hbelow hadmits hleft htarget
    simpa [heq, hkind] using Reached.unfinished hstack' .start
  · next hkind =>
    have hzero : levelPrecedence .expression = max 1 0 := rfl
    obtain ⟨ts', us', heq, hbelow, -, hinner⟩ := reduce_sound hstack hzero (by decide) he trivial
    split at h
    · next inner stack' hreduce =>
      rw [hreduce] at hbelow hinner
      cases h
      obtain ⟨below, rfl, hstack'⟩ := hbelow.parenthesis_inv
      simpa [heq, hkind] using Reached.unfinished hstack' (.closed hinner)
    · cases h
  · next hkind =>
    have hzero : levelPrecedence .expression = max 1 0 := rfl
    obtain ⟨ts', us', heq, hbelow, -, hwhole⟩ := reduce_sound hstack hzero (by decide) he trivial
    split at h
    · next whole hreduce =>
      rw [hreduce] at hbelow hwhole
      cases h
      cases hbelow
      simpa [heq, hkind] using Reached.finished hwhole []
    · cases h
  · split at h <;> cases h

theorem afterGroup_sound {ts us : List TokenKind} {stack : List Frame} {g : DiceGroup}
    {token : Token} {after : Reading} (hstack : SpellsStack ts stack) (hg : SpellsDice us g)
    (h : afterGroup stack g token = .ok after) : Reached (ts ++ us ++ [token.kind]) after := by
  unfold afterGroup at h
  split at h
  · next word hkind =>
    cases h
    rw [List.append_assoc, hkind]
    exact .unfinished hstack (.keyword hg word)
  · exact afterFactor_sound hstack (.dice hg) h

/-- A modifier that needs no further token leaves a group to which more can be added. -/
theorem modified_sound {ts us vs : List TokenKind} {stack : List Frame} {g : DiceGroup}
    {m : Modifier} (hstack : SpellsStack ts stack) (hg : SpellsDice us g)
    (hm : SpellsModifier g.sides vs m) : Reached (ts ++ (us ++ vs)) (modified stack g m) :=
  .unfinished hstack (.group (hg.addModifier hm))

theorem selectionCount_sound {n : Int} (hn : IsWritable n) :
    SpellsSelectionCount [.number n] (selectionCount n) := by
  have hcast : ((n.toNat : Nat) : Int) = n := Int.toNat_of_nonneg hn.1
  have h := SpellsSelectionCount.written n.toNat
  rw [hcast] at h
  rwa [selectionCount, if_pos hn.1]

/-- Both short and long keywords of a selection take the same argument. -/
theorem afterSelection_sound {ts us : List TokenKind} {stack : List Frame} {g : DiceGroup}
    {word : Keyword} {action : Action} {rank : Rank} {token : Token} {after : Reading}
    (hword : ∀ {vs : List TokenKind} {n : Nat}, SpellsSelectionCount vs n →
      SpellsModifier g.sides (.keyword word :: vs) (.select ⟨action, rank, n⟩))
    (hnum : ∀ n, token.kind = .number n → IsWritable n) (hstack : SpellsStack ts stack)
    (hg : SpellsDice us g) (h : afterSelection stack g action rank token = .ok after) :
    Reached (ts ++ (us ++ [.keyword word]) ++ [token.kind]) after := by
  unfold afterSelection at h
  split at h
  · next n hkind =>
    cases h
    have hm := hword (selectionCount_sound (hnum n hkind))
    simpa [hkind] using modified_sound hstack hg hm
  · exact afterGroup_sound hstack (hg.addModifier (hword .usual)) h

theorem afterClamp_sound {ts us : List TokenKind} {stack : List Frame} {g : DiceGroup}
    {word : Keyword} {clamp : Int → Clamp} {token : Token} {after : Reading}
    (hword : ∀ n, SpellsModifier g.sides [.keyword word, .number n] (.clamp (clamp n)))
    (hstack : SpellsStack ts stack) (hg : SpellsDice us g)
    (h : afterClamp stack g clamp token = .ok after) :
    Reached (ts ++ (us ++ [.keyword word]) ++ [token.kind]) after := by
  unfold afterClamp at h
  split at h
  · next n hkind =>
    cases h
    simpa [hkind] using modified_sound hstack hg (hword n)
  · cases h

/-- A trigger with any spelling of its condition makes up its modifier. -/
theorem spellsModifier_trigger {sides : Sides} (t : Trigger) {vs : List TokenKind} {c : Condition}
    (h : SpellsCondition (t.usualCondition sides).bound vs c) :
    SpellsModifier sides (.keyword (.trigger t) :: vs) (t.modifier c) := by
  cases t with
  | reroll repeats => exact .reroll repeats h
  | explode repeats => exact .explode repeats h
  | countSuccesses => exact .countSuccesses h

theorem afterTrigger_sound {ts us : List TokenKind} {stack : List Frame} {g : DiceGroup}
    {t : Trigger} {token : Token} {after : Reading} (hstack : SpellsStack ts stack)
    (hg : SpellsDice us g) (h : afterTrigger stack g t token = .ok after) :
    Reached (ts ++ (us ++ [.keyword (.trigger t)]) ++ [token.kind]) after := by
  unfold afterTrigger at h
  split at h
  · next c hkind =>
    cases h
    simpa [hkind] using Reached.unfinished hstack (.comparison hg t c)
  · next n hkind =>
    cases h
    have hm : SpellsModifier g.sides _ (t.modifier (.equalTo n)) := spellsModifier_trigger t (.bare n)
    simpa [hkind] using modified_sound hstack hg hm
  · refine afterGroup_sound hstack (hg.addModifier (spellsModifier_trigger t ?_)) h
    cases t <;> exact .usual

theorem afterKeyword_sound {ts us : List TokenKind} {stack : List Frame} {g : DiceGroup}
    {word : Keyword} {token : Token} {after : Reading}
    (hnum : ∀ n, token.kind = .number n → IsWritable n) (hstack : SpellsStack ts stack)
    (hg : SpellsDice us g) (h : afterKeyword stack g word token = .ok after) :
    Reached (ts ++ (us ++ [.keyword word]) ++ [token.kind]) after := by
  cases word with
  | keep => exact afterSelection_sound .keep hnum hstack hg h
  | select action rank => exact afterSelection_sound (.select action rank) hnum hstack hg h
  | minimum => exact afterClamp_sound .minimum hstack hg h
  | maximum => exact afterClamp_sound .maximum hstack hg h
  | trigger t => exact afterTrigger_sound hstack hg h

theorem afterComparison_sound {ts us : List TokenKind} {stack : List Frame} {g : DiceGroup}
    {t : Trigger} {c : Comparison} {token : Token} {after : Reading}
    (hstack : SpellsStack ts stack) (hg : SpellsDice us g)
    (h : afterComparison stack g t c token = .ok after) :
    Reached (ts ++ (us ++ [.keyword (.trigger t), .comparison c]) ++ [token.kind]) after := by
  unfold afterComparison at h
  split at h
  · next n hkind =>
    cases h
    have hm : SpellsModifier g.sides _ (t.modifier ⟨c, n⟩) :=
      spellsModifier_trigger t (.compared c n)
    simpa [hkind] using modified_sound hstack hg hm
  · cases h

theorem atStart_sound {ts : List TokenKind} {stack : List Frame} {token : Token} {after : Reading}
    (hnum : ∀ n, token.kind = .number n → IsWritable n) (hstack : SpellsStack ts stack)
    (h : atStart stack token = .ok after) : Reached (ts ++ [] ++ [token.kind]) after := by
  unfold atStart at h
  rw [List.append_nil]
  split at h
  · next hkind =>
    cases h
    simpa [hkind] using Reached.unfinished hstack.negation .start
  · next n hkind =>
    cases h
    rw [hkind]
    exact .unfinished hstack (.number token (hnum n hkind))
  · next hkind =>
    cases h
    rw [hkind]
    exact .unfinished hstack (.diceSign .usual)
  · next hkind =>
    cases h
    simpa [hkind] using Reached.unfinished hstack.parenthesis .start
  · cases h

theorem spellsCount_of_ofInt? {n : Int} {count : DiceCount} (hn : IsWritable n)
    (h : DiceCount.ofInt? n = some count) : SpellsCount [.number n] count := by
  unfold DiceCount.ofInt? at h
  split at h
  · cases h
    have hcast : ((n.toNat : Nat) : Int) = n := Int.toNat_of_nonneg hn.1
    have hwritten := SpellsCount.written ⟨n.toNat, by omega, by omega⟩ (by rw [hcast]; exact hn.2)
    rwa [hcast] at hwritten
  · cases h

theorem spellsSides_of_ofInt? {n : Int} {sides : Sides} (hn : IsWritable n)
    (h : Sides.ofInt? n = some sides) : SpellsSides [.number n] sides := by
  unfold Sides.ofInt? at h
  split at h
  · cases h
    have hcast : ((n.toNat : Nat) : Int) = n := Int.toNat_of_nonneg hn.1
    have hwritten := SpellsSides.written ⟨n.toNat, by omega, by omega⟩
    rwa [hcast] at hwritten
  · cases h

theorem afterNumber_sound {ts : List TokenKind} {stack : List Frame} {n : Int}
    {written token : Token} {after : Reading} (hn : IsWritable n) (hstack : SpellsStack ts stack)
    (h : afterNumber stack n written token = .ok after) :
    Reached (ts ++ [.number n] ++ [token.kind]) after := by
  unfold afterNumber at h
  split at h
  · next hkind =>
    split at h
    · next count hcount =>
      cases h
      rw [List.append_assoc, hkind]
      exact .unfinished hstack (.diceSign (spellsCount_of_ofInt? hn hcount))
    · cases h
  · cases h
  · exact afterFactor_sound hstack (.literal n) h

theorem afterDiceSign_sound {ts cs : List TokenKind} {stack : List Frame} {count : DiceCount}
    {token : Token} {after : Reading} (hnum : ∀ n, token.kind = .number n → IsWritable n)
    (hstack : SpellsStack ts stack) (hcount : SpellsCount cs count)
    (h : afterDiceSign stack count token = .ok after) :
    Reached (ts ++ (cs ++ [.dice]) ++ [token.kind]) after := by
  unfold afterDiceSign at h
  split at h
  · next n hkind =>
    split at h
    · next sides hsides =>
      cases h
      have hg := SpellsDice.group hcount (spellsSides_of_ofInt? (hnum n hkind) hsides) .nil
      simpa [hkind] using Reached.unfinished hstack (.group hg)
    · cases h
  · next hkind =>
    cases h
    have hg := SpellsDice.group hcount .percent .nil
    simpa [hkind] using Reached.unfinished hstack (.group hg)
  · exact afterGroup_sound hstack (.group hcount .usual .nil) h

theorem afterClosed_sound {ts us : List TokenKind} {stack : List Frame} {e : Expr} {token : Token}
    {after : Reading} (hstack : SpellsStack ts stack) (he : Derives .factor us e)
    (h : afterClosed stack e token = .ok after) : Reached (ts ++ us ++ [token.kind]) after := by
  unfold afterClosed at h
  split at h
  · cases h
  · exact afterFactor_sound hstack he h

/-- Every step keeps the relation between the tokens and the state. -/
theorem step_sound {ts : List TokenKind} {before after : Reading} {token : Token}
    (hnum : ∀ n, token.kind = .number n → IsWritable n) (hbefore : Reached ts before)
    (h : step before token = .ok after) : Reached (ts ++ [token.kind]) after := by
  cases hbefore with
  | finished whole rest =>
    cases h
    simpa using Reached.finished whole (rest ++ [token.kind])
  | unfinished hstack hphase =>
    cases hphase with
    | start => exact atStart_sound hnum hstack h
    | number written writable => exact afterNumber_sound writable hstack h
    | diceSign hcount => exact afterDiceSign_sound hnum hstack hcount h
    | group hg => exact afterGroup_sound hstack hg h
    | keyword hg => exact afterKeyword_sound hnum hstack hg h
    | comparison hg => exact afterComparison_sound hstack hg h
    | closed inner => exact afterClosed_sound hstack (.parentheses inner) h

/-- A whole run keeps the relation, token by token. -/
theorem reached_of_reads {tokens : List Token} {ts : List TokenKind} {before after : Reading}
    (hnum : ∀ token ∈ tokens, ∀ n, token.kind = .number n → IsWritable n)
    (hbefore : Reached ts before) (h : Reads before tokens after) :
    Reached (ts ++ tokens.map (·.kind)) after := by
  induction tokens generalizing ts before with
  | nil =>
    cases h
    simpa using hbefore
  | cons token rest ih =>
    unfold Reads at h
    rw [List.foldlM_cons] at h
    cases hstep : step before token with
    | error e =>
      rw [hstep] at h
      cases h
    | ok middle =>
      rw [hstep] at h
      have hmiddle := step_sound (hnum token (by simp)) hbefore hstep
      simpa using ih (fun t ht => hnum t (by simp [ht])) hmiddle h

end DiceNotation.Expr.Reading
