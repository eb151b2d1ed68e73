import DiceNotation.Proofs.Reader.Acceptance

/-!
# Errors stand at the first token that cannot be right

The reader never waits with an error: as long as it has a state, some continuation is accepted
(`completable`), and at an error it has seen nothing but the token it reports. What it lists
as expected is exact in so far as each of these kinds leads to a state again (`afterPhase_of_expected`).
-/

namespace DiceNotation.Expr
open Grammar Reading

/-- The last token, and no other, stands for the end of the input. -/
def EndsOnce (tokens : List Token) : Prop :=
  ∃ front last, tokens = front ++ [last] ∧ last.kind = .endOfInput ∧
    ∀ t ∈ front, t.kind ≠ .endOfInput

/-- Some list that begins with these tokens is accepted. -/
def Viable (front : List Token) : Prop :=
  ∃ rest e, EndsOnce (front ++ rest) ∧ ofTokens (front ++ rest) = .ok e

/-- No list whatever that begins with these tokens is accepted. -/
def Dead (front : List Token) : Prop := ∀ rest e, ofTokens (front ++ rest) ≠ .ok e

theorem EndsOnce.single {t : Token} (ht : t.kind = .endOfInput) : EndsOnce [t] :=
  ⟨[], t, rfl, ht, by simp⟩

theorem EndsOnce.append {front rest : List Token} (hfront : ∀ t ∈ front, t.kind ≠ .endOfInput)
    (h : EndsOnce rest) : EndsOnce (front ++ rest) := by
  obtain ⟨middle, last, rfl, hlast, hmiddle⟩ := h
  refine ⟨front ++ middle, last, (List.append_assoc ..).symm, hlast, fun t ht => ?_⟩
  rcases List.mem_append.1 ht with ht | ht
  · exact hfront t ht
  · exact hmiddle t ht

theorem EndsOnce.cons {t : Token} {rest : List Token} (ht : t.kind ≠ .endOfInput)
    (h : EndsOnce rest) : EndsOnce (t :: rest) := by
  have hfront : ∀ t' ∈ [t], t'.kind ≠ .endOfInput := by simpa using ht
  exact EndsOnce.append hfront h

/-- Whatever stands before another token is not the end. -/
theorem EndsOnce.kind_ne {front back : List Token} {t : Token}
    (h : EndsOnce (front ++ t :: back)) : ∀ t ∈ front, t.kind ≠ .endOfInput := by
  obtain ⟨before, last, heq, -, hbefore⟩ := h
  have hdrop := congrArg List.dropLast heq
  rw [List.dropLast_append_cons, List.dropLast_concat] at hdrop
  subst hdrop
  exact fun t ht => hbefore t (List.mem_append_left _ ht)

namespace Reading

/-! ## Every state can be completed -/

/-- From here some tokens lead to a finished expression. -/
def Completable (r : Reading) : Prop := ∃ rest e, EndsOnce rest ∧ Reads r rest (.finished e)

theorem Completable.of_step {r after : Reading} {t : Token} (hstep : step r t = .ok after)
    (ht : t.kind ≠ .endOfInput) (h : Completable after) : Completable r := by
  obtain ⟨rest, e, hends, hreads⟩ := h
  exact ⟨t :: rest, e, hends.cons ht, .cons hstep hreads⟩

/-- Without a bound on precedence, reducing goes on to the innermost open parenthesis. -/
theorem reduce_zero (e : Expr) (stack : List Frame) :
    (∃ whole, reduce 0 e stack = (whole, []) ∧ .parenthesis ∉ stack) ∨
      ∃ inner below, reduce 0 e stack = (inner, .parenthesis :: below) ∧ .parenthesis ∈ stack ∧
        below.length < stack.length := by
  induction stack generalizing e with
  | nil => exact .inl ⟨e, rfl, by simp⟩
  | cons frame stack ih =>
    cases frame with
    | parenthesis => exact .inr ⟨e, stack, rfl, by simp, by simp⟩
    | negation =>
      rcases ih (.negate e) with ⟨whole, hreduce, hopen⟩ | ⟨inner, below, hreduce, hopen, hlength⟩
      · exact .inl ⟨whole, by rw [reduce, hreduce], by simpa using hopen⟩
      · exact .inr ⟨inner, below, by rw [reduce, hreduce], by simpa using hopen, by simp; omega⟩
    | leftOperand l op =>
      rcases ih (.binary op l e) with ⟨whole, hreduce, hopen⟩ | ⟨inner, below, hreduce, hopen, hlength⟩
      · exact .inl ⟨whole, by rw [reduce, if_pos (Nat.zero_le _), hreduce], by simpa using hopen⟩
      · exact .inr ⟨inner, below, by rw [reduce, if_pos (Nat.zero_le _), hreduce],
          by simpa using hopen, by simp; omega⟩

theorem offersOperand_number (n : Int) (written : Token) :
    OffersOperand (.number n written) (.literal n) := by
  intro stack token hends
  simp only [afterPhase, afterNumber]
  split
  · next hkind => simp [hkind, EndsOperand] at hends
  · next hkind => simp [hkind, EndsOperand] at hends
  · rfl

theorem offersOperand_closed (inner : Expr) : OffersOperand (.closed inner) inner := by
  intro stack token hends
  simp only [afterPhase, afterClosed]
  split
  · next hkind => simp [hkind, EndsOperand] at hends
  · rfl

/-- A factor is completed by closing every open parenthesis. -/
theorem OffersOperand.completable {phase : Phase} {e : Expr} (h : OffersOperand phase e)
    (stack : List Frame) : Completable (.unfinished stack phase) := by
  -- The parentheses are closed from the inside out, so the induction is on the height of the stack.
  induction hn : stack.length using Nat.strongRecOn generalizing stack phase e with
  | ind n ih =>
    rcases reduce_zero e stack with ⟨whole, hreduce, -⟩ | ⟨inner, below, hreduce, -, hlength⟩
    · refine ⟨[⟨.endOfInput, 0, 0⟩], whole, .single rfl, .single ?_⟩
      rw [step, h stack _ (by simp [EndsOperand])]
      simp [afterFactor, hreduce]
    · have hbelow := ih below.length (hn ▸ hlength) (offersOperand_closed inner) below rfl
      refine hbelow.of_step (t := ⟨.closeParen, 0, 0⟩) ?_ (by simp)
      rw [step, h stack _ (by simp [EndsOperand])]
      simp [afterFactor, hreduce]

/-! ## What a phase expects -/

/-- What can follow a whole factor and does not extend it. -/
def followers (stack : List Frame) : List TokenKind :=
  if .parenthesis ∈ stack then [.closeParen] else factorFollowers

/-- What the reader lists when a token fits nowhere. -/
def expected (stack : List Frame) : Phase → List TokenKind
  | .start => factorStarts
  | .comparison .. | .keyword _ .minimum | .keyword _ .maximum => [TokenKind.anyNumber]
  | .number .. | .diceSign _ | .group _ | .closed _ | .keyword .. => followers stack

/-- In this phase a number completes a modifier and nothing else is of any use. -/
structure AwaitsNumber (phase : Phase) : Prop where
  number : ∀ (stack : List Frame) (t : Token) (n : Int), t.kind = .number n →
    ∃ g, afterPhase stack phase t = .ok (.unfinished stack (.group g))
  other : ∀ (stack : List Frame) (t : Token), (∀ n, t.kind ≠ .number n) →
    afterPhase stack phase t = unexpected [TokenKind.anyNumber] t

theorem awaitsNumber_of_eq {phase : Phase} (f : Int → DiceGroup)
    (h : ∀ (stack : List Frame) (t : Token), afterPhase stack phase t =
      match t.kind with
      | .number n => .ok (.unfinished stack (.group (f n)))
      | _ => unexpected [TokenKind.anyNumber] t) : AwaitsNumber phase where
  number := by
    intro stack t n hkind
    exact ⟨f n, by rw [h, hkind]⟩
  other := by
    intro stack t hkind
    rw [h]
    split
    · next n hn => exact absurd hn (hkind n)
    · rfl

/-- A factor starts in the first phase, a modifier may wait for its number, and in every other phase
the factor may end. -/
theorem phase_cases (phase : Phase) :
    phase = .start ∨ (AwaitsNumber phase ∧ ∀ stack, expected stack phase = [TokenKind.anyNumber]) ∨
      ∃ f, OffersOperand phase f ∧ ∀ stack, expected stack phase = followers stack := by
  cases phase with
  | start => exact .inl rfl
  | number n written => exact .inr (.inr ⟨_, offersOperand_number n written, fun _ => rfl⟩)
  | diceSign count =>
    exact .inr (.inr ⟨_, (offersGroup_diceSign count).offersOperand, fun _ => rfl⟩)
  | group g => exact .inr (.inr ⟨_, (offersGroup_group g).offersOperand, fun _ => rfl⟩)
  | closed inner => exact .inr (.inr ⟨_, offersOperand_closed inner, fun _ => rfl⟩)
  | comparison g t c =>
    exact .inr (.inl ⟨awaitsNumber_of_eq (fun n => g.addModifier (t.modifier ⟨c, n⟩))
      fun _ _ => rfl, fun _ => rfl⟩)
  | keyword g word =>
    cases word with
    | minimum =>
      exact .inr (.inl ⟨awaitsNumber_of_eq (fun n => g.addModifier (.clamp (.minimum n)))
        fun _ _ => rfl, fun _ => rfl⟩)
    | maximum =>
      exact .inr (.inl ⟨awaitsNumber_of_eq (fun n => g.addModifier (.clamp (.maximum n)))
        fun _ _ => rfl, fun _ => rfl⟩)
    | keep => exact .inr (.inr ⟨_, (offersGroup_keyword (.keep .usual)).offersOperand, fun _ => rfl⟩)
    | select action rank =>
      exact .inr (.inr ⟨_, (offersGroup_keyword (.select action rank .usual)).offersOperand,
        fun _ => rfl⟩)
    | trigger t =>
      have hm : SpellsModifier g.sides [.keyword (.trigger t)]
          (t.modifier (t.usualCondition g.sides)) := by
        refine spellsModifier_trigger t ?_
        cases t <;> exact .usual
      exact .inr (.inr ⟨_, (offersGroup_keyword hm).offersOperand, fun _ => rfl⟩)

/-- Whatever has been read without an error can be completed. -/
theorem completable (r : Reading) : Completable r := by
  cases r with
  | finished e => exact ⟨[⟨.endOfInput, 0, 0⟩], e, .single rfl, .single rfl⟩
  | unfinished stack phase =>
    rcases phase_cases phase with rfl | ⟨hnumber, -⟩ | ⟨f, hf, -⟩
    · have hzero := (offersOperand_number 0 ⟨.number 0, 0, 0⟩).completable stack
      exact hzero.of_step (t := ⟨.number 0, 0, 0⟩) rfl (by simp)
    · obtain ⟨g, hg⟩ := hnumber.number stack ⟨.number 0, 0, 0⟩ 0 rfl
      exact ((offersGroup_group g).offersOperand.completable stack).of_step hg (by simp)
    · exact hf.completable stack

/-! ## What an error lists -/

/-- The error speaks about this token. Bad counts and sides are another matter. -/
def Blames (listed : List TokenKind) (token : Token) (e : ParseError) : Prop :=
  e.kind = .invalidDice ∨ e = .atToken token .modifierWithoutDice ∨
    e = .atToken token (.unexpectedToken listed)

variable {stack : List Frame} {token : Token} {e : ParseError}

theorem afterFactor_blames {f : Expr} (h : afterFactor stack f token = .error e) :
    Blames (followers stack) token e := by
  refine .inr (.inr ?_)
  unfold afterFactor at h
  unfold followers
  split at h
  · cases h
  · rcases reduce_zero f stack with ⟨whole, hreduce, hopen⟩ | ⟨inner, below, hreduce, -, -⟩
    · rw [hreduce] at h
      rw [if_neg hopen]
      cases h
      rfl
    · rw [hreduce] at h
      cases h
  · rcases reduce_zero f stack with ⟨whole, hreduce, -⟩ | ⟨inner, below, hreduce, hopen, -⟩
    · rw [hreduce] at h
      cases h
    · rw [hreduce] at h
      rw [if_pos hopen]
      cases h
      rfl
  · by_cases hopen : .parenthesis ∈ stack
    · rw [if_pos (List.contains_iff_mem.2 hopen)] at h
      rw [if_pos hopen]
      cases h
      rfl
    · rw [if_neg (mt List.contains_iff_mem.1 hopen)] at h
      rw [if_neg hopen]
      cases h
      rfl

theorem afterGroup_blames {g : DiceGroup} (h : afterGroup stack g token = .error e) :
    Blames (followers stack) token e := by
  unfold afterGroup at h
  split at h
  · cases h
  · exact afterFactor_blames h

theorem afterKeyword_blames {g : DiceGroup} {word : Keyword}
    (h : afterKeyword stack g word token = .error e) :
    Blames (expected stack (.keyword g word)) token e := by
  cases word with
  | keep | select action rank =>
    simp only [afterKeyword, afterSelection] at h
    split at h
    · cases h
    · exact afterGroup_blames h
  | minimum | maximum =>
    simp only [afterKeyword, afterClamp] at h
    split at h
    · cases h
    · cases h
      exact .inr (.inr rfl)
  | trigger t =>
    simp only [afterKeyword, afterTrigger] at h
    split at h
    · cases h
    · cases h
    · exact afterGroup_blames h

/-- An error is about the token at hand, and lists what the phase expects. -/
theorem afterPhase_blames {phase : Phase} (h : afterPhase stack phase token = .error e) :
    Blames (expected stack phase) token e := by
  cases phase with
  | start =>
    simp only [afterPhase, atStart] at h
    split at h
    · cases h
    · cases h
    · cases h
    · cases h
    · cases h
      exact .inr (.inr rfl)
  | number n written =>
    simp only [afterPhase, afterNumber] at h
    split at h
    · split at h
      · cases h
      · cases h
        exact .inl rfl
    · cases h
      exact .inr (.inl rfl)
    · exact afterFactor_blames h
  | diceSign count =>
    simp only [afterPhase, afterDiceSign] at h
    split at h
    · split at h
      · cases h
      · cases h
        exact .inl rfl
    · cases h
    · exact afterGroup_blames h
  | group g => exact afterGroup_blames h
  | keyword g word => exact afterKeyword_blames h
  | comparison g t c =>
    simp only [afterPhase, afterComparison] at h
    split at h
    · cases h
    · cases h
      exact .inr (.inr rfl)
  | closed inner =>
    simp only [afterPhase, afterClosed] at h
    split at h
    · cases h
      exact .inr (.inl rfl)
    · exact afterFactor_blames h

/-! ## What is listed is welcome -/

variable {k : TokenKind} {t : Token}

theorem endsOperand_of_follower (hk : k ∈ followers stack) : EndsOperand k := by
  unfold followers at hk
  split at hk
  · rw [List.mem_singleton.1 hk]
    trivial
  · simp only [factorFollowers, List.mem_cons, List.not_mem_nil, or_false] at hk
    rcases hk with rfl | rfl | rfl | rfl | rfl <;> trivial

/-- A token of a class without members of its own is of that very kind. -/
theorem kind_eq_of_label (h : t.kind.label = k.label) (hnumber : ∀ n, k ≠ .number n)
    (hkeyword : ∀ word, k ≠ .keyword word) (hcomparison : ∀ c, k ≠ .comparison c) : t.kind = k := by
  generalize t.kind = kind at h
  cases k with
  | number n => exact absurd rfl (hnumber n)
  | keyword word => exact absurd rfl (hkeyword word)
  | comparison c => exact absurd rfl (hcomparison c)
  | operator op =>
    cases kind with
    | operator op' => cases op <;> cases op' <;> simp_all [TokenKind.label, BinaryOp.symbol]
    | _ => cases op <;> simp [TokenKind.label, BinaryOp.symbol] at h
  | dice | percent | openParen | closeParen | endOfInput =>
    cases kind with
    | operator op => cases op <;> simp [TokenKind.label, BinaryOp.symbol] at h
    | _ => simp_all [TokenKind.label]

theorem exists_number_of_label (h : t.kind.label = TokenKind.anyNumber.label) :
    ∃ n, t.kind = .number n := by
  generalize t.kind = kind at h
  cases kind with
  | number n => exact ⟨n, rfl⟩
  | operator op => cases op <;> simp [TokenKind.label, BinaryOp.symbol, TokenKind.anyNumber] at h
  | _ => simp [TokenKind.label, TokenKind.anyNumber] at h

theorem afterFactor_of_follower (ht : t.kind ∈ followers stack) (f : Expr) :
    ∃ after, afterFactor stack f t = .ok after := by
  unfold followers at ht
  unfold afterFactor
  rcases reduce_zero f stack with ⟨whole, hreduce, hopen⟩ | ⟨inner, below, hreduce, hopen, -⟩
  · rw [if_neg hopen] at ht
    simp only [factorFollowers, List.mem_cons, List.not_mem_nil, or_false] at ht
    rcases ht with ht | ht | ht | ht | ht <;> simp [ht, hreduce]
  · rw [if_pos hopen] at ht
    simp [List.mem_singleton.1 ht, hreduce]

/-- A factor goes on with each of its followers. -/
theorem OffersOperand.of_follower {phase : Phase} {f : Expr} (h : OffersOperand phase f)
    (hk : k ∈ followers stack) (ht : t.kind.label = k.label) :
    ∃ after, afterPhase stack phase t = .ok after := by
  have hends := endsOperand_of_follower hk
  have hkind : t.kind = k := by
    refine kind_eq_of_label ht ?_ ?_ ?_
    all_goals
      rintro x rfl
      exact hends
  rw [h stack t (hkind ▸ hends)]
  exact afterFactor_of_follower (hkind ▸ hk) f

theorem atStart_of_expected (hk : k ∈ factorStarts) (ht : t.kind.label = k.label) :
    ∃ after, atStart stack t = .ok after := by
  simp only [factorStarts, List.mem_cons, List.not_mem_nil, or_false] at hk
  rcases hk with rfl | rfl | rfl | rfl
  · have hkind := kind_eq_of_label ht (by simp) (by simp) (by simp)
    simp [atStart, hkind]
  · have hkind := kind_eq_of_label ht (by simp) (by simp) (by simp)
    simp [atStart, hkind]
  · obtain ⟨n, hkind⟩ := exists_number_of_label ht
    simp [atStart, hkind]
  · have hkind := kind_eq_of_label ht (by simp) (by simp) (by simp)
    simp [atStart, hkind]

/-- Each token of a kind that the phase expects is taken in. -/
theorem afterPhase_of_expected {phase : Phase} (hk : k ∈ expected stack phase)
    (ht : t.kind.label = k.label) : ∃ after, afterPhase stack phase t = .ok after := by
  rcases phase_cases phase with rfl | ⟨hnumber, hlisted⟩ | ⟨f, hf, hlisted⟩
  · exact atStart_of_expected hk ht
  · rw [hlisted, List.mem_singleton] at hk
    obtain ⟨n, hn⟩ := exists_number_of_label (hk ▸ ht)
    obtain ⟨g, hg⟩ := hnumber.number stack t n hn
    exact ⟨_, hg⟩
  · rw [hlisted] at hk
    exact hf.of_follower hk ht

/-- The end of the input finishes the expression or is refused. -/
theorem step_endOfInput {r after : Reading} (ht : t.kind = .endOfInput)
    (h : step r t = .ok after) : ∃ e, after = .finished e := by
  cases r with
  | finished e =>
    cases h
    exact ⟨e, rfl⟩
  | unfinished stack phase =>
    rw [step] at h
    rcases phase_cases phase with rfl | ⟨hnumber, -⟩ | ⟨f, hf, -⟩
    · simp [afterPhase, atStart, ht, unexpected] at h
    · rw [hnumber.other stack t (by simp [ht])] at h
      cases h
    · rw [hf stack t (by simp [ht, EndsOperand])] at h
      rcases reduce_zero f stack with ⟨whole, hreduce, -⟩ | ⟨inner, below, hreduce, -, -⟩
      · simp only [afterFactor, ht, hreduce] at h
        cases h
        exact ⟨whole, rfl⟩
      · simp [afterFactor, ht, hreduce, unexpected] at h

/-! ## Runs -/

theorem Reads.of_append {a c : Reading} {tokens more : List Token} (h : Reads a (tokens ++ more) c) :
    ∃ b, Reads a tokens b ∧ Reads b more c := by
  unfold Reads at h
  rw [List.foldlM_append] at h
  cases hb : tokens.foldlM step a with
  | error e =>
    rw [hb] at h
    cases h
  | ok b =>
    rw [hb] at h
    exact ⟨b, hb, h⟩

theorem Reads.step_eq {a b : Reading} {t : Token} (h : Reads a [t] b) : step a t = .ok b := by
  unfold Reads at h
  rw [List.foldlM_cons] at h
  cases hstep : step a t with
  | error e =>
    rw [hstep] at h
    cases h
  | ok b' =>
    rw [hstep] at h
    exact h

theorem Reads.of_cons {a c : Reading} {t : Token} {rest : List Token} (h : Reads a (t :: rest) c) :
    ∃ b, step a t = .ok b ∧ Reads b rest c := by
  rw [← List.singleton_append] at h
  obtain ⟨b, hfirst, hrest⟩ := h.of_append
  exact ⟨b, hfirst.step_eq, hrest⟩

/-- A run that fails has read all that stands before the token it fails at. -/
theorem exists_reads_of_eq_error {before : Reading} {tokens : List Token} {e : ParseError}
    (h : tokens.foldlM step before = .error e) :
    ∃ front token back middle, tokens = front ++ token :: back ∧ Reads before front middle ∧
      step middle token = .error e := by
  induction tokens generalizing before with
  | nil => cases h
  | cons token rest ih =>
    rw [List.foldlM_cons] at h
    cases hstep : step before token with
    | error e' =>
      rw [hstep] at h
      cases h
      exact ⟨[], token, rest, before, rfl, .nil _, hstep⟩
    | ok next =>
      rw [hstep] at h
      obtain ⟨front, token', back, middle, rfl, hreads, hfails⟩ := ih h
      exact ⟨token :: front, token', back, middle, rfl, .cons hstep hreads, hfails⟩

end Reading

theorem ofTokens_of_reads {tokens : List Token} {e : Expr} (hends : EndsOnce tokens)
    (h : Reads .initial tokens (.finished e)) : ofTokens tokens = .ok e := by
  obtain ⟨front, last, rfl, -, -⟩ := hends
  rw [ofTokens_eq_ok_iff_reads List.getLast?_concat]
  exact h.append (reads_finished e _)

/-- Where the reader fails, so does its run over the tokens themselves. -/
theorem foldlM_of_ofTokens_eq_error {tokens : List Token} {err : ParseError}
    (hends : EndsOnce tokens) (h : ofTokens tokens = .error err) :
    tokens.foldlM step .initial = .error err := by
  cases hrun : tokens.foldlM step .initial with
  | ok r =>
    have hreads : Reads .initial tokens r := hrun
    obtain ⟨front, last, rfl, hlast, -⟩ := id hends
    obtain ⟨middle, -, hend⟩ := hreads.of_append
    obtain ⟨e, rfl⟩ := step_endOfInput hlast hend.step_eq
    rw [ofTokens_of_reads hends hreads] at h
    cases h
  | error err' =>
    obtain ⟨front, last, rfl, -, -⟩ := hends
    simp only [ofTokens, List.getLast?_concat] at h
    rw [List.foldlM_append, hrun] at h
    simpa [bind, Except.bind] using h

theorem dead_of_step {front : List Token} {token : Token} {middle : Reading} {err : ParseError}
    (hfront : Reads .initial front middle) (hstep : step middle token = .error err) :
    Dead (front ++ [token]) := by
  intro rest e h
  obtain ⟨last, hlast⟩ : ∃ last, (front ++ [token] ++ rest).getLast? = some last := by
    cases hnone : (front ++ [token] ++ rest).getLast? with
    | none => simp at hnone
    | some last => exact ⟨last, rfl⟩
  rw [ofTokens_eq_ok_iff_reads hlast, List.append_assoc] at h
  obtain ⟨after, hafter, -⟩ := h.of_append
  obtain ⟨middle', hmiddle, hlast⟩ := hafter.of_append
  cases hfront.symm.trans hmiddle
  cases hstep.symm.trans hlast.step_eq

theorem viable_of_reads {front : List Token} {r : Reading} (hfront : Reads .initial front r)
    (hbefore : ∀ t ∈ front, t.kind ≠ .endOfInput) : Viable front := by
  obtain ⟨rest, e, hends, hrest⟩ := completable r
  have hall := EndsOnce.append hbefore hends
  exact ⟨rest, e, hall, ofTokens_of_reads hall (hfront.append hrest)⟩

theorem viable_of_step {front : List Token} {t : Token} {middle after : Reading}
    (hfront : Reads .initial front middle) (hstep : step middle t = .ok after)
    (hbefore : ∀ t ∈ front, t.kind ≠ .endOfInput) : Viable (front ++ [t]) := by
  have hreads := hfront.append (.single hstep)
  by_cases ht : t.kind = .endOfInput
  · obtain ⟨e, rfl⟩ := step_endOfInput ht hstep
    have hall := EndsOnce.append hbefore (.single ht)
    exact ⟨[], e, by simpa using hall, by simpa using ofTokens_of_reads hall hreads⟩
  · refine viable_of_reads hreads fun t' ht' => ?_
    rcases List.mem_append.1 ht' with ht' | ht'
    · exact hbefore t' ht'
    · rwa [List.mem_singleton.1 ht']

/-- An error other than that of bad dice is about a token of the list. With that token no list is
accepted any more; without it some list is, and so is some list that goes on with any token of the
kinds listed as expected. -/
theorem ofTokens_error_viable {tokens : List Token} {err : ParseError} (hends : EndsOnce tokens)
    (h : ofTokens tokens = .error err) (hkind : err.kind ≠ .invalidDice) :
    ∃ front token back, tokens = front ++ token :: back ∧ err.position = token.start ∧
      err.found = token.kind.describe ∧ Dead (front ++ [token]) ∧ Viable front ∧
      ∀ expected, err.kind = .unexpectedToken expected → ∀ k ∈ expected,
        ∀ t : Token, t.kind.label = k.label → Viable (front ++ [t]) := by
  have hrun := foldlM_of_ofTokens_eq_error hends h
  obtain ⟨front, token, back, middle, rfl, hfront, hstep⟩ := exists_reads_of_eq_error hrun
  have hbefore := hends.kind_ne
  refine ⟨front, token, back, rfl, ?_⟩
  cases middle with
  | finished e => cases hstep
  | unfinished stack phase =>
    have hdead := dead_of_step hfront hstep
    have hviable := viable_of_reads hfront hbefore
    rcases afterPhase_blames hstep with hdice | rfl | rfl
    · exact absurd hdice hkind
    · refine ⟨rfl, rfl, hdead, hviable, fun expected hexpected => ?_⟩
      cases hexpected
    · refine ⟨rfl, rfl, hdead, hviable, fun expected hexpected k hk t ht => ?_⟩
      cases hexpected
      obtain ⟨after, hafter⟩ := afterPhase_of_expected hk ht
      exact viable_of_step hfront hafter hbefore

/-- The tokens of `(2d6kh`. -/
def openTokens : List Token :=
  [⟨.openParen, 0, 1⟩, ⟨.number 2, 1, 2⟩, ⟨.dice, 2, 3⟩, ⟨.number 6, 3, 4⟩,
    ⟨.keyword (.select .keep .highest), 4, 6⟩, ⟨.endOfInput, 6, 6⟩]

theorem openTokens_viable :
    EndsOnce openTokens ∧
      ofTokens openTokens = .error ⟨.unexpectedToken [.closeParen], 6, "end of input"⟩ ∧
      ∃ front token back, openTokens = front ++ token :: back ∧ 6 = token.start ∧
        "end of input" = token.kind.describe ∧ Dead (front ++ [token]) ∧ Viable front ∧
        ∀ t : Token, t.kind.label = "')'" → Viable (front ++ [t]) := by
  have hends : EndsOnce openTokens :=
    ⟨openTokens.dropLast, ⟨.endOfInput, 6, 6⟩, rfl, rfl, by decide⟩
  have hread : ofTokens openTokens = .error ⟨.unexpectedToken [.closeParen], 6, "end of input"⟩ := rfl
  obtain ⟨front, token, back, heq, hposition, hfound, hdead, hviable, hlisted⟩ :=
    ofTokens_error_viable hends hread (by simp)
  exact ⟨hends, hread, front, token, back, heq, hposition, hfound, hdead, hviable,
    hlisted _ rfl .closeParen (by simp)⟩

end DiceNotation.Expr
