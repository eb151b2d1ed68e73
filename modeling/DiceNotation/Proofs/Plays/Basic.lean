import DiceNotation.Proofs.Plays.Recorder

/-!
# Plays

A play is an evaluation without its roller: it asks for one face after another, and the answers alone
decide how it goes on. Whatever is true of every play holds of every evaluation on every roller, and
needs one induction over plays in place of one over each loop that rolls dice.
-/

namespace DiceNotation

/-- An evaluation as a tree of requests. Where a request can fail, the play names what is left over. -/
inductive Play (α : Type) where
  | done (value : α) (failure : Option RollError)
  /-- Asks for the face of a die. -/
  | ask (sides : Sides) (lost : α) (next : Int → Play α)
  /-- Makes sure that so many more dice may be rolled. -/
  | makeRoom (n : Nat) (lost : α) (next : Play α)
  /-- Takes the index of the next group. -/
  | openGroup (next : Nat → Play α)
  | readLimit (next : Nat → Play α)

/-- A run as an answer, which has a value only if nothing failed. -/
def Run.answer {ρ α : Type} (r : Run ρ α) : Except RollError α × Context ρ :=
  match r.failure with
  | none => (.ok r.value, r.context)
  | some e => (.error e, r.context)

theorem Run.answer_snd {ρ α : Type} (r : Run ρ α) : r.answer.2 = r.context := by
  unfold answer
  split
  · rfl
  · rfl

theorem Run.of_answer_eq_ok {ρ α : Type} {r : Run ρ α} {value : α} {after : Context ρ}
    (h : r.answer = (.ok value, after)) : r = ⟨value, none, after⟩ := by
  obtain ⟨value', failure, context⟩ := r
  unfold answer at h
  cases failure with
  | none =>
    cases h
    rfl
  | some e => cases h

namespace Play

variable {α β ρ : Type}

section Running

variable [Roller ρ]

/-- Plays in a context. -/
def run : Play α → Context ρ → Run ρ α
  | done value failure, c => ⟨value, failure, c⟩
  | ask sides lost next, c =>
    match c.rollOne sides with
    | (.ok face, c) => (next face).run c
    | (.error e, c) => ⟨lost, some e, c⟩
  | makeRoom n lost next, c =>
    match c.refusal? n with
    | some e => ⟨lost, some e, c⟩
    | none => next.run c
  | openGroup next, c => (next c.groups).run { c with groups := c.groups + 1 }
  | readLimit next, c => (next c.limits.maxIterations).run c

/-- The faces that the play gets to see, in the order in which it asks for them. -/
def faces : Play α → Context ρ → List Int
  | done .., _ => []
  | ask sides _ next, c =>
    match c.rollOne sides with
    | (.ok face, c) => face :: (next face).faces c
    | (.error _, _) => []
  | makeRoom n _ next, c =>
    match c.refusal? n with
    | some _ => []
    | none => next.faces c
  | openGroup next, c => (next c.groups).faces { c with groups := c.groups + 1 }
  | readLimit next, c => (next c.limits.maxIterations).faces c

variable {c after : Context ρ} {sides : Sides} {lost : α} {next : Int → Play α} {e : RollError}

theorem run_ask_ok {face : Int} (h : c.rollOne sides = (.ok face, after)) :
    (ask sides lost next).run c = (next face).run after := by
  rw [run, h]

theorem run_ask_error (h : c.rollOne sides = (.error e, after)) :
    (ask sides lost next).run c = ⟨lost, some e, after⟩ := by
  rw [run, h]

theorem faces_ask_ok {face : Int} (h : c.rollOne sides = (.ok face, after)) :
    (ask sides lost next).faces c = face :: (next face).faces after := by
  rw [faces, h]

theorem run_makeRoom_none {n : Nat} {next : Play α} (h : c.refusal? n = none) :
    (makeRoom n lost next).run c = next.run c := by
  rw [run, h]

theorem run_makeRoom_some {n : Nat} {next : Play α} (h : c.refusal? n = some e) :
    (makeRoom n lost next).run c = ⟨lost, some e, c⟩ := by
  rw [run, h]

theorem faces_makeRoom_none {n : Nat} {next : Play α} (h : c.refusal? n = none) :
    (makeRoom n lost next).faces c = next.faces c := by
  rw [faces, h]

end Running

/-- Every successful way through the play comes from the faces on it to a value that `Q` allows. -/
def Leads : (List Int → α → Prop) → Play α → Prop
  | Q, done value failure => failure = none → Q [] value
  | Q, ask _ _ next => ∀ face, (next face).Leads fun rest value => Q (face :: rest) value
  | Q, makeRoom _ _ next => next.Leads Q
  | Q, openGroup next => ∀ index, (next index).Leads Q
  | Q, readLimit next => ∀ limit, (next limit).Leads Q

/-- The next `n` things the play does are to ask for faces. -/
def Asks : Nat → Play α → Prop
  | 0, _ => True
  | n + 1, ask _ _ next => ∀ face, (next face).Asks n
  | _ + 1, _ => False

/-- Room is only made for dice that are rolled next. -/
def Thrifty : Play α → Prop
  | done .. => True
  | ask _ _ next => ∀ face, (next face).Thrifty
  | makeRoom n _ next => next.Asks n ∧ next.Thrifty
  | openGroup next => ∀ index, (next index).Thrifty
  | readLimit next => ∀ limit, (next limit).Thrifty

/-- The play stays within the group it has been given. -/
def StaysInGroup : Play α → Prop
  | done .. => True
  | ask _ _ next => ∀ face, (next face).StaysInGroup
  | makeRoom _ _ next => next.StaysInGroup
  | openGroup _ => False
  | readLimit next => ∀ limit, (next limit).StaysInGroup

/-- Goes on from the value of a play. A failure is final; `keep` says what it leaves over. -/
def andThen (keep : α → β) (f : α → Play β) : Play α → Play β
  | done value none => f value
  | done value (some e) => done (keep value) (some e)
  | ask sides lost next => ask sides (keep lost) fun face => (next face).andThen keep f
  | makeRoom n lost next => makeRoom n (keep lost) (next.andThen keep f)
  | openGroup next => openGroup fun index => (next index).andThen keep f
  | readLimit next => readLimit fun limit => (next limit).andThen keep f

section AndThen

variable {keep : α → β} {f : α → Play β} {t : Play α}

theorem run_andThen [Roller ρ] (c : Context ρ) :
    (t.andThen keep f).run c =
      match (t.run c).failure with
      | some e => ⟨keep (t.run c).value, some e, (t.run c).context⟩
      | none => (f (t.run c).value).run (t.run c).context := by
  induction t generalizing c with
  | done value failure =>
    cases failure with
    | none => rfl
    | some e => rfl
  | ask sides lost next ih =>
    simp only [andThen, run]
    split
    · exact ih _ _
    · rfl
  | makeRoom n lost next ih =>
    simp only [andThen, run]
    split
    · rfl
    · exact ih c
  | openGroup next ih => exact ih _ _
  | readLimit next ih => exact ih _ _

theorem leads_andThen {Q : List Int → α → Prop} {S : List Int → β → Prop} (ht : t.Leads Q)
    (hf : ∀ front value, Q front value → (f value).Leads fun rest w => S (front ++ rest) w) :
    (t.andThen keep f).Leads S := by
  induction t generalizing Q S with
  | done value failure =>
    cases failure with
    | none => exact hf [] value (ht rfl)
    | some e => intro h; cases h
  | ask sides lost next ih =>
    intro face
    exact ih face (ht face) fun front value h => hf (face :: front) value h
  | makeRoom n lost next ih => exact ih ht hf
  | openGroup next ih => exact fun index => ih index (ht index) hf
  | readLimit next ih => exact fun limit => ih limit (ht limit) hf

theorem asks_andThen {n : Nat} (ht : t.Asks n) : (t.andThen keep f).Asks n := by
  induction n generalizing t with
  | zero => trivial
  | succ n ih =>
    cases t with
    | ask sides lost next => exact fun face => ih (ht face)
    | done | makeRoom | openGroup | readLimit => cases ht

theorem thrifty_andThen (ht : t.Thrifty) (hf : ∀ value, (f value).Thrifty) :
    (t.andThen keep f).Thrifty := by
  induction t with
  | done value failure =>
    cases failure with
    | none => exact hf value
    | some e => trivial
  | ask sides lost next ih => exact fun face => ih face (ht face)
  | makeRoom n lost next ih => exact ⟨asks_andThen ht.1, ih ht.2⟩
  | openGroup next ih => exact fun index => ih index (ht index)
  | readLimit next ih => exact fun limit => ih limit (ht limit)

theorem staysInGroup_andThen (ht : t.StaysInGroup) (hf : ∀ value, (f value).StaysInGroup) :
    (t.andThen keep f).StaysInGroup := by
  induction t with
  | done value failure =>
    cases failure with
    | none => exact hf value
    | some e => trivial
  | ask sides lost next ih => exact fun face => ih face (ht face)
  | makeRoom n lost next ih => exact ih ht
  | openGroup next ih => cases ht
  | readLimit next ih => exact fun limit => ih limit (ht limit)

end AndThen

end Play

end DiceNotation
