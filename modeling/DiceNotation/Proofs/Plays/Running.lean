import DiceNotation.Proofs.Plays.Basic
import DiceNotation.Proofs.Rolls.Playing

/-!
# What every play does

A record does not disturb a play and shows the faces it has seen. Played back, these faces lead to the
same end. A cap on rolls cuts a play off at the first roll past it and is not noticed otherwise.
-/

namespace DiceNotation

variable {α ρ : Type} [Roller ρ]

theorem Sides.one_le_top (s : Sides) : 1 ≤ s.top := by
  have := s.pos
  unfold top
  omega

namespace Context

/-- All that the roll of one die can come to. -/
theorem rollOne_cases (c : Context ρ) (s : Sides) :
    (∃ e, c.refusal? 1 = some e ∧ c.rollOne s = (.error e, c)) ∨
      c.refusal? 1 = none ∧
        c.rollOne s = ((Roller.roll c.roller 1 s.top).1,
          { c with rolls := c.rolls + 1, roller := (Roller.roll c.roller 1 s.top).2 }) := by
  unfold rollOne
  cases h : c.refusal? 1 with
  | some e => exact .inl ⟨e, rfl, rfl⟩
  | none => exact .inr ⟨rfl, rfl⟩

theorem of_rollOne_eq_ok {c after : Context ρ} {s : Sides} {face : Int}
    (h : c.rollOne s = (.ok face, after)) :
    c.refusal? 1 = none ∧ (Roller.roll c.roller 1 s.top).1 = .ok face ∧
      after = { c with rolls := c.rolls + 1, roller := (Roller.roll c.roller 1 s.top).2 } := by
  rcases c.rollOne_cases s with ⟨e, -, hroll⟩ | ⟨hroom, hroll⟩
  · rw [hroll] at h
    cases h
  · rw [hroll] at h
    exact ⟨hroom, congrArg Prod.fst h, (congrArg Prod.snd h).symm⟩

theorem rollOne_unrecorded (c : Context (Recorder ρ)) (s : Sides) :
    c.unrecorded.rollOne s = ((c.rollOne s).1, (c.rollOne s).2.unrecorded) := by
  have hrefusal : c.unrecorded.refusal? 1 = c.refusal? 1 := rfl
  unfold rollOne
  rw [hrefusal]
  cases c.refusal? 1 with
  | some e => rfl
  | none => rfl

end Context

namespace Play

section Success

variable {c : Context ρ}

/-- A play that succeeds has got the face it asked for. -/
theorem ask_success {sides : Sides} {lost : α} {next : Int → Play α}
    (h : ((ask sides lost next).run c).failure = none) :
    ∃ face after, c.rollOne sides = (.ok face, after) ∧
      (ask sides lost next).run c = (next face).run after ∧
      (ask sides lost next).faces c = face :: (next face).faces after := by
  cases hroll : c.rollOne sides with
  | mk answer after =>
    cases answer with
    | error e =>
      rw [run_ask_error hroll] at h
      cases h
    | ok face => exact ⟨face, after, rfl, run_ask_ok hroll, faces_ask_ok hroll⟩

/-- A play that succeeds has found the room it asked for. -/
theorem makeRoom_success {n : Nat} {lost : α} {next : Play α}
    (h : ((makeRoom n lost next).run c).failure = none) :
    c.refusal? n = none ∧ (makeRoom n lost next).run c = next.run c ∧
      (makeRoom n lost next).faces c = next.faces c := by
  cases hroom : c.refusal? n with
  | some e =>
    rw [run_makeRoom_some hroom] at h
    cases h
  | none => exact ⟨rfl, run_makeRoom_none hroom, faces_makeRoom_none hroom⟩

theorem Leads.value {Q : List Int → α → Prop} {t : Play α} (ht : t.Leads Q)
    (h : (t.run c).failure = none) : Q (t.faces c) (t.run c).value := by
  induction t generalizing Q c with
  | done value failure => exact ht h
  | ask sides lost next ih =>
    obtain ⟨face, after, -, hrun, hfaces⟩ := ask_success h
    rw [hrun] at h ⊢
    rw [hfaces]
    exact ih face (ht face) h
  | makeRoom n lost next ih =>
    obtain ⟨-, hrun, hfaces⟩ := makeRoom_success h
    rw [hrun] at h ⊢
    rw [hfaces]
    exact ih ht h
  | openGroup next ih => exact ih c.groups (ht c.groups) h
  | readLimit next ih => exact ih c.limits.maxIterations (ht c.limits.maxIterations) h

theorem rolls_eq {t : Play α} (h : (t.run c).failure = none) :
    (t.run c).context.rolls = c.rolls + (t.faces c).length := by
  induction t generalizing c with
  | done value failure => rfl
  | ask sides lost next ih =>
    obtain ⟨face, after, hroll, hrun, hfaces⟩ := ask_success h
    obtain ⟨-, -, rfl⟩ := Context.of_rollOne_eq_ok hroll
    rw [hrun] at h ⊢
    have hnext := ih face h
    rw [hfaces, List.length_cons]
    simp only at hnext
    omega
  | makeRoom n lost next ih =>
    obtain ⟨-, hrun, hfaces⟩ := makeRoom_success h
    rw [hrun] at h ⊢
    rw [hfaces]
    exact ih h
  | openGroup next ih => exact ih c.groups h
  | readLimit next ih => exact ih c.limits.maxIterations h

/-- The context of a playback stands where another one stands, and its roller goes on with the given
faces. -/
structure Mirrors (d : Context Playback) (c : Context ρ) (faces : List Int) : Prop where
  limits : d.limits = c.limits
  rolls : d.rolls = c.rolls
  groups : d.groups = c.groups
  upcoming : d.roller.upcoming = faces

omit [Roller ρ] in
theorem Mirrors.refusal? {d : Context Playback} {faces : List Int} (h : Mirrors d c faces) (n : Nat) :
    d.refusal? n = c.refusal? n := by
  unfold Context.refusal?
  rw [h.limits, h.rolls]

/-- The roll of a die comes out the same when its face is played back. -/
theorem Mirrors.rollOne {c after : Context ρ} {d : Context Playback} {sides : Sides} {face : Int}
    {rest : List Int} (hbounded : Roller.Bounded ρ) (h : Mirrors d c (face :: rest))
    (hroll : c.rollOne sides = (.ok face, after)) :
    ∃ d', d.rollOne sides = (.ok face, d') ∧ Mirrors d' after rest := by
  obtain ⟨hroom, hanswer, rfl⟩ := Context.of_rollOne_eq_ok hroll
  obtain ⟨hlow, hhigh⟩ := hbounded c.roller 1 sides.top face sides.one_le_top hanswer
  obtain ⟨playback, hplayed, hrest⟩ := Playback.roll_upcoming h.upcoming hlow hhigh
  have hplayed : Roller.roll d.roller 1 sides.top = (.ok face, playback) := hplayed
  refine ⟨{ d with rolls := d.rolls + 1, roller := playback }, ?_, h.limits, ?_, h.groups, hrest⟩
  · rcases d.rollOne_cases sides with ⟨e, hrefused, -⟩ | ⟨-, hd⟩
    · rw [h.refusal?, hroom] at hrefused
      cases hrefused
    · rw [hd, hplayed]
  · simp only [h.rolls]

/-- The faces of a successful play, played back, lead to the same end. -/
theorem run_mirrored (hbounded : Roller.Bounded ρ) {t : Play α} {d : Context Playback}
    {rest : List Int} (h : (t.run c).failure = none) (hd : Mirrors d c (t.faces c ++ rest)) :
    (t.run d).value = (t.run c).value ∧ (t.run d).failure = none := by
  induction t generalizing c d with
  | done value failure => exact ⟨rfl, h⟩
  | ask sides lost next ih =>
    obtain ⟨face, after, hroll, hrun, hfaces⟩ := ask_success h
    rw [hfaces, List.cons_append] at hd
    obtain ⟨d', hd', hmirrors⟩ := hd.rollOne hbounded hroll
    rw [hrun] at h ⊢
    rw [run_ask_ok hd']
    exact ih face h hmirrors
  | makeRoom n lost next ih =>
    obtain ⟨hroom, hrun, hfaces⟩ := makeRoom_success h
    rw [hfaces] at hd
    rw [hrun] at h ⊢
    rw [run_makeRoom_none ((hd.refusal? n).trans hroom)]
    exact ih h hd
  | openGroup next ih =>
    rw [run, run, hd.groups]
    exact ih c.groups h ⟨hd.limits, hd.rolls, rfl, hd.upcoming⟩
  | readLimit next ih =>
    rw [run, run, hd.limits]
    exact ih c.limits.maxIterations h hd

end Success

section Records

theorem run_unrecorded (t : Play α) (c : Context (Recorder ρ)) :
    t.run c.unrecorded =
      ⟨(t.run c).value, (t.run c).failure, (t.run c).context.unrecorded⟩ := by
  induction t generalizing c with
  | done value failure => rfl
  | ask sides lost next ih =>
    simp only [run, Context.rollOne_unrecorded]
    obtain ⟨answer, after⟩ := c.rollOne sides
    cases answer with
    | ok face => exact ih face after
    | error e => rfl
  | makeRoom n lost next ih =>
    have hrefusal : c.unrecorded.refusal? n = c.refusal? n := rfl
    simp only [run, hrefusal]
    cases c.refusal? n with
    | some e => rfl
    | none => exact ih c
  | openGroup next ih => exact ih c.groups { c with groups := c.groups + 1 }
  | readLimit next ih => exact ih c.limits.maxIterations c

/-- A record grows with the number of rolls, whether or not they are answered. -/
theorem rolls_add_length_answers (t : Play α) (c : Context (Recorder ρ)) :
    (t.run c).context.rolls + c.roller.answers.length =
      c.rolls + (t.run c).context.roller.answers.length := by
  induction t generalizing c with
  | done value failure => rfl
  | ask sides lost next ih =>
    rcases c.rollOne_cases sides with ⟨e, -, hroll⟩ | ⟨-, hroll⟩
    · rw [run_ask_error hroll]
    · have hlength : (Roller.roll c.roller 1 sides.top).2.answers.length =
          c.roller.answers.length + 1 := List.length_append
      cases hanswer : (Roller.roll c.roller 1 sides.top).1 with
      | error e =>
        rw [hanswer] at hroll
        rw [run_ask_error hroll]
        simp only
        omega
      | ok face =>
        rw [hanswer] at hroll
        have hnext := ih face ⟨c.limits, c.rolls + 1, c.groups, (Roller.roll c.roller 1 sides.top).2⟩
        rw [run_ask_ok hroll]
        simp only at hnext
        omega
  | makeRoom n lost next ih =>
    cases hroom : c.refusal? n with
    | some e => rw [run_makeRoom_some hroom]
    | none =>
      rw [run_makeRoom_none hroom]
      exact ih c
  | openGroup next ih => exact ih c.groups { c with groups := c.groups + 1 }
  | readLimit next ih => exact ih c.limits.maxIterations c

/-- The record of a successful play shows the faces it has seen. -/
theorem answers_eq {t : Play α} {c : Context (Recorder ρ)} (h : (t.run c).failure = none) :
    (t.run c).context.roller.answers = c.roller.answers ++ (t.faces c).map .ok := by
  induction t generalizing c with
  | done value failure => exact (List.append_nil _).symm
  | ask sides lost next ih =>
    obtain ⟨face, after, hroll, hrun, hfaces⟩ := ask_success h
    obtain ⟨-, hanswer, rfl⟩ := Context.of_rollOne_eq_ok hroll
    have hgrown : (Roller.roll c.roller 1 sides.top).2.answers = c.roller.answers ++ [.ok face] := by
      rw [← hanswer]
      rfl
    rw [hrun] at h ⊢
    rw [ih face h, hfaces, hgrown, List.append_assoc]
    rfl
  | makeRoom n lost next ih =>
    obtain ⟨-, hrun, hfaces⟩ := makeRoom_success h
    rw [hrun] at h ⊢
    rw [hfaces]
    exact ih h
  | openGroup next ih => exact ih c.groups h
  | readLimit next ih => exact ih c.limits.maxIterations h

end Records

end Play

end DiceNotation
