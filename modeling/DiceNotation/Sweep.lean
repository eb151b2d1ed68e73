import DiceNotation.DieKind

/-!
# Sweeps and explosions

Rerolls and explosions share one shape, the sweep: go through the dice in order, mark each one that
fires, and roll the dice that answer it. A recursive explosion is a sweep over the dice at hand, then
one over the dice that came up in it, and so on in waves.
-/

namespace DiceNotation

variable {ρ : Type}

/-- The dice gone through, and the dice rolled in answer to them. -/
structure Sweep where
  passed : List Die
  rolled : List Die
  deriving DecidableEq, Repr

namespace Sweep

/-- Goes through the dice in order. Each one that `fires` is marked, and then answered; if the answer
fails, the dice behind are left alone. Both lists of the part done hold the last die first. -/
def runFrom (fires : Die → Bool) (mark : Die → Die) (answer : Context ρ → Run ρ (List Die))
    (passed rolled : List Die) : List Die → Context ρ → Run ρ Sweep
  | [], c => ⟨⟨passed.reverse, rolled.reverse⟩, none, c⟩
  | d :: rest, c =>
    if fires d then
      let new := answer c
      match new.failure with
      | some e =>
        ⟨⟨passed.reverseAux (mark d :: rest), rolled.reverseAux new.value⟩, some e, new.context⟩
      | none =>
        runFrom fires mark answer (mark d :: passed) (new.value.reverseAux rolled) rest new.context
    else runFrom fires mark answer (d :: passed) rolled rest c

def run (fires : Die → Bool) (mark : Die → Die) (answer : Context ρ → Run ρ (List Die))
    (dice : List Die) (c : Context ρ) : Run ρ Sweep :=
  runFrom fires mark answer [] [] dice c

theorem runFrom_eq (fires : Die → Bool) (mark : Die → Die) (answer : Context ρ → Run ρ (List Die))
    (passed rolled dice : List Die) (c : Context ρ) :
    runFrom fires mark answer passed rolled dice c =
      (run fires mark answer dice c).map fun s =>
        ⟨passed.reverse ++ s.passed, rolled.reverse ++ s.rolled⟩ := by
  unfold run
  induction dice generalizing passed rolled c with
  | nil => simp [runFrom, Run.map]
  | cons d rest ih =>
    simp only [runFrom]
    split
    · split
      · simp [Run.map, List.reverseAux_eq]
      · rw [ih, ih [_]]
        simp [Run.map, List.reverseAux_eq]
    · rw [ih, ih [_]]
      simp [Run.map]

section Cons

variable {fires : Die → Bool} {mark : Die → Die} {answer : Context ρ → Run ρ (List Die)}
  {c : Context ρ} {d : Die} (rest : List Die)

theorem run_nil (c : Context ρ) : run fires mark answer [] c = ⟨⟨[], []⟩, none, c⟩ := rfl

theorem run_cons_of_not_fires (h : fires d = false) (c : Context ρ) :
    run fires mark answer (d :: rest) c =
      (run fires mark answer rest c).map fun s => ⟨d :: s.passed, s.rolled⟩ := by
  rw [run, runFrom, if_neg (by simp [h]), runFrom_eq]
  rfl

theorem run_cons_of_answer (h : fires d = true) (hanswer : (answer c).failure = none) :
    run fires mark answer (d :: rest) c =
      (run fires mark answer rest (answer c).context).map fun s =>
        ⟨mark d :: s.passed, (answer c).value ++ s.rolled⟩ := by
  rw [run, runFrom, if_pos h]
  simp only [hanswer]
  rw [runFrom_eq]
  simp [List.reverseAux_eq]

theorem run_cons_of_failure (h : fires d = true) {e : RollError}
    (hanswer : (answer c).failure = some e) :
    run fires mark answer (d :: rest) c =
      ⟨⟨mark d :: rest, (answer c).value⟩, some e, (answer c).context⟩ := by
  rw [run, runFrom, if_pos h]
  simp only [hanswer]
  rfl

/-- Nothing but the marks tells the dice gone through from those before, unless the sweep fails. -/
theorem passed_run {dice : List Die} (h : (run fires mark answer dice c).failure = none) :
    (run fires mark answer dice c).value.passed =
      dice.map fun d => if fires d then mark d else d := by
  induction dice generalizing c with
  | nil => rfl
  | cons d rest ih =>
    cases hd : fires d with
    | false =>
      rw [run_cons_of_not_fires rest hd c] at h ⊢
      simp [Run.map, hd, ih h]
    | true =>
      cases hanswer : (answer c).failure with
      | some e =>
        rw [run_cons_of_failure rest hd hanswer] at h
        cases h
      | none =>
        rw [run_cons_of_answer rest hd hanswer] at h ⊢
        simp [Run.map, hd, ih h]

end Cons

/-- All dice of the sweep, the new ones last. -/
def dice (s : Sweep) : List Die := s.passed ++ s.rolled

end Sweep

namespace Die

/-- Whether the die is in play and meets the condition. -/
def meets (condition : Condition) (d : Die) : Bool := d.isKept && condition.holds d.value

/-- Whether the die is about to explode; no die explodes twice. -/
def ignites (condition : Condition) (d : Die) : Bool := d.meets condition && !d.exploded

theorem status_of_meets {condition : Condition} {d : Die} (h : d.meets condition = true) :
    d.status = .kept := by
  simp only [meets, isKept, Bool.and_eq_true, beq_iff_eq] at h
  exact h.1

theorem status_of_ignites {condition : Condition} {d : Die} (h : d.ignites condition = true) :
    d.status = .kept :=
  status_of_meets (Bool.and_eq_true_iff.1 h).1

end Die

variable [Roller ρ]

namespace Explosion

/-- One sweep over a wave of dice. -/
def sweep (k : DieKind) (condition : Condition) (wave : List Die) (c : Context ρ) : Run ρ Sweep :=
  Sweep.run (·.ignites condition) Die.explode (k.roll .explosion) wave c

/-- Sweeps over the wave, then over the dice that rolled, and so on until no die ignites. At most
`left` more waves may explode. The waves done with are in `done`, the last die first. -/
def wavesFrom (k : DieKind) (condition : Condition) (limit : Nat) (done : List Die) :
    Nat → List Die → Context ρ → Run ρ (List Die)
  | 0, wave, c =>
    ⟨done.reverseAux wave,
      if wave.any (·.ignites condition) then some (.explodeLoopExceeded limit) else none, c⟩
  | left + 1, wave, c =>
    let s := sweep k condition wave c
    match s.failure with
    | some e => ⟨done.reverseAux s.value.dice, some e, s.context⟩
    | none =>
      if s.value.rolled.isEmpty then ⟨done.reverseAux s.value.passed, none, s.context⟩
      else wavesFrom k condition limit (s.value.passed.reverseAux done) left s.value.rolled s.context

theorem wavesFrom_eq (k : DieKind) (condition : Condition) (limit : Nat) (done : List Die)
    (left : Nat) (wave : List Die) (c : Context ρ) :
    wavesFrom k condition limit done left wave c =
      (wavesFrom k condition limit [] left wave c).map (done.reverse ++ ·) := by
  induction left generalizing done wave c with
  | zero => simp [wavesFrom, Run.map, List.reverseAux_eq]
  | succ left ih =>
    simp only [wavesFrom]
    split
    · simp [Run.map, List.reverseAux_eq]
    · split
      · simp [Run.map, List.reverseAux_eq]
      · rw [ih, ih (List.reverseAux _ _)]
        simp [Run.map, List.reverseAux_eq]

/-- Explodes the dice of a pool. A single explosion leaves the dice it rolled alone. -/
def run (k : DieKind) (repeats : Repeats) (condition : Condition) (dice : List Die) (c : Context ρ) :
    Run ρ (List Die) :=
  match repeats with
  | .once =>
    let s := sweep k condition dice c
    ⟨s.value.dice, s.failure, s.context⟩
  | .recursive =>
    let limit := c.limits.maxIterations
    wavesFrom k condition limit [] limit dice c

end Explosion

end DiceNotation
