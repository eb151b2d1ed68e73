import DiceNotation.Proofs.Courses
import DiceNotation.Proofs.Rolls.Conservation

/-!
# Explosions by position

An explosion can be carried out in one scan over a list of dice that grows under it: each die that
ignites is marked where it stands, the die it rolls goes to the end, and beside the dice stands a list
of how far each is from the dice the scan began with. In `Scan.step` every die and every depth is looked
up by its position, and a look-up beyond the end has no result. The scan always comes to an end, and its
result is that of the waves.
-/

namespace DiceNotation

/-- How far a scan has come: the dice in front of the position are done with. -/
structure Scan (ρ : Type) where
  position : Nat
  dice : List Die
  /-- How far each die is from the dice the scan began with. -/
  depths : List Nat
  context : Context ρ

variable {ρ : Type}

namespace Scan

def start (dice : List Die) (c : Context ρ) : Scan ρ := ⟨0, dice, .replicate dice.length 0, c⟩

variable [Roller ρ]

/-- Goes one die further, or finishes. The scan began with `initial` dice; only these ignite in a single
explosion. -/
def step (k : DieKind) (repeats : Repeats) (condition : Condition) (limit initial : Nat)
    (s : Scan ρ) : Option (Scan ρ ⊕ Run ρ (List Die)) :=
  if s.dice.length ≤ s.position ∨ (repeats = .once ∧ initial ≤ s.position) then
    some (.inr ⟨s.dice, none, s.context⟩)
  else
    match s.dice[s.position]? with
    | none => none
    | some d =>
      if d.ignites condition then
        match s.depths[s.position]? with
        | none => none
        | some depth =>
          if repeats = .recursive ∧ limit < depth + 1 then
            some (.inr ⟨s.dice, some (.explodeLoopExceeded limit), s.context⟩)
          else
            let new := k.roll .explosion s.context
            let dice := s.dice.set s.position d.explode ++ new.value
            match new.failure with
            | some e => some (.inr ⟨dice, some e, new.context⟩)
            | none => some (.inl ⟨s.position + 1, dice, s.depths ++ [depth + 1], new.context⟩)
      else some (.inl { s with position := s.position + 1 })

/-- The scan goes on from here to its end, without a look-up that has no result, and ends in the run. -/
inductive EndsIn (k : DieKind) (repeats : Repeats) (condition : Condition) (limit initial : Nat) :
    Scan ρ → Run ρ (List Die) → Prop
  | stop {s : Scan ρ} {r : Run ρ (List Die)} :
    s.step k repeats condition limit initial = some (.inr r) →
      EndsIn k repeats condition limit initial s r
  | next {s s' : Scan ρ} {r : Run ρ (List Die)} :
    s.step k repeats condition limit initial = some (.inl s') →
      EndsIn k repeats condition limit initial s' r → EndsIn k repeats condition limit initial s r

variable {k : DieKind} {repeats : Repeats} {condition : Condition} {limit initial position : Nat}
  {dice : List Die} {depths : List Nat} {c : Context ρ} {d : Die} {depth : Nat}

theorem EndsIn.ends {s : Scan ρ} {r : Run ρ (List Die)}
    (h : s.EndsIn k repeats condition limit initial r) :
    Course.Ends (step k repeats condition limit initial) s r := by
  induction h with
  | stop hstep => exact .stop hstep
  | next hstep _ ih => exact .next hstep ih

theorem step_of_scanned (h : dice.length ≤ position ∨ (repeats = .once ∧ initial ≤ position)) :
    step k repeats condition limit initial ⟨position, dice, depths, c⟩ =
      some (.inr ⟨dice, none, c⟩) := if_pos h

theorem not_exceeded (hlimit : repeats = .recursive → depth < limit) :
    ¬ (repeats = .recursive ∧ limit < depth + 1) := by
  rintro ⟨hrecursive, hexceeded⟩
  have := hlimit hrecursive
  omega

section Step

variable (hd : dice[position]? = some d) (hsingle : repeats = .once → position < initial)

include hd hsingle

theorem not_scanned : ¬ (dice.length ≤ position ∨ (repeats = .once ∧ initial ≤ position)) := by
  have hposition : position < dice.length := (List.getElem?_eq_some_iff.1 hd).1
  rintro (hend | ⟨honce, hinitial⟩)
  · omega
  · have := hsingle honce
    omega

theorem step_of_not_ignites (hignites : d.ignites condition = false) :
    step k repeats condition limit initial ⟨position, dice, depths, c⟩ =
      some (.inl ⟨position + 1, dice, depths, c⟩) := by
  rw [step, if_neg (not_scanned hd hsingle)]
  simp [hd, hignites]

variable (hdepth : depths[position]? = some depth) (hignites : d.ignites condition = true)

include hdepth hignites

theorem step_of_limit_lt (hrecursive : repeats = .recursive) (hlimit : limit < depth + 1) :
    step k repeats condition limit initial ⟨position, dice, depths, c⟩ =
      some (.inr ⟨dice, some (.explodeLoopExceeded limit), c⟩) := by
  rw [step, if_neg (not_scanned hd hsingle)]
  simp [hd, hignites, hdepth, hrecursive, hlimit]

variable (hlimit : repeats = .recursive → depth < limit)

include hlimit

theorem step_of_failure {e : RollError} (hnew : (k.roll .explosion c).failure = some e) :
    step k repeats condition limit initial ⟨position, dice, depths, c⟩ =
      some (.inr ⟨dice.set position d.explode ++ (k.roll .explosion c).value, some e,
        (k.roll .explosion c).context⟩) := by
  rw [step, if_neg (not_scanned hd hsingle)]
  simp only [hd, hignites, if_true, hdepth, if_neg (not_exceeded hlimit), hnew]

theorem step_of_answer (hnew : (k.roll .explosion c).failure = none) :
    step k repeats condition limit initial ⟨position, dice, depths, c⟩ =
      some (.inl ⟨position + 1, dice.set position d.explode ++ (k.roll .explosion c).value,
        depths ++ [depth + 1], (k.roll .explosion c).context⟩) := by
  rw [step, if_neg (not_scanned hd hsingle)]
  simp only [hd, hignites, if_true, hdepth, if_neg (not_exceeded hlimit), hnew]

end Step

/-! ## Waves -/

section Waves

variable (k : DieKind) (condition : Condition) (limit initial depth : Nat) {r : Run ρ (List Die)}

/-- Scanning a wave of dice, all at the same depth, is a sweep over the wave. What is in front of the
wave is not looked at again. -/
theorem endsIn_wave (front wave rolled : List Die) (before : List Nat)
    (hbefore : before.length = front.length) (hlimit : repeats = .recursive → depth < limit)
    (hsingle : repeats = .once → front.length + wave.length ≤ initial) (c : Context ρ)
    (hrest :
      let s := Explosion.sweep k condition wave c
      let dice := front ++ s.value.passed ++ (rolled ++ s.value.rolled)
      match s.failure with
      | some e => r = ⟨dice, some e, s.context⟩
      | none =>
        EndsIn k repeats condition limit initial
          ⟨front.length + wave.length, dice, before ++ .replicate wave.length depth ++
            (.replicate rolled.length (depth + 1) ++ .replicate s.value.rolled.length (depth + 1)),
            s.context⟩ r) :
    EndsIn k repeats condition limit initial
      ⟨front.length, front ++ wave ++ rolled,
        before ++ .replicate wave.length depth ++ .replicate rolled.length (depth + 1), c⟩ r := by
  unfold Explosion.sweep at hrest
  -- Each step moves the die and its depth to the front, so that the position is the length of the front.
  induction wave generalizing front rolled before c with
  | nil => simpa [Sweep.run_nil] using hrest
  | cons d rest ih =>
    have hdepths : before ++ .replicate (d :: rest).length depth =
        before ++ [depth] ++ .replicate rest.length depth := by simp [List.replicate_succ]
    have hlength : front.length + (d :: rest).length = front.length + 1 + rest.length := by
      rw [List.length_cons]
      omega
    have hd : (front ++ d :: rest ++ rolled)[front.length]? = some d := by simp
    have hdepth : (before ++ [depth] ++ .replicate rest.length depth ++
        .replicate rolled.length (depth + 1))[front.length]? = some depth := by
      simp [← hbefore]
    have hfirst : repeats = .once → front.length < initial := by
      intro honce
      have := hsingle honce
      omega
    have ih (x : Die) (rolled : List Die) (c : Context ρ) :=
      ih (front ++ [x]) rolled (before ++ [depth]) (by simp [hbefore])
        (by simpa [Nat.add_assoc, Nat.add_comm 1] using hsingle) c
    simp only [List.length_append, List.length_cons, List.length_nil, Nat.zero_add] at ih
    rw [hdepths, hlength] at hrest
    rw [hdepths]
    cases hignites : d.ignites condition with
    | false =>
      rw [Sweep.run_cons_of_not_fires rest hignites c] at hrest
      refine .next (step_of_not_ignites hd hfirst hignites) ?_
      simpa using ih d rolled c (by simpa [Run.map] using hrest)
    | true =>
      cases hnew : (k.roll .explosion c).failure with
      | some e =>
        rw [Sweep.run_cons_of_failure rest hignites hnew] at hrest
        refine .stop ?_
        rw [step_of_failure hd hfirst hdepth hignites hlimit hnew, hrest]
        simp
      | none =>
        obtain ⟨face, hface⟩ := DieKind.roll_value .explosion hnew
        rw [Sweep.run_cons_of_answer rest hignites hnew] at hrest
        refine .next (step_of_answer hd hfirst hdepth hignites hlimit hnew) ?_
        have hwave := ih d.explode (rolled ++ (k.roll .explosion c).value) (k.roll .explosion c).context
        rw [hface, List.length_append, List.length_singleton, List.replicate_succ'] at hwave
        simpa [hface] using hwave (by simpa [Run.map, hface, List.replicate_succ] using hrest)

/-- Scanning a wave with nothing behind it. -/
theorem endsIn_sweep (front wave : List Die) (before : List Nat)
    (hbefore : before.length = front.length) (hlimit : repeats = .recursive → depth < limit)
    (hsingle : repeats = .once → front.length + wave.length ≤ initial) (c : Context ρ)
    (hrest :
      let s := Explosion.sweep k condition wave c
      match s.failure with
      | some e => r = ⟨front ++ s.value.dice, some e, s.context⟩
      | none =>
        EndsIn k repeats condition limit initial
          ⟨front.length + wave.length, front ++ s.value.passed ++ s.value.rolled,
            before ++ .replicate wave.length depth ++ .replicate s.value.rolled.length (depth + 1),
            s.context⟩ r) :
    EndsIn k repeats condition limit initial
      ⟨front.length, front ++ wave, before ++ .replicate wave.length depth, c⟩ r := by
  have hwave := endsIn_wave (r := r) k condition limit initial depth front wave [] before hbefore
    hlimit hsingle c
  simp only [List.nil_append, List.length_nil, List.replicate_zero, List.append_nil] at hwave
  refine hwave ?_
  simpa [Sweep.dice] using hrest

/-- At the greatest depth that is allowed the scan only looks whether a die ignites. -/
theorem endsIn_last (front wave : List Die) (before : List Nat)
    (hbefore : before.length = front.length) (c : Context ρ) :
    EndsIn k .recursive condition limit initial
      ⟨front.length, front ++ wave, before ++ .replicate wave.length limit, c⟩
      ⟨front ++ wave,
        if wave.any (·.ignites condition) then some (.explodeLoopExceeded limit) else none, c⟩ := by
  induction wave generalizing front before with
  | nil => exact .stop (step_of_scanned (.inl (by simp)))
  | cons d rest ih =>
    have hd : (front ++ d :: rest)[front.length]? = some d := by simp
    cases hignites : d.ignites condition with
    | false =>
      have hrest := ih (front ++ [d]) (before ++ [limit]) (by simp [hbefore])
      refine .next (step_of_not_ignites hd (by simp) hignites) ?_
      simpa [hignites, List.replicate_succ] using hrest
    | true =>
      have hdepth : (before ++ .replicate (d :: rest).length limit)[front.length]? = some limit := by
        simp [← hbefore, List.replicate_succ]
      refine .stop ?_
      rw [step_of_limit_lt hd (by simp) hdepth hignites rfl (Nat.lt_succ_self limit)]
      simp [hignites]

/-- From the start of a wave on the scan does what the waves do. The depth of the wave and the number
of waves that may follow add up to the limit. -/
theorem endsIn_waves (left : Nat) (front wave : List Die) (before : List Nat)
    (hbefore : before.length = front.length) (hleft : depth + left = limit) (c : Context ρ) :
    EndsIn k .recursive condition limit initial
      ⟨front.length, front ++ wave, before ++ .replicate wave.length depth, c⟩
      ((Explosion.wavesFrom k condition limit [] left wave c).map (front ++ ·)) := by
  induction left generalizing front wave before depth c with
  | zero =>
    obtain rfl : depth = limit := hleft
    exact endsIn_last k condition depth initial front wave before hbefore c
  | succ left ih =>
    have hlimit : Repeats.recursive = .recursive → depth < limit := fun _ => by omega
    refine endsIn_sweep k condition limit initial depth front wave before hbefore hlimit (by simp) c ?_
    rw [Explosion.wavesFrom]
    cases hs : (Explosion.sweep k condition wave c).failure with
    | some e => simp [Run.map, hs]
    | none =>
      have hpassed : (Explosion.sweep k condition wave c).value.passed.length = wave.length := by
        rw [Explosion.sweep, Sweep.passed_run hs, List.length_map]
      cases hrolled : (Explosion.sweep k condition wave c).value.rolled with
      | nil =>
        simp only [hs, hrolled]
        refine .stop ?_
        rw [step_of_scanned (.inl (by simp [hpassed]))]
        simp [Run.map]
      | cons d rest =>
        have hrest := ih (depth + 1) (front ++ (Explosion.sweep k condition wave c).value.passed)
          (d :: rest) (before ++ .replicate wave.length depth) (by simp [hbefore, hpassed]) (by omega)
          (Explosion.sweep k condition wave c).context
        rw [List.length_append, hpassed] at hrest
        simp only [hs, hrolled, List.isEmpty_cons]
        rw [Explosion.wavesFrom_eq k condition limit (List.reverseAux _ _)]
        simpa [Run.map] using hrest

end Waves

/-- The scan comes to one end, without a look-up out of range, and it is that of the explosion in
waves. -/
theorem endsIn_start_iff (dice : List Die) (c : Context ρ) (r : Run ρ (List Die)) :
    (start dice c).EndsIn k repeats condition c.limits.maxIterations dice.length r ↔
      r = Explosion.run k repeats condition dice c := by
  have hends : (start dice c).EndsIn k repeats condition c.limits.maxIterations dice.length
      (Explosion.run k repeats condition dice c) := by
    cases repeats with
    | once =>
      refine endsIn_sweep k condition _ _ 0 [] dice [] rfl (by simp) (by simp) c ?_
      simp only [Explosion.run]
      cases hs : (Explosion.sweep k condition dice c).failure with
      | some e => rfl
      | none => exact .stop (step_of_scanned (.inr ⟨rfl, by simp⟩))
    | recursive =>
      have hwaves := endsIn_waves k condition c.limits.maxIterations dice.length 0
        c.limits.maxIterations [] dice [] rfl (Nat.zero_add _) c
      simpa [start, Explosion.run, Run.map] using hwaves
  exact ⟨fun h => h.ends.unique hends.ends, fun h => h ▸ hends⟩

end Scan

end DiceNotation
