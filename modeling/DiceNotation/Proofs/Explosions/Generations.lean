import DiceNotation.Proofs.Explosions.Scan
import DiceNotation.Proofs.RaisedLimits.Rolling
import DiceNotation.Proofs.Rolls.Playing

/-!
# Generations of an explosion

On a roller that always answers, the dice of an explosion come in generations: the dice that ignite are
the first one, and each later one has a fresh die for every die of the one before that meets the
condition. A recursive explosion succeeds if the generation that the limit names is the last one, and
then it leaves exactly these dice behind; a single explosion stops after the first fresh generation.
-/

namespace DiceNotation

variable {ρ : Type} [Roller ρ]

namespace DieKind

/-- `n` dice rolled for explosions one after another, and the roller afterwards. -/
def offspring (k : DieKind) : Nat → ρ → List Die × ρ
  | 0, r => ([], r)
  | n + 1, r =>
    match Roller.roll r 1 k.sides.top with
    | (.error _, r) => ([], r)
    | (.ok face, r) =>
      let (dice, r) := k.offspring n r
      (.fresh k.group face .explosion :: dice, r)

/-- The generations of an explosion of the given dice, each with the roller after it. -/
def generation (k : DieKind) (condition : Condition) (dice : List Die) (r : ρ) : Nat → List Die × ρ
  | 0 => (dice.filter (·.ignites condition), r)
  | n + 1 =>
    let parents := k.generation condition dice r n
    k.offspring (parents.1.countP fun d => condition.holds d.value) parents.2

theorem offspring_succ {k : DieKind} {r after : ρ} {face : Int}
    (h : Roller.roll r 1 k.sides.top = (.ok face, after)) (n : Nat) :
    k.offspring (n + 1) r =
      (.fresh k.group face .explosion :: (k.offspring n after).1, (k.offspring n after).2) := by
  rw [offspring, h]

theorem offspring_fresh (hbounded : Roller.Bounded ρ) (hreliable : Roller.Reliable ρ) (k : DieKind)
    (n : Nat) (r : ρ) : ∃ faces : List Int,
      (k.offspring n r).1 = faces.map (.fresh k.group · .explosion) ∧ faces.length = n ∧
        ∀ face ∈ faces, 1 ≤ face ∧ face ≤ k.sides.top := by
  induction n generalizing r with
  | zero => exact ⟨[], rfl, rfl, by simp⟩
  | succ n ih =>
    obtain ⟨face, hface⟩ := hreliable r 1 k.sides.top k.sides.one_le_top
    obtain ⟨faces, hfaces, hlength, hrange⟩ := ih (Roller.roll r 1 k.sides.top).2
    rw [offspring_succ (Prod.ext hface rfl)]
    refine ⟨face :: faces, by rw [hfaces, List.map_cons], by rw [List.length_cons, hlength], ?_⟩
    exact List.forall_mem_cons.2 ⟨hbounded r 1 k.sides.top face k.sides.one_le_top hface, hrange⟩

end DieKind

namespace Die

/-- The die after the explosion of all that ignite. -/
def burn (condition : Condition) (d : Die) : Die := if d.ignites condition then d.explode else d

theorem fresh_ignites (condition : Condition) (group : Nat) (face : Int) (source : Source) :
    (fresh group face source).ignites condition = condition.holds face := by
  simp [ignites, meets, fresh, isKept]

theorem burn_fresh (condition : Condition) (group : Nat) (face : Int) (source : Source) :
    (fresh group face source).burn condition =
      if condition.holds face then (fresh group face source).explode
      else fresh group face source := by
  rw [burn, fresh_ignites]

theorem not_ignites_burn (condition : Condition) (d : Die) :
    (d.burn condition).ignites condition = false := by
  unfold burn
  split
  · simp [ignites, explode]
  · next h => simpa using h

/-- Of the dice that ignite every one meets the condition. -/
theorem countP_filter_ignites (condition : Condition) (dice : List Die) :
    (dice.filter (·.ignites condition)).countP (fun d => condition.holds d.value) =
      dice.countP (·.ignites condition) := by
  have hmeets (d : Die) : (condition.holds d.value && d.ignites condition) = d.ignites condition := by
    cases hholds : condition.holds d.value <;> simp [ignites, meets, hholds]
  simp only [List.countP_filter, hmeets]

theorem countP_ignites_fresh (condition : Condition) (group : Nat) (faces : List Int) :
    (faces.map (fresh group · .explosion)).countP (·.ignites condition) =
      (faces.map (fresh group · .explosion)).countP fun d => condition.holds d.value := by
  rw [List.countP_map, List.countP_map]
  congr 1
  funext face
  exact fresh_ignites condition group face .explosion

end Die

namespace Explosion

variable {k : DieKind} {condition : Condition} {dice : List Die} {r : ρ} {c : Context ρ}

theorem generation_one (k : DieKind) (condition : Condition) (dice : List Die) (r : ρ) :
    k.generation condition dice r 1 = k.offspring (dice.countP (·.ignites condition)) r := by
  simp only [DieKind.generation, Die.countP_filter_ignites]

/-- Once the first fresh generation is rolled, its own generations are those that follow. -/
theorem generation_shift (hbounded : Roller.Bounded ρ) (hreliable : Roller.Reliable ρ) (n : Nat) :
    let first := k.generation condition dice r 1
    k.generation condition first.1 first.2 (n + 1) = k.generation condition dice r (n + 2) := by
  intro first
  induction n with
  | zero =>
    obtain ⟨faces, hfaces, -⟩ :=
      k.offspring_fresh hbounded hreliable (dice.countP (·.ignites condition)) r
    have hfirst : first.1 = faces.map (.fresh k.group · .explosion) := by
      rw [← hfaces, ← generation_one]
    have hsecond : k.generation condition dice r 2 =
        k.offspring (first.1.countP fun d => condition.holds d.value) first.2 := rfl
    rw [generation_one, hsecond, hfirst, Die.countP_ignites_fresh]
  | succ n ih => rw [DieKind.generation, ih, ← DieKind.generation]

theorem generation_eq_nil_of_le {n m : Nat} (h : (k.generation condition dice r n).1 = [])
    (hle : n ≤ m) : (k.generation condition dice r m).1 = [] := by
  induction hle with
  | refl => exact h
  | step _ ih =>
    rw [DieKind.generation]
    simp [ih, DieKind.offspring]

/-- Without a cap on rolls a sweep marks the dice that ignite and rolls the next generation. -/
theorem sweep_generation (hreliable : Roller.Reliable ρ) (wave : List Die)
    (hcap : c.limits.maxRolls = none) :
    let first := k.generation condition wave c.roller 1
    sweep k condition wave c = ⟨⟨wave.map (·.burn condition), first.1⟩, none,
      { c with rolls := c.rolls + wave.countP (·.ignites condition), roller := first.2 }⟩ := by
  rw [generation_one]
  intro first
  unfold sweep
  induction wave generalizing c with
  | nil => rfl
  | cons d rest ih =>
    cases hignites : d.ignites condition with
    | false =>
      rw [Sweep.run_cons_of_not_fires rest hignites c, ih hcap]
      simp [first, Run.map, hignites, Die.burn]
    | true =>
      obtain ⟨face, after, hroll, hone⟩ :=
        Context.rollOne_of_reliable hreliable (Context.refusal?_of_uncapped hcap 1) k.sides
      let middle : Context ρ := { c with rolls := c.rolls + 1, roller := after }
      have hnew : k.roll .explosion c = ⟨[.fresh k.group face .explosion], none, middle⟩ := by
        rw [DieKind.roll, hone]
      have hrest := ih (c := middle) hcap
      rw [Sweep.run_cons_of_answer rest hignites (by rw [hnew]), hnew]
      simp only [hrest]
      simp [first, middle, Run.map, hignites, Die.burn, DieKind.offspring_succ hroll, Nat.add_assoc,
        Nat.add_comm 1]

theorem map_burn_of_not_ignites {wave : List Die} (h : wave.any (·.ignites condition) = false) :
    wave.map (·.burn condition) = wave := by
  rw [List.any_eq_false] at h
  have hburn : ∀ d ∈ wave, d.burn condition = id d := fun d hd => if_neg (h d hd)
  rw [List.map_congr_left hburn, List.map_id]

theorem generation_one_eq_nil_iff (hbounded : Roller.Bounded ρ) (hreliable : Roller.Reliable ρ)
    (k : DieKind) (condition : Condition) (dice : List Die) (r : ρ) :
    (k.generation condition dice r 1).1 = [] ↔ dice.any (·.ignites condition) = false := by
  obtain ⟨faces, hfaces, hlength, -⟩ :=
    k.offspring_fresh hbounded hreliable (dice.countP (·.ignites condition)) r
  rw [generation_one, hfaces, List.map_eq_nil_iff, ← List.length_eq_zero_iff, hlength,
    List.countP_eq_zero, List.any_eq_false]

/-- Generations without dice add nothing. -/
theorem flatMap_range_of_le {f : Nat → List Die} {m n : Nat} (hle : m ≤ n)
    (h : ∀ i, m ≤ i → f i = []) : (List.range n).flatMap f = (List.range m).flatMap f := by
  induction hle with
  | refl => rfl
  | @step n hle ih =>
    rw [List.range_succ, List.flatMap_append, ih, List.flatMap_singleton, h n hle, List.append_nil]

/-- Without a cap on rolls the waves are the generations: they succeed if no die is left over for one
more generation than are allowed. -/
theorem wavesFrom_generations (hbounded : Roller.Bounded ρ) (hreliable : Roller.Reliable ρ)
    (k : DieKind) (condition : Condition) (limit left : Nat) (wave : List Die)
    (hcap : c.limits.maxRolls = none) :
    let generation := fun n => (k.generation condition wave c.roller n).1
    let r := wavesFrom k condition limit [] left wave c
    (generation (left + 1) ≠ [] → r.failure = some (.explodeLoopExceeded limit)) ∧
      (generation (left + 1) = [] → r.failure = none ∧
        r.value = (wave ++ (List.range left).flatMap fun n => generation (n + 1)).map
          (·.burn condition)) := by
  induction left generalizing wave c with
  | zero =>
    intro generation r
    have hlast : generation 1 = [] ↔ wave.any (·.ignites condition) = false :=
      generation_one_eq_nil_iff hbounded hreliable k condition wave c.roller
    refine ⟨fun hmore => ?_, fun hdone => ?_⟩
    · have hignites : wave.any (·.ignites condition) = true := by
        rwa [Ne, hlast, Bool.not_eq_false] at hmore
      simp [r, wavesFrom, hignites]
    · have hignites := hlast.1 hdone
      simp [r, wavesFrom, hignites, map_burn_of_not_ignites hignites]
  | succ left ih =>
    intro generation r
    let first := k.generation condition wave c.roller 1
    let middle : Context ρ :=
      { c with rolls := c.rolls + wave.countP (·.ignites condition), roller := first.2 }
    have hsweep : sweep k condition wave c = ⟨⟨wave.map (·.burn condition), first.1⟩, none, middle⟩ :=
      sweep_generation hreliable wave hcap
    have hrest := ih (c := middle) first.1 hcap
    have hshift (n : Nat) : (k.generation condition first.1 middle.roller (n + 1)).1 =
        generation (n + 2) := congrArg Prod.fst (generation_shift hbounded hreliable n)
    -- Without offspring the waves stop before the limit, and so do the generations.
    cases hfirst : first.1.isEmpty with
    | true =>
      have hr : r = ⟨wave.map (·.burn condition), none, middle⟩ := by
        simp [r, wavesFrom, hsweep, hfirst]
      have hempty (n : Nat) : generation (n + 1) = [] :=
        generation_eq_nil_of_le (List.isEmpty_iff.1 hfirst) (by omega)
      refine ⟨fun hmore => absurd (hempty _) hmore, fun _ => ?_⟩
      simp [hr, hempty]
    | false =>
      have hr : r = (wavesFrom k condition limit [] left first.1 middle).map
          (wave.map (·.burn condition) ++ ·) := by
        simp only [r, wavesFrom, hsweep, hfirst]
        rw [wavesFrom_eq]
        simp
      simp only [hshift] at hrest
      refine ⟨fun hmore => ?_, fun hdone => ?_⟩
      · rw [hr]
        exact hrest.1 hmore
      · obtain ⟨hok, hvalue⟩ := hrest.2 hdone
        refine ⟨by rw [hr]; exact hok, ?_⟩
        rw [hr, List.range_succ_eq_map, List.flatMap_cons, List.flatMap_map, List.map_append]
        exact congrArg (wave.map (·.burn condition) ++ ·) hvalue

theorem generation_succ_fresh (hbounded : Roller.Bounded ρ) (hreliable : Roller.Reliable ρ)
    (k : DieKind) (condition : Condition) (dice : List Die) (r : ρ) (n : Nat) :
    ∃ faces : List Int,
      (k.generation condition dice r (n + 1)).1 = faces.map (.fresh k.group · .explosion) ∧
        faces.length = (k.generation condition dice r n).1.countP (condition.holds ·.value) ∧
        ∀ face ∈ faces, 1 ≤ face ∧ face ≤ k.sides.top :=
  k.offspring_fresh hbounded hreliable _ _

/-- Of a fresh generation the dice that meet the condition explode. -/
theorem map_burn_generation_succ (hbounded : Roller.Bounded ρ) (hreliable : Roller.Reliable ρ)
    (k : DieKind) (condition : Condition) (dice : List Die) (r : ρ) (n : Nat) :
    (k.generation condition dice r (n + 1)).1.map (·.burn condition) =
      (k.generation condition dice r (n + 1)).1.map fun d =>
        if condition.holds d.value then d.explode else d := by
  obtain ⟨faces, hfaces, -⟩ := generation_succ_fresh hbounded hreliable k condition dice r n
  rw [hfaces, List.map_map, List.map_map]
  congr 1
  funext face
  exact Die.burn_fresh condition k.group face .explosion

/-- No generation follows one in which no die meets the condition. -/
theorem generation_succ_eq_nil_iff (hbounded : Roller.Bounded ρ) (hreliable : Roller.Reliable ρ)
    (k : DieKind) (condition : Condition) (dice : List Die) (r : ρ) (n : Nat) :
    (k.generation condition dice r (n + 1)).1 = [] ↔
      ∀ d ∈ (k.generation condition dice r n).1, ¬ condition.holds d.value = true := by
  obtain ⟨faces, hfaces, hlength, -⟩ :=
    generation_succ_fresh hbounded hreliable k condition dice r n
  rw [hfaces, List.map_eq_nil_iff, ← List.length_eq_zero_iff, hlength, List.countP_eq_zero]

section Run

variable (hbounded : Roller.Bounded ρ) (hreliable : Roller.Reliable ρ)
  (hcap : c.limits.maxRolls = none) (k : DieKind) (condition : Condition) (dice : List Die)

include hbounded hreliable hcap

theorem run_recursive_failure :
    (run k .recursive condition dice c).failure = none ∨
      (run k .recursive condition dice c).failure =
        some (.explodeLoopExceeded c.limits.maxIterations) := by
  obtain ⟨hfails, hsettles⟩ := wavesFrom_generations hbounded hreliable k condition
    c.limits.maxIterations c.limits.maxIterations dice hcap
  exact or_iff_not_imp_left.2 fun hfailed => hfails fun hdone => hfailed (hsettles hdone).1

theorem run_recursive_eq_ok_iff : (run k .recursive condition dice c).failure = none ↔
    (k.generation condition dice c.roller (c.limits.maxIterations + 1)).1 = [] := by
  obtain ⟨hfails, hsettles⟩ := wavesFrom_generations hbounded hreliable k condition
    c.limits.maxIterations c.limits.maxIterations dice hcap
  refine ⟨fun hok => ?_, fun hdone => (hsettles hdone).1⟩
  by_contra hmore
  have hfailure : (run k .recursive condition dice c).failure = _ := hfails hmore
  rw [hok] at hfailure
  cases hfailure

/-- An explosion that succeeds leaves the dice of all generations behind. -/
theorem run_recursive_value (hok : (run k .recursive condition dice c).failure = none) {n : Nat}
    (hn : c.limits.maxIterations ≤ n) :
    (run k .recursive condition dice c).value =
      (dice ++ (List.range n).flatMap fun i =>
        (k.generation condition dice c.roller (i + 1)).1).map (·.burn condition) := by
  obtain ⟨-, hsettles⟩ := wavesFrom_generations hbounded hreliable k condition
    c.limits.maxIterations c.limits.maxIterations dice hcap
  have hdone := (run_recursive_eq_ok_iff hbounded hreliable hcap k condition dice).1 hok
  have hlater (i : Nat) (hi : c.limits.maxIterations ≤ i) :
      (k.generation condition dice c.roller (i + 1)).1 = [] :=
    generation_eq_nil_of_le hdone (by omega)
  rw [flatMap_range_of_le hn hlater]
  exact (hsettles hdone).2

omit hbounded in
theorem run_once :
    (run k .once condition dice c).failure = none ∧
      (run k .once condition dice c).value =
        dice.map (·.burn condition) ++ (k.generation condition dice c.roller 1).1 := by
  rw [run, sweep_generation hreliable dice hcap]
  exact ⟨rfl, rfl⟩

end Run

/-- Where all that could explode has exploded nothing happens. -/
theorem run_recursive_of_burnt (k : DieKind) (condition : Condition) (dice : List Die)
    (c : Context ρ) :
    run k .recursive condition (dice.map (·.burn condition)) c =
      ⟨dice.map (·.burn condition), none, c⟩ := by
  have hignites : (dice.map (·.burn condition)).any (·.ignites condition) = false := by
    simp [List.any_map, Die.not_ignites_burn]
  exact wavesFrom_of_not_ignites _ [] _ hignites c

end Explosion

namespace Pool

/-- What an explosion makes of a pool, told by the generations of its dice. -/
structure ExplodesByGeneration (p : Pool) (condition : Condition) (c : Context ρ) : Prop where
  /-- The scan by position comes to its end, which is that of the modifier. -/
  scanned (repeats : Repeats) (dice : List Die) (failure : Option RollError) (after : Context ρ) :
    (Scan.start p.dice c).EndsIn p.kind repeats condition c.limits.maxIterations p.dice.length
        ⟨dice, failure, after⟩ ↔
      p.modify (.explode repeats condition) c = ⟨{ p with dice }, failure, after⟩
  /-- Each die of a generation that meets the condition has one die in the next one. -/
  offspring (n : Nat) : ∃ faces : List Int,
    (p.kind.generation condition p.dice c.roller (n + 1)).1 =
        faces.map (.fresh p.index · .explosion) ∧
      faces.length =
        (p.kind.generation condition p.dice c.roller n).1.countP (condition.holds ·.value) ∧
      ∀ face ∈ faces, 1 ≤ face ∧ face ≤ p.sides.top
  settles_iff : (p.modify (.explode .recursive condition) c).failure = none ↔
    ∀ d ∈ (p.kind.generation condition p.dice c.roller c.limits.maxIterations).1,
      ¬ condition.holds d.value = true
  failure : (p.modify (.explode .recursive condition) c).failure = none ∨
    (p.modify (.explode .recursive condition) c).failure =
      some (.explodeLoopExceeded c.limits.maxIterations)
  /-- Behind the dice of the pool stand those of the generations, however many are asked for. -/
  recursive (hok : (p.modify (.explode .recursive condition) c).failure = none) (n : Nat)
    (hn : c.limits.maxIterations ≤ n) :
    (p.modify (.explode .recursive condition) c).value =
      { p with dice :=
        (p.dice.map fun d => if d.ignites condition then d.explode else d) ++
          (List.range n).flatMap fun i =>
            (p.kind.generation condition p.dice c.roller (i + 1)).1.map fun d =>
              if condition.holds d.value then d.explode else d }
  settled (hok : (p.modify (.explode .recursive condition) c).failure = none) {σ : Type} [Roller σ]
    (c' : Context σ) :
    (p.modify (.explode .recursive condition) c).value.modify (.explode .recursive condition) c' =
      ⟨(p.modify (.explode .recursive condition) c).value, none, c'⟩
  once : (p.modify (.explode .once condition) c).failure = none ∧
    (p.modify (.explode .once condition) c).value =
      { p with dice :=
        (p.dice.map fun d => if d.ignites condition then d.explode else d) ++
          (p.kind.generation condition p.dice c.roller 1).1 }

/-- On a roller that answers within bounds, and without a cap on rolls, explosions go by generations. -/
theorem explodesByGeneration (hbounded : Roller.Bounded ρ) (hreliable : Roller.Reliable ρ)
    {c : Context ρ} (hcap : c.limits.maxRolls = none) (p : Pool) (condition : Condition) :
    p.ExplodesByGeneration condition c where
  scanned repeats dice failure after := by
    rw [Scan.endsIn_start_iff]
    refine ⟨fun h => by simp only [modify, ← h], fun h => ?_⟩
    simp only [modify, Run.mk.injEq, mk.injEq, true_and, and_true] at h
    obtain ⟨rfl, rfl, rfl⟩ := h
    rfl
  offspring := Explosion.generation_succ_fresh hbounded hreliable p.kind condition p.dice c.roller
  settles_iff :=
    (Explosion.run_recursive_eq_ok_iff hbounded hreliable hcap p.kind condition p.dice).trans
      (Explosion.generation_succ_eq_nil_iff hbounded hreliable p.kind condition p.dice c.roller _)
  failure := Explosion.run_recursive_failure hbounded hreliable hcap p.kind condition p.dice
  recursive hok n hn := by
    have hdice :=
      Explosion.run_recursive_value hbounded hreliable hcap p.kind condition p.dice hok hn
    simp only [List.map_append, List.map_flatMap,
      Explosion.map_burn_generation_succ hbounded hreliable] at hdice
    exact congrArg (fun dice => { p with dice }) hdice
  settled hok σ _ c' := by
    have hdice :=
      Explosion.run_recursive_value hbounded hreliable hcap p.kind condition p.dice hok (Nat.le_refl _)
    have hagain := Explosion.run_recursive_of_burnt p.kind condition
      (p.dice ++ (List.range c.limits.maxIterations).flatMap fun i =>
        (p.kind.generation condition p.dice c.roller (i + 1)).1) c'
    rw [← hdice] at hagain
    exact congrArg (fun run : Run σ (List Die) =>
      (⟨{ p with dice := run.value }, run.failure, run.context⟩ : Run σ Pool)) hagain
  once := by
    obtain ⟨hok, hdice⟩ := Explosion.run_once hreliable hcap p.kind condition p.dice
    exact ⟨hok, congrArg (fun dice => { p with dice }) hdice⟩

/-- Of four sixes one is out of play and one has exploded. The two left over roll a six and a one, and
the six a two: no third generation follows, but one generation would not have been enough. -/
theorem fourSixes_explodesByGeneration :
    let six : Die := .fresh 0 6 .initial
    let p : Pool := ⟨0, .usual, [six, six.drop, six.explode, six], none⟩
    let c (limit : Nat) : Context Playback := .start ⟨none, limit, 0⟩ (.ofList [6, 1, 2])
    Roller.Bounded Playback ∧ Roller.Reliable Playback ∧ (c 2).limits.maxRolls = none ∧
      p.ExplodesByGeneration (.equalTo 6) (c 2) ∧
      (p.modify (.explode .recursive (.equalTo 6)) (c 2)).failure = none ∧
      (p.modify (.explode .recursive (.equalTo 6)) (c 2)).value.dice =
        [six.explode, six.drop, six.explode, six.explode, (Die.fresh 0 6 .explosion).explode,
          .fresh 0 1 .explosion, .fresh 0 2 .explosion] ∧
      (p.modify (.explode .recursive (.equalTo 6)) (c 1)).failure = some (.explodeLoopExceeded 1) := by
  intro six p c
  have htwo : p.ExplodesByGeneration (.equalTo 6) (c 2) :=
    explodesByGeneration Playback.bounded Playback.reliable rfl p (.equalTo 6)
  have hone : p.ExplodesByGeneration (.equalTo 6) (c 1) :=
    explodesByGeneration Playback.bounded Playback.reliable rfl p (.equalTo 6)
  have hok : (p.modify (.explode .recursive (.equalTo 6)) (c 2)).failure = none :=
    htwo.settles_iff.2 (by decide)
  refine ⟨Playback.bounded, Playback.reliable, rfl, htwo, hok, ?_, ?_⟩
  · rw [htwo.recursive hok 2 (Nat.le_refl 2)]
    decide
  · exact hone.failure.resolve_left fun h => absurd (hone.settles_iff.1 h) (by decide)

end Pool

end DiceNotation
