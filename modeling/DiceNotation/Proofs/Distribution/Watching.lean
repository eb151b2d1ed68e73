import DiceNotation.Proofs.Distribution.Orders
import DiceNotation.Report

/-!
# Tables held on the way

A distribution is worked out through tables that come and go. To speak of all of them, the computation is
watched: it runs as before and notes every table that it holds, those in the making after each entry. Nothing
is taken back when it fails. The hands of a group may be gone through in any order, chosen anew at every stage
of every group.

Watching changes nothing: in ascending order the watched computation comes to what the computation itself comes
to. In any other order it comes to the same distribution, if there is one.
-/

namespace DiceNotation

/-- A table that is held while a distribution is worked out. -/
inductive Table where
  /-- One die of a group after the clamps so far, or its success. -/
  | face (t : Distribution)
  /-- The sum of some first dice of a group. -/
  | sum (t : Distribution)
  /-- The values of an expression. -/
  | value (t : Distribution)
  /-- The hands of some first dice of a group. -/
  | layer (t : Hands)
  | selected (t : Hands)
  | counted (t : Hands)
  /-- Outcomes in the making. -/
  | unfinished (t : Distribution)
  /-- Selected or counted hands in the making. -/
  | unfinishedHands (t : Hands)
  /-- Hands with one more die, in the making. -/
  | unfinishedLayer (t : Hands)

def Table.size : Table → Nat
  | face t | sum t | value t | unfinished t => t.size
  | layer t | selected t | counted t | unfinishedHands t | unfinishedLayer t => t.size

/-- A computation with the tables that it has held, the first one first. -/
structure Watched (ε α : Type) where
  tables : List Table
  outcome : Except ε α

namespace Watched

variable {ε ε' α β σ ι : Type}

/-- A computation that holds no table. -/
def lift (r : Except ε α) : Watched ε α := ⟨[], r⟩

instance : Monad (Watched ε) where
  pure x := lift (.ok x)
  bind c f :=
    match c.outcome with
    | .error e => ⟨c.tables, .error e⟩
    | .ok x => ⟨c.tables ++ (f x).tables, (f x).outcome⟩

def mapError (f : ε → ε') (c : Watched ε α) : Watched ε' α := ⟨c.tables, c.outcome.mapError f⟩

/-- A table that is there. -/
def hold (mark : α → Table) (x : α) : Watched ε α := ⟨[mark x], .ok x⟩

/-- Notes the table that the computation comes to. -/
def note (mark : α → Table) (c : Watched ε α) : Watched ε α := c >>= hold mark

/-- Fills an empty table step by step, and notes it after each. -/
def fill [Ord α] [Std.TransOrd α] (mark : Tally α → Table)
    (step : Tally α → ι → Except ε (Tally α)) (entries : List ι) : Watched ε (Tally α) :=
  entries.foldlM (fun t i => (lift (step t i)).note mark) ∅

@[simp] theorem outcome_lift (r : Except ε α) : (lift r).outcome = r := rfl

@[simp] theorem outcome_hold (mark : α → Table) (x : α) :
    (hold mark x : Watched ε α).outcome = .ok x := rfl

@[simp] theorem outcome_pure (x : α) : (pure x : Watched ε α).outcome = .ok x := rfl

@[simp] theorem outcome_bind (c : Watched ε α) (f : α → Watched ε β) :
    (c >>= f).outcome = c.outcome >>= fun x => (f x).outcome := by
  obtain ⟨tables, outcome⟩ := c
  cases outcome with
  | error e => rfl
  | ok x => rfl

@[simp] theorem outcome_mapError (f : ε → ε') (c : Watched ε α) :
    (c.mapError f).outcome = c.outcome.mapError f := rfl

@[simp] theorem outcome_note (mark : α → Table) (c : Watched ε α) :
    (c.note mark).outcome = c.outcome := by
  rw [note, outcome_bind]
  exact bind_pure c.outcome

theorem outcome_foldlM (step : σ → ι → Watched ε σ) (l : List ι) (start : σ) :
    (l.foldlM step start).outcome = l.foldlM (fun s i => (step s i).outcome) start := by
  induction l generalizing start with
  | nil => rfl
  | cons i rest ih =>
    rw [List.foldlM_cons, List.foldlM_cons, outcome_bind]
    exact bind_congr fun s => ih s

@[simp] theorem outcome_fill [Ord α] [Std.TransOrd α] (mark : Tally α → Table)
    (step : Tally α → ι → Except ε (Tally α)) (entries : List ι) :
    (fill mark step entries).outcome = entries.foldlM step ∅ := by
  rw [fill, outcome_foldlM]
  simp only [outcome_note, outcome_lift]

end Watched

namespace Tally

variable {α β : Type} [Ord β] [Std.TransOrd β]

/-- `mapM`, watched, with the entries in the given order. -/
def watchMap (making made : Tally β → Table) (f : α → Except ArithmeticError β)
    (entries : List (α × Nat)) : Watched ArithmeticError (Tally β) :=
  (Watched.fill making (addMoved f) entries).note made

@[simp] theorem outcome_watchMap (making made : Tally β → Table) (f : α → Except ArithmeticError β)
    (entries : List (α × Nat)) :
    (watchMap making made f entries).outcome = entries.foldlM (addMoved f) ∅ := by
  rw [watchMap, Watched.outcome_note, Watched.outcome_fill]

end Tally

namespace Distribution

open Watched (fill hold lift)

/-- `combine`, watched: the pairs are counted before a table is begun. -/
def watchCombine (limit : Nat) (f : Int → Int → Except ArithmeticError Int) (a b : Distribution) :
    Watched DistributionError Distribution :=
  if limit < a.size * b.size then lift (.error (.tooManyOutcomes limit))
  else
    (fill Table.unfinished (fun t (p : (Int × Nat) × (Int × Nat)) => addPair f p.1 t p.2)
      (a.toList ×ˢ b.toList)).mapError DistributionError.ofArithmetic

/-- `addDraws`, watched. -/
def watchAddDraws (limit : Nat) (die : Distribution) :
    Nat → Distribution → Watched DistributionError Distribution
  | 0, sum => pure sum
  | n + 1, sum => do
    let sum ← (watchCombine limit BinaryOp.add.apply sum die).note Table.sum
    watchAddDraws limit die n sum

/-- `repeatSum`, watched. -/
def watchRepeatSum (limit : Nat) (die : Distribution) (count : DiceCount) :
    Watched DistributionError Distribution := do
  let sum ← hold Table.sum die
  watchAddDraws limit die (count.toNat - 1) sum

@[simp] theorem outcome_watchCombine (limit : Nat) (f : Int → Int → Except ArithmeticError Int)
    (a b : Distribution) : (watchCombine limit f a b).outcome = combine limit f a b := by
  unfold watchCombine combine
  split
  · rfl
  · rw [Watched.outcome_mapError, Watched.outcome_fill]
    exact congrArg _ (foldlM_foldlM (fun t i k => addPair f i t k) a.toList b.toList ∅).symm

@[simp] theorem outcome_watchAddDraws (limit : Nat) (die : Distribution) (n : Nat)
    (sum : Distribution) :
    (watchAddDraws limit die n sum).outcome = addDraws limit die n sum := by
  induction n generalizing sum with
  | zero => rfl
  | succ n ih =>
    simp only [watchAddDraws, addDraws, Watched.outcome_bind, Watched.outcome_note,
      outcome_watchCombine, ih]
    cases combine limit BinaryOp.add.apply sum die with
    | error e => rfl
    | ok next => rfl

@[simp] theorem outcome_watchRepeatSum (limit : Nat) (die : Distribution) (count : DiceCount) :
    (watchRepeatSum limit die count).outcome = repeatSum limit die count := by
  rw [watchRepeatSum, Watched.outcome_bind, Watched.outcome_hold]
  exact outcome_watchAddDraws limit die (count.toNat - 1) die

end Distribution

namespace Hands

open Watched (lift)

/-- `addFace`, watched: the table is held before its size is looked at. -/
def watchFace (limit : Nat) (t : Hands) (p : (List Int × Nat) × (Int × Nat)) :
    Watched DistributionError Hands := do
  let added := (Tally.boundedCount (p.1.2 * p.2.2)).bind (t.add (insertFace p.2.1 p.1.1))
  let t ← ((lift added).note Table.unfinishedLayer).mapError DistributionError.ofArithmetic
  if limit < t.size then lift (.error (.tooManyOutcomes limit)) else pure t

/-- `addDieTo`, watched. -/
def watchDie (limit : Nat) (die : Distribution) (hands : List (List Int × Nat)) :
    Watched DistributionError Hands :=
  (hands ×ˢ die.toList).foldlM (watchFace limit) ∅

/-- `addDiceIn`, watched. -/
def watchDice (v : Visit) (limit : Nat) (die : Distribution) :
    Nat → Nat → Hands → Watched DistributionError Hands
  | _, 0, hands => pure hands
  | stage, n + 1, hands => do
    let hands ← (watchDie limit die (v.order stage hands)).note Table.layer
    watchDice v limit die (stage + 1) n hands

/-- `selectAllIn`, watched. -/
def watchSelections (v : Visit) : Nat → List Selection → Hands → Watched ArithmeticError Hands
  | _, [], hands => pure hands
  | stage, s :: rest, hands => do
    let hands ← Tally.watchMap Table.unfinishedHands Table.selected
      (fun faces => .ok (s.pick faces)) (v.order stage hands)
    watchSelections v (stage + 1) rest hands

/-- `countIn`, watched. -/
def watchCount (v : Visit) (stage : Nat) (successes : Option Condition) (hands : Hands) :
    Watched ArithmeticError Hands :=
  match successes with
  | none => pure hands
  | some condition =>
    Tally.watchMap Table.unfinishedHands Table.counted
      (fun faces => .ok [((faces.countP condition.holds : Nat) : Int)]) (v.order stage hands)

@[simp] theorem outcome_watchFace (limit : Nat) (t : Hands) (p : (List Int × Nat) × (Int × Nat)) :
    (watchFace limit t p).outcome = addFace limit p.1.1 p.1.2 t p.2 := by
  simp only [watchFace, addFace, Watched.outcome_bind, Watched.outcome_mapError,
    Watched.outcome_note, Watched.outcome_lift]
  cases (Tally.boundedCount (p.1.2 * p.2.2)).bind (t.add (insertFace p.2.1 p.1.1)) with
  | error e => rfl
  | ok next =>
    change (if limit < next.size then lift (.error (.tooManyOutcomes limit))
      else pure next : Watched DistributionError Hands).outcome = _
    split
    · next h => simp only [if_pos h, Watched.outcome_lift]
    · next h => simp only [if_neg h, Watched.outcome_pure]

@[simp] theorem outcome_watchDie (limit : Nat) (die : Distribution) (hands : List (List Int × Nat)) :
    (watchDie limit die hands).outcome = addDieTo limit die hands := by
  rw [watchDie, Watched.outcome_foldlM]
  simp only [outcome_watchFace]
  exact (foldlM_foldlM (fun t (hand : List Int × Nat) face => addFace limit hand.1 hand.2 t face)
    hands die.toList ∅).symm

@[simp] theorem outcome_watchDice (v : Visit) (limit : Nat) (die : Distribution) (stage n : Nat)
    (hands : Hands) :
    (watchDice v limit die stage n hands).outcome = addDiceIn v limit die stage n hands := by
  induction n generalizing stage hands with
  | zero => rfl
  | succ n ih =>
    simp only [watchDice, addDiceIn, Watched.outcome_bind, Watched.outcome_note, outcome_watchDie, ih]
    cases addDieTo limit die (v.order stage hands) with
    | error e => rfl
    | ok next => rfl

@[simp] theorem outcome_watchSelections (v : Visit) (stage : Nat) (selections : List Selection)
    (hands : Hands) :
    (watchSelections v stage selections hands).outcome = selectAllIn v stage selections hands := by
  induction selections generalizing stage hands with
  | nil => rfl
  | cons s rest ih =>
    simp only [watchSelections, Watched.outcome_bind, Tally.outcome_watchMap, ih]
    rfl

@[simp] theorem outcome_watchCount (v : Visit) (stage : Nat) (successes : Option Condition)
    (hands : Hands) :
    (watchCount v stage successes hands).outcome = countIn v stage successes hands := by
  cases successes with
  | none => rfl
  | some condition => simp only [watchCount, countIn, mapIn, Tally.outcome_watchMap]

end Hands

/-- Two computations come to the same, or both fail as at an overfull layer. -/
def Agree {α : Type} (limit : Nat) (r s : Except DistributionError α) : Prop :=
  r = s ∨ Hands.FailsOverfull limit r ∧ Hands.FailsOverfull limit s

namespace Agree

variable {α β : Type} {limit : Nat} {r s : Except DistributionError α}

theorem refl (r : Except DistributionError α) : Agree limit r r := .inl rfl

theorem bind {f g : α → Except DistributionError β} (h : Agree limit r s)
    (hf : ∀ x, Agree limit (f x) (g x)) : Agree limit (r >>= f) (s >>= g) := by
  rcases h with rfl | ⟨hr, hs⟩
  · cases r with
    | error e => exact .refl _
    | ok x => exact hf x
  · exact .inr ⟨hr.bind f, hs.bind g⟩

theorem ok_iff (h : Agree limit r s) (x : α) : r = .ok x ↔ s = .ok x := by
  rcases h with rfl | ⟨hr, hs⟩
  · rfl
  · exact iff_of_false (hr.ne_ok x) (hs.ne_ok x)

end Agree

namespace DiceGroup

open Watched (fill hold lift)

namespace Plan

/-- `add`, watched. -/
def watchAdd (p : Plan) (m : Modifier) : Watched DistributionError Plan :=
  match m with
  | .clamp c => do
    let face ← (Tally.watchMap Table.unfinished Table.face (fun x => .ok (c.apply x))
      p.face.toList).mapError DistributionError.ofArithmetic
    pure { p with face }
  | m => lift (p.add m)

/-- The distribution by sums, watched. -/
def watchSums (p : Plan) (limit : Nat) (count : DiceCount) : Watched DistributionError Distribution :=
  match p.successes with
  | none => Distribution.watchRepeatSum limit p.face count
  | some condition => do
    let face ← (Tally.watchMap Table.unfinished Table.face (fun x => .ok (successFace condition x))
      p.face.toList).mapError DistributionError.ofArithmetic
    Distribution.watchRepeatSum limit face count

/-- `settleIn`, watched. -/
def watchSettle (v : Visit) (p : Plan) (stage : Nat) (hands : Hands) :
    Watched ArithmeticError Distribution := do
  let selected ← Hands.watchSelections v stage p.selections hands
  let counted ← Hands.watchCount v (stage + p.selections.length) p.successes selected
  fill Table.unfinished (Tally.addMoved Hands.sum)
    (v.order (stage + p.selections.length + 1) counted)

/-- `distributionIn`, watched. The hand of no dice is the first layer. -/
def watchHands (v : Visit) (p : Plan) (limit count : Nat) :
    Watched DistributionError Distribution := do
  let start ← hold Table.layer Hands.noDice
  let hands ← Hands.watchDice v limit p.face 0 count start
  (p.watchSettle v count hands).mapError DistributionError.ofArithmetic

/-- `distribution`, watched. -/
def watch (v : Visit) (p : Plan) (limit : Nat) (count : DiceCount) :
    Watched DistributionError Distribution :=
  match p.selections with
  | [] => p.watchSums limit count
  | _ :: _ => p.watchHands v limit count.toNat

@[simp] theorem outcome_watchAdd (p : Plan) (m : Modifier) : (p.watchAdd m).outcome = p.add m := by
  cases m with
  | clamp c =>
    simp only [watchAdd, add, Watched.outcome_bind, Watched.outcome_mapError, Tally.outcome_watchMap,
      Watched.outcome_pure]
    change ((Tally.mapM (fun x => .ok (c.apply x)) p.face).mapError
      DistributionError.ofArithmetic >>= fun face => .ok { p with face }) = _
    cases Tally.mapM (fun x => .ok (c.apply x)) p.face with
    | error e => rfl
    | ok face => rfl
  | select | countSuccesses | reroll | explode => rfl

theorem outcome_watchSettle (v : Visit) (p : Plan) (stage : Nat) (hands : Hands) :
    (p.watchSettle v stage hands).outcome = p.settleIn v stage hands := by
  simp only [watchSettle, Watched.outcome_bind, Watched.outcome_fill, Hands.outcome_watchSelections,
    Hands.outcome_watchCount]
  rfl

theorem outcome_watchHands (v : Visit) (p : Plan) (limit count : Nat) :
    (p.watchHands v limit count).outcome = p.distributionIn v limit count := by
  simp only [watchHands, Watched.outcome_bind, Watched.outcome_hold, Watched.outcome_mapError,
    Hands.outcome_watchDice, outcome_watchSettle]
  rfl

theorem outcome_watch (p : Plan) (limit : Nat) (count : DiceCount) :
    (p.watch .ascending limit count).outcome = p.distribution limit count := by
  obtain ⟨face, selections, successes⟩ := p
  cases selections with
  | nil =>
    cases successes with
    | none => exact Distribution.outcome_watchRepeatSum limit face count
    | some condition =>
      simp only [watch, watchSums, Watched.outcome_bind, Watched.outcome_mapError,
        Tally.outcome_watchMap, Distribution.outcome_watchRepeatSum]
      rfl
  | cons s rest =>
    have hselects : (⟨face, s :: rest, successes⟩ : Plan).selections ≠ [] := List.cons_ne_nil s rest
    rw [← distributionIn_ascending hselects, ← outcome_watchHands]
    rfl

theorem outcome_watch_agrees (v : Visit) (p : Plan) (limit : Nat) (count : DiceCount) :
    Agree limit (p.watch v limit count).outcome (p.watch .ascending limit count).outcome := by
  unfold watch
  split
  · exact .refl _
  · rw [outcome_watchHands, outcome_watchHands]
    rcases p.distributionIn_eq_or_overfull limit count.toNat v .ascending with
      heq | ⟨n, hands, hn, hroll, hfull⟩
    · exact .inl heq
    · have hfails := distributionIn_of_overfull hn hroll hfull
      exact .inr ⟨hfails v, hfails .ascending⟩

end Plan

/-- `distribution`, watched. -/
def watch (v : Visit) (g : DiceGroup) (limits : Limits) : Watched DistributionError Distribution :=
  match limits.maxRolls.filter (· < g.count.toNat) with
  | some limit => lift (.error (.tooManyDice limit))
  | none =>
    if limits.maxOutcomes < g.sides.toNat then
      lift (.error (.tooManyOutcomes limits.maxOutcomes))
    else do
      let die ← hold Table.face (Distribution.die g.sides)
      let plan ← g.modifiers.foldlM Plan.watchAdd ⟨die, [], none⟩
      plan.watch v limits.maxOutcomes g.count

theorem outcome_watch (g : DiceGroup) (limits : Limits) :
    (g.watch .ascending limits).outcome = g.distribution limits := by
  unfold watch distribution
  cases limits.maxRolls.filter (· < g.count.toNat) with
  | some limit => rfl
  | none =>
    by_cases hsides : limits.maxOutcomes < g.sides.toNat
    · simp only [if_pos hsides, Watched.outcome_lift]
    · simp only [if_neg hsides, Watched.outcome_bind, Watched.outcome_hold, Watched.outcome_foldlM,
        Plan.outcome_watchAdd, Plan.outcome_watch]
      rfl

theorem outcome_watch_agrees (g : DiceGroup) (v : Visit) (limits : Limits) :
    Agree limits.maxOutcomes (g.watch v limits).outcome (g.distribution limits) := by
  rw [← g.outcome_watch limits]
  unfold watch
  cases limits.maxRolls.filter (· < g.count.toNat) with
  | some limit => exact .refl _
  | none =>
    by_cases hsides : limits.maxOutcomes < g.sides.toNat
    · simp only [if_pos hsides]
      exact .refl _
    · simp only [if_neg hsides, Watched.outcome_bind]
      refine (Agree.refl _).bind fun die => (Agree.refl _).bind fun plan => ?_
      exact plan.outcome_watch_agrees v limits.maxOutcomes g.count

end DiceGroup

namespace Expr

/-- `distribution`, watched. The groups of dice are numbered from the left, and each has its own orders. -/
def watch (limits : Limits) : Expr → (Nat → Visit) → Watched DistributionError Distribution
  | literal x, _ => Watched.hold Table.value (.constant x)
  | dice g, visits => (g.watch (visits 0) limits).note Table.value
  | negate e, visits => do
    let operand ← e.watch limits visits
    (Tally.watchMap Table.unfinished Table.value DiceNotation.negate operand.toList).mapError
      DistributionError.ofArithmetic
  | binary op l r, visits => do
    let left ← l.watch limits visits
    let right ← r.watch limits fun i => visits (l.diceGroups + i)
    (Distribution.watchCombine limits.maxOutcomes op.apply left right).note Table.value

theorem distribution_negate (limits : Limits) (e : Expr) :
    (negate e).distribution limits = e.distribution limits >>= fun operand =>
      (Tally.mapM DiceNotation.negate operand).mapError DistributionError.ofArithmetic := by
  rw [distribution]
  cases e.distribution limits with
  | error e => rfl
  | ok operand => rfl

theorem distribution_binary (limits : Limits) (op : BinaryOp) (l r : Expr) :
    (binary op l r).distribution limits = l.distribution limits >>= fun left =>
      r.distribution limits >>= fun right =>
        Distribution.combine limits.maxOutcomes op.apply left right := by
  rw [distribution]
  cases l.distribution limits with
  | error e => rfl
  | ok left =>
    cases r.distribution limits with
    | error e => rfl
    | ok right => rfl

section Outcome

variable {R : Except DistributionError Distribution → Except DistributionError Distribution → Prop}
  (hrefl : ∀ r, R r r)
  (hbind : ∀ {r s : Except DistributionError Distribution}
    {f g : Distribution → Except DistributionError Distribution},
    R r s → (∀ d, R (f d) (g d)) → R (r >>= f) (s >>= g))
  {limits : Limits}

include hrefl hbind

/-- How the watched computation of an expression and its distribution are related is decided at the groups
of dice. -/
theorem outcome_watch_related (e : Expr) {visits : Nat → Visit}
    (hgroup : ∀ (g : DiceGroup) i, R (g.watch (visits i) limits).outcome (g.distribution limits)) :
    R (e.watch limits visits).outcome (e.distribution limits) := by
  induction e generalizing visits with
  | literal x => exact hrefl _
  | dice g =>
    rw [watch, Watched.outcome_note]
    exact hgroup g 0
  | negate e ih =>
    rw [watch, Watched.outcome_bind, distribution_negate]
    refine hbind (ih hgroup) fun operand => ?_
    rw [Watched.outcome_mapError, Tally.outcome_watchMap]
    exact hrefl _
  | binary op l r ihl ihr =>
    rw [watch, Watched.outcome_bind, distribution_binary]
    refine hbind (ihl hgroup) fun left => ?_
    rw [Watched.outcome_bind]
    -- the groups on the right are numbered on from those on the left
    refine hbind (ihr fun g i => hgroup g (l.diceGroups + i)) fun right => ?_
    rw [Watched.outcome_note, Distribution.outcome_watchCombine]
    exact hrefl _

end Outcome

theorem outcome_watch (limits : Limits) (e : Expr) :
    (e.watch limits fun _ => .ascending).outcome = e.distribution limits := by
  refine outcome_watch_related (R := Eq) (fun _ => rfl) (fun hr hf => ?_) e
    fun g _ => g.outcome_watch limits
  rw [hr]
  exact bind_congr hf

/-- In other orders the watched computation comes to the same, unless both meet with an overfull layer. -/
theorem outcome_watch_agrees (limits : Limits) (e : Expr) (visits : Nat → Visit) :
    Agree limits.maxOutcomes (e.watch limits visits).outcome (e.distribution limits) :=
  outcome_watch_related (fun r => .refl r) (fun hr hf => hr.bind hf) e
    fun g i => g.outcome_watch_agrees (visits i) limits

end Expr

/-- `distributionOfText`, watched. -/
def watchText (visits : Nat → Visit) (text : String) (limits : Limits) : Watched Error Distribution :=
  match Expr.parse text with
  | .error e => .lift (.error e)
  | .ok e => (e.watch limits visits).mapError Error.distribution

section Texts

variable (text : String) (limits : Limits)

/-- What the watched computation of a text comes to in ascending order is its distribution. -/
theorem outcome_watchText :
    (watchText (fun _ => .ascending) text limits).outcome = distributionOfText text limits := by
  unfold watchText distributionOfText
  cases Expr.parse text with
  | error e => rfl
  | ok e => exact congrArg (Except.mapError Error.distribution) (e.outcome_watch limits)

-- On the left the die, the sum of one die, four pairs for the sum of two, and the value. On the right the die and
-- the hand of no dice, the layers of one and of two dice, what is selected, what is counted, its sums, and the
-- value. Then six pairs for the difference, and its value.
example : (watchText (fun _ => .ascending) "2d2 - 2d2kh1cs2" ⟨none, 100, 6⟩).tables.map Table.size =
    [2, 2, 1, 2, 2, 3, 3, 3] ++
      [2, 1, 1, 2, 2, 1, 2, 2, 3, 3, 1, 2, 2, 2, 1, 2, 2, 1, 2, 2] ++
      [1, 2, 3, 3, 4, 4, 4] := by
  decide +kernel

/-- Whether a text has a distribution, and which, depends on no order. -/
theorem outcome_watchText_eq_ok_iff (visits : Nat → Visit) (d : Distribution) :
    (watchText visits text limits).outcome = .ok d ↔ distributionOfText text limits = .ok d := by
  unfold watchText distributionOfText
  cases Expr.parse text with
  | error e => rfl
  | ok e =>
    simp only [Watched.outcome_mapError, mapError_eq_ok_iff]
    exact (e.outcome_watch_agrees limits visits).ok_iff d

end Texts

end DiceNotation
