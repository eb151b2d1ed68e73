import DiceNotation.Distribution.OfExpr
import DiceNotation.Proofs.Distribution.Convolution
import DiceNotation.Proofs.Distribution.Gathering

/-!
# The order of hands

The hands of a group are gone through in ascending order. Here the order is left open, at every stage of
the computation anew, to see what depends on it: nothing but which failure is reported, where a layer of
dice overflows and has too many hands as well.
-/

namespace DiceNotation

/-- A choice of the order in which a table of hands is gone through at each stage of a computation. -/
structure Visit where
  order : Nat → Hands → List (List Int × Nat)
  perm : ∀ stage hands, (order stage hands).Perm hands.toList

namespace Visit

def ascending : Visit := ⟨fun _ hands => hands.toList, fun _ _ => .refl _⟩

def descending : Visit := ⟨fun _ hands => hands.toList.reverse, fun _ _ => List.reverse_perm _⟩

end Visit

namespace Hands

/-- `addDice` in a chosen order, where the first layer is the given stage. -/
def addDiceIn (v : Visit) (limit : Nat) (die : Distribution) :
    Nat → Nat → Hands → Except DistributionError Hands
  | _, 0, hands => .ok hands
  | stage, n + 1, hands =>
    match addDieTo limit die (v.order stage hands) with
    | .error e => .error e
    | .ok hands => addDiceIn v limit die (stage + 1) n hands

/-- `Tally.mapM` in a chosen order. -/
def mapIn {β : Type} [Ord β] [Std.TransOrd β] (v : Visit) (stage : Nat)
    (f : List Int → Except ArithmeticError β) (hands : Hands) : Except ArithmeticError (Tally β) :=
  (v.order stage hands).foldlM (Tally.addMoved f) ∅

/-- Selections carried out one after another, each in a chosen order. -/
def selectAllIn (v : Visit) : Nat → List Selection → Hands → Except ArithmeticError Hands
  | _, [], hands => .ok hands
  | stage, s :: rest, hands =>
    (mapIn v stage (fun faces => .ok (s.pick faces)) hands).bind (selectAllIn v (stage + 1) rest)

/-- Counts successes in a chosen order, if there is a condition for them. -/
def countIn (v : Visit) (stage : Nat) (successes : Option Condition) (hands : Hands) :
    Except ArithmeticError Hands :=
  match successes with
  | none => .ok hands
  | some condition =>
    mapIn v stage (fun faces => .ok [((faces.countP condition.holds : Nat) : Int)]) hands

end Hands

namespace DiceGroup.Plan

/-- What selections and successes make of the rolled hands, in chosen orders. -/
def settleIn (v : Visit) (p : Plan) (stage : Nat) (hands : Hands) :
    Except ArithmeticError Distribution :=
  (Hands.selectAllIn v stage p.selections hands).bind fun selected =>
    (Hands.countIn v (stage + p.selections.length) p.successes selected).bind fun counted =>
      Hands.mapIn v (stage + p.selections.length + 1) Hands.sum counted

/-- The distribution of `count` dice by hands, in chosen orders. -/
def distributionIn (v : Visit) (p : Plan) (limit count : Nat) :
    Except DistributionError Distribution :=
  (Hands.addDiceIn v limit p.face 0 count Hands.noDice).bind fun hands =>
    (p.settleIn v count hands).mapError DistributionError.ofArithmetic

end DiceGroup.Plan

namespace Hands

theorem addDiceIn_ascending (limit : Nat) (die : Distribution) (stage n : Nat) (hands : Hands) :
    addDiceIn .ascending limit die stage n hands = addDice limit die n hands := by
  induction n generalizing stage hands with
  | zero => rfl
  | succ n ih =>
    have horder : Visit.ascending.order stage hands = hands.toList := rfl
    rw [addDiceIn, addDice, horder]
    cases addDieTo limit die hands.toList with
    | error e => rfl
    | ok next => exact ih (stage + 1) next

/-- Each face of a die put into each hand, with the number of ways. -/
def withDie (die : Distribution) (hands : List (List Int × Nat)) : List (List Int × Nat) :=
  (hands ×ˢ die.toList).map fun p => (insertFace p.2.1 p.1.1, p.1.2 * p.2.2)

/-- The hands with one more die as they are without bounds. -/
def layer (die : Distribution) (hands : Hands) : Hands :=
  Tally.gather ∅ (withDie die hands.toList)

/-- The layer that a die makes of the hands overflows a weight, and has more than `limit` hands. -/
def Overfull (limit : Nat) (die : Distribution) (hands : Hands) : Prop :=
  (∃ hand, maxCount < (layer die hands).ways hand) ∧ limit < (layer die hands).size

theorem addFace_eq (limit : Nat) (hand : List Int) (n : Nat) (t : Hands) (face : Int × Nat) :
    addFace limit hand n t face = t.addWithin limit (insertFace face.1 hand, n * face.2) := by
  have hadd : (Tally.boundedCount (n * face.2)).bind (t.add (insertFace face.1 hand)) =
      t.add (insertFace face.1 hand) (n * face.2) := by
    unfold Tally.boundedCount
    split
    · rfl
    · exact (Tally.add_eq_error_of_lt (by omega)).symm
  rw [addFace, hadd, Tally.addWithin]
  cases t.add (insertFace face.1 hand) (n * face.2) with
  | error e => rfl
  | ok next => rfl

theorem addDieTo_eq (limit : Nat) (die : Distribution) (hands : List (List Int × Nat)) :
    addDieTo limit die hands = (withDie die hands).foldlM (Tally.addWithin limit) ∅ := by
  refine (foldlM_foldlM (fun t (hand : List Int × Nat) face => addFace limit hand.1 hand.2 t face)
    hands die.toList ∅).trans ?_
  simp only [addFace_eq]
  rw [withDie, List.foldlM_map]

/-- In whatever order the hands come, a layer fits and is the layer without bounds, or it does not fit
and fails for one of its faults. -/
theorem addDieTo_gathers (limit : Nat) (die : Distribution) {hands : Hands}
    {entries : List (List Int × Nat)} (h : entries.Perm hands.toList) :
    (layer die hands).Gathers limit (addDieTo limit die entries) := by
  have hperm : (withDie die entries).Perm (withDie die hands.toList) :=
    (h.product_right die.toList).map _
  rw [addDieTo_eq, layer, ← Tally.gather_perm hperm]
  exact Tally.foldlM_addWithin_gathers (Tally.fits_empty limit) _

theorem addDieTo_of_fits {limit : Nat} {die : Distribution} {hands : Hands}
    (hfits : (layer die hands).Fits limit) {entries : List (List Int × Nat)}
    (h : entries.Perm hands.toList) : addDieTo limit die entries = .ok (layer die hands) := by
  have hgathers := addDieTo_gathers limit die h
  cases hadd : addDieTo limit die entries with
  | ok next =>
    rw [hadd] at hgathers
    rw [hgathers.1]
  | error e =>
    rw [hadd] at hgathers
    exact absurd hgathers (hfits.not_fault e)

theorem addDieTo_of_not_fits {limit : Nat} {die : Distribution} {hands : Hands}
    (hfits : ¬ (layer die hands).Fits limit) {entries : List (List Int × Nat)}
    (h : entries.Perm hands.toList) :
    ∃ e, addDieTo limit die entries = .error e ∧ (layer die hands).Fault limit e := by
  have hgathers := addDieTo_gathers limit die h
  cases hadd : addDieTo limit die entries with
  | ok next =>
    rw [hadd] at hgathers
    exact absurd hgathers.2 hfits
  | error e =>
    rw [hadd] at hgathers
    exact ⟨e, rfl, hgathers⟩

/-- A computation has failed in one of the two ways in which an overfull layer can. -/
def FailsOverfull {β : Type} (limit : Nat) (r : Except DistributionError β) : Prop :=
  r = .error .overflow ∨ r = .error (.tooManyOutcomes limit)

namespace FailsOverfull

variable {α β : Type} {limit : Nat} {r : Except DistributionError α}

theorem bind (h : FailsOverfull limit r) (f : α → Except DistributionError β) :
    FailsOverfull limit (r >>= f) := by
  rcases h with rfl | rfl
  · exact .inl rfl
  · exact .inr rfl

theorem ne_ok (h : FailsOverfull limit r) (x : α) : r ≠ .ok x := by
  rcases h with rfl | rfl
  · nofun
  · nofun

end FailsOverfull

section Overfull

variable {limit : Nat} {die : Distribution} {hands : Hands}

/-- No order of the hands gets through an overfull layer. -/
theorem addDieTo_of_overfull (hfull : hands.Overfull limit die) {entries : List (List Int × Nat)}
    (h : entries.Perm hands.toList) : FailsOverfull limit (addDieTo limit die entries) := by
  have hfits : ¬ (layer die hands).Fits limit := fun hfits => Nat.not_le_of_lt hfull.2 hfits.size_le
  obtain ⟨e, hadd, hfault⟩ := addDieTo_of_not_fits hfits h
  rw [hadd]
  cases hfault with
  | overflow => exact .inl rfl
  | tooManyOutcomes => exact .inr rfl

theorem addDiceIn_succ (v : Visit) (limit : Nat) (die : Distribution) (stage n : Nat) (hands : Hands) :
    addDiceIn v limit die stage (n + 1) hands =
      addDieTo limit die (v.order stage hands) >>= addDiceIn v limit die (stage + 1) n := by
  rw [addDiceIn]
  cases addDieTo limit die (v.order stage hands) with
  | error e => rfl
  | ok next => rfl

/-- Dice that come to an overfull layer fail there, in whatever order the hands of each layer are taken. -/
theorem addDiceIn_of_overfull {k n : Nat} {next : Hands} (hk : k < n)
    (hnext : addDice limit die k hands = .ok next) (hfull : next.Overfull limit die) (v : Visit)
    (stage : Nat) : FailsOverfull limit (addDiceIn v limit die stage n hands) := by
  induction n generalizing k stage hands with
  | zero => omega
  | succ n ih =>
    rw [addDiceIn_succ]
    cases k with
    | zero =>
      cases hnext
      exact (addDieTo_of_overfull hfull (v.perm stage next)).bind _
    | succ k =>
      rw [addDice] at hnext
      by_cases hfits : (layer die hands).Fits limit
      · rw [addDieTo_of_fits hfits (.refl _)] at hnext
        rw [addDieTo_of_fits hfits (v.perm stage hands)]
        exact ih (by omega) hnext (stage + 1)
      · obtain ⟨e, hadd, -⟩ := addDieTo_of_not_fits hfits (.refl _)
        rw [hadd] at hnext
        cases hnext

end Overfull

/-- Dice added in two orders come to the same, or there is an overfull layer among theirs. -/
theorem addDiceIn_eq_or (v w : Visit) (limit : Nat) (die : Distribution) (stage n : Nat)
    (hands : Hands) :
    addDiceIn v limit die stage n hands = addDiceIn w limit die stage n hands ∨
      ∃ k next, k < n ∧ addDice limit die k hands = .ok next ∧ next.Overfull limit die := by
  induction n generalizing stage hands with
  | zero => exact .inl rfl
  | succ n ih =>
    by_cases hfits : (layer die hands).Fits limit
    · rw [addDiceIn, addDiceIn, addDieTo_of_fits hfits (v.perm stage hands),
        addDieTo_of_fits hfits (w.perm stage hands)]
      rcases ih (stage + 1) (layer die hands) with heq | ⟨k, next, hk, hnext, hfull⟩
      · exact .inl heq
      · refine .inr ⟨k + 1, next, by omega, ?_, hfull⟩
        rw [addDice, addDieTo_of_fits hfits (.refl _)]
        exact hnext
    · obtain ⟨d, hv, hd⟩ := addDieTo_of_not_fits hfits (v.perm stage hands)
      obtain ⟨e, hw, he⟩ := addDieTo_of_not_fits hfits (w.perm stage hands)
      rw [addDiceIn, addDiceIn, hv, hw]
      cases hd with
      | overflow x hx =>
        cases he with
        | overflow => exact .inl rfl
        | tooManyOutcomes hsize => exact .inr ⟨0, hands, by omega, rfl, ⟨x, hx⟩, hsize⟩
      | tooManyOutcomes hsize =>
        cases he with
        | overflow x hx => exact .inr ⟨0, hands, by omega, rfl, ⟨x, hx⟩, hsize⟩
        | tooManyOutcomes => exact .inl rfl

section Settling

variable {β : Type} [DecidableEq β] [Ord β] [Std.TransOrd β] [Std.LawfulEqOrd β]

/-- Hands can be mapped in any order. -/
theorem mapIn_eq (v : Visit) (stage : Nat) {f : List Int → Except ArithmeticError β}
    (hf : ∀ x a, f x = .error a → a = .overflow) (hands : Hands) :
    mapIn v stage f hands = Tally.mapM f hands :=
  foldlM_perm (Tally.addMoved_comm hf) (v.perm stage hands) ∅

theorem selectAllIn_eq (v : Visit) (stage : Nat) (selections : List Selection) (hands : Hands) :
    selectAllIn v stage selections hands = selections.foldlM (fun hands s => select s hands) hands := by
  induction selections generalizing stage hands with
  | nil => rfl
  | cons s rest ih =>
    rw [selectAllIn, mapIn_eq v stage (fun _ _ h => by cases h), List.foldlM_cons]
    exact bind_congr fun next => ih (stage + 1) next

theorem countIn_eq (v : Visit) (stage : Nat) (successes : Option Condition) (hands : Hands) :
    countIn v stage successes hands =
      match successes with
      | none => .ok hands
      | some condition => countSuccesses condition hands := by
  cases successes with
  | none => rfl
  | some condition => exact mapIn_eq v stage (fun _ _ h => by cases h) hands

theorem foldlM_checked_eq_error {faces : List Int} {start : Int} {a : ArithmeticError}
    (h : faces.foldlM (fun sum x => checked (sum + x)) start = .error a) : a = .overflow := by
  induction faces generalizing start with
  | nil => cases h
  | cons x rest ih =>
    rw [List.foldlM_cons] at h
    unfold checked at h
    split at h
    · exact ih h
    · cases h
      rfl

end Settling

end Hands

namespace DiceGroup.Plan

/-- What selections and successes make of the rolled hands. -/
def settle (p : Plan) (hands : Hands) : Except ArithmeticError Distribution :=
  (p.selections.foldlM (fun hands s => Hands.select s hands) hands).bind fun selected =>
    match p.successes with
    | none => Hands.toDistribution selected
    | some condition => (Hands.countSuccesses condition selected).bind Hands.toDistribution

/-- What is done with the rolled hands depends on no order. -/
theorem settleIn_eq (v : Visit) (p : Plan) (stage : Nat) (hands : Hands) :
    p.settleIn v stage hands = p.settle hands := by
  have hsum : ∀ faces a, Hands.sum faces = .error a → a = .overflow :=
    fun _ _ h => Hands.foldlM_checked_eq_error h
  unfold settleIn settle
  simp only [Hands.selectAllIn_eq, Hands.countIn_eq, Hands.mapIn_eq v _ hsum]
  cases p.successes with
  | none => rfl
  | some condition => rfl

/-- In ascending order the distribution is that of the plan. -/
theorem distributionIn_ascending {p : Plan} (h : p.selections ≠ []) (limit : Nat)
    (count : DiceCount) :
    p.distributionIn .ascending limit count.toNat = p.distribution limit count := by
  obtain ⟨face, selections, successes⟩ := p
  cases selections with
  | nil => exact absurd rfl h
  | cons s rest =>
    unfold distributionIn
    simp only [Hands.addDiceIn_ascending, settleIn_eq]
    cases successes with
    | none => rfl
    | some condition => rfl

/-- Where some layer of dice is overfull the distribution by hands fails in every order, for one of the two
faults of the layer. -/
theorem distributionIn_of_overfull {p : Plan} {limit count n : Nat} {hands : Hands} (hn : n < count)
    (hroll : Hands.roll limit p.face n = .ok hands) (hfull : hands.Overfull limit p.face) (v : Visit) :
    Hands.FailsOverfull limit (p.distributionIn v limit count) :=
  (Hands.addDiceIn_of_overfull hn hroll hfull v 0).bind _

theorem distributionIn_eq_or_overfull (p : Plan) (limit count : Nat) (v w : Visit) :
    p.distributionIn v limit count = p.distributionIn w limit count ∨
      ∃ n hands, n < count ∧ Hands.roll limit p.face n = .ok hands ∧
        hands.Overfull limit p.face := by
  refine (Hands.addDiceIn_eq_or v w limit p.face 0 count Hands.noDice).imp_left fun heq => ?_
  unfold distributionIn
  rw [heq]
  simp only [settleIn_eq]

/-- The distribution by hands is the same in any two orders, failures included, unless some layer of
dice is overfull; there either order fails, and reports one of the two faults of the layer. -/
theorem distributionIn_eq_or (p : Plan) (limit count : Nat) (v w : Visit) :
    p.distributionIn v limit count = p.distributionIn w limit count ∨
      (∃ n hands, n < count ∧ Hands.roll limit p.face n = .ok hands ∧
        hands.Overfull limit p.face) ∧
        Hands.FailsOverfull limit (p.distributionIn v limit count) ∧
        Hands.FailsOverfull limit (p.distributionIn w limit count) := by
  rcases p.distributionIn_eq_or_overfull limit count v w with heq | ⟨n, hands, hn, hroll, hfull⟩
  · exact .inl heq
  · have hfails := distributionIn_of_overfull hn hroll hfull
    exact .inr ⟨⟨n, hands, hn, hroll, hfull⟩, hfails v, hfails w⟩

/-- The highest of two dice that show a three nearly always. -/
def lopsidedPair : Plan :=
  ⟨Std.ExtTreeMap.ofList [((1 : Int), 1), (2, 1), (3, 4294967296)], [⟨.keep, .highest, 1⟩], none⟩

/-- From below the fourth hand is met first, from above the two threes. -/
theorem lopsidedPair_order_matters :
    ¬ ∀ (p : Plan) (limit count : Nat) (v w : Visit),
      p.distributionIn v limit count = p.distributionIn w limit count := by
  intro h
  have hup : lopsidedPair.distributionIn .ascending 3 2 = .error (.tooManyOutcomes 3) := by
    decide +kernel
  have hdown : lopsidedPair.distributionIn .descending 3 2 = .error .overflow := by
    decide +kernel
  have hsame := h lopsidedPair 3 2 .ascending .descending
  rw [hup, hdown] at hsame
  cases hsame

end DiceGroup.Plan

end DiceNotation
