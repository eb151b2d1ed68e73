import DiceNotation.Proofs.Distribution.Plans
import DiceNotation.Proofs.Distribution.Watching

/-!
# How large tables grow

The limit on outcomes bounds every table that is held while a distribution is worked out. It is tested on the
sides of a die, on the pairs of a combination before any of them is looked at, and on a layer of hands after
each entry, so that only a layer in the making can go beyond it, by one entry. All other tables are filled from
the entries of a table that fits: at each of them at most one entry is added, whatever becomes of it.
-/

namespace DiceNotation

variable {limit : Nat}

/-- The table is no larger than the limit allows. -/
def Table.Fits (limit : Nat) : Table → Prop
  | unfinishedLayer t => t.size ≤ limit + 1
  | table => table.size ≤ limit

namespace Tally

variable {α : Type} [Ord α] [Std.TransOrd α]

theorem size_le_of_add {t s : Tally α} {x : α} {n : Nat} (h : t.add x n = .ok s) :
    s.size ≤ t.size + 1 := by
  obtain ⟨-, rfl⟩ := add_eq_ok_iff.1 h
  exact Std.ExtTreeMap.size_insert_le

theorem size_le_of_addMoved {β : Type} {f : β → Except ArithmeticError α} {t s : Tally α}
    {entry : β × Nat} (h : addMoved f t entry = .ok s) : s.size ≤ t.size + 1 := by
  unfold addMoved at h
  split at h
  · exact size_le_of_add h
  · cases h

end Tally

namespace Watched

variable {ε ε' α β σ ι : Type} {Q : α → Prop} {R : β → Prop} {c : Watched ε α}

/-- All tables fit, and what the computation comes to has the property. -/
structure Within (limit : Nat) (Q : α → Prop) (c : Watched ε α) : Prop where
  tables : ∀ table ∈ c.tables, table.Fits limit
  outcome : ∀ x, c.outcome = .ok x → Q x

namespace Within

theorem lift {r : Except ε α} (h : ∀ x, r = .ok x → Q x) : (Watched.lift r).Within limit Q :=
  ⟨fun _ => nofun, h⟩

theorem value {x : α} (h : Q x) : (Watched.lift (.ok x) : Watched ε α).Within limit Q :=
  .lift fun _ hx => by
    cases hx
    exact h

theorem failure (e : ε) : (Watched.lift (.error e) : Watched ε α).Within limit Q :=
  .lift fun _ => nofun

theorem bind {f : α → Watched ε β} (hc : c.Within limit Q) (hf : ∀ x, Q x → (f x).Within limit R) :
    (c >>= f).Within limit R := by
  obtain ⟨tables, outcome⟩ := c
  cases outcome with
  | error e => exact ⟨hc.tables, fun _ => nofun⟩
  | ok x =>
    have hrest := hf x (hc.outcome x rfl)
    exact ⟨List.forall_mem_append.2 ⟨hc.tables, hrest.tables⟩, hrest.outcome⟩

theorem mapError {f : ε → ε'} (hc : c.Within limit Q) : (c.mapError f).Within limit Q :=
  ⟨hc.tables, fun x hx => hc.outcome x (mapError_eq_ok_iff.1 hx)⟩

theorem hold {mark : α → Table} {x : α} (hx : Q x) (hmark : (mark x).Fits limit) :
    (Watched.hold mark x : Watched ε α).Within limit Q := by
  constructor
  · intro table htable
    obtain rfl := List.mem_singleton.1 htable
    exact hmark
  · intro y hy
    cases hy
    exact hx

theorem note {mark : α → Table} (hc : c.Within limit Q) (hmark : ∀ x, Q x → (mark x).Fits limit) :
    (c.note mark).Within limit Q :=
  hc.bind fun x hx => .hold hx (hmark x hx)

/-- What every step of a loop keeps is kept by the loop. -/
theorem foldlM {P : σ → Prop} {step : σ → ι → Watched ε σ}
    (hstep : ∀ s i, P s → (step s i).Within limit P) (l : List ι) {start : σ} (hstart : P start) :
    (l.foldlM step start).Within limit P := by
  induction l generalizing start with
  | nil => exact .value hstart
  | cons i rest ih =>
    rw [List.foldlM_cons]
    exact (hstep start i hstart).bind fun s hs => ih hs

section Filling

variable [Ord α] {step : Tally α → ι → Except ε (Tally α)} {mark : Tally α → Table}

/-- A table with room for all entries that are still to come does not outgrow the limit. -/
theorem foldlM_of_room (hstep : ∀ t i s, step t i = .ok s → s.size ≤ t.size + 1)
    (hmark : ∀ t, t.size ≤ limit → (mark t).Fits limit) {entries : List ι} {t : Tally α}
    (hroom : t.size + entries.length ≤ limit) :
    (entries.foldlM (fun t i => (Watched.lift (step t i)).note mark) t).Within limit
      (·.size ≤ limit) := by
  induction entries generalizing t with
  | nil => exact .value (Nat.le_of_add_right_le hroom)
  | cons i rest ih =>
    rw [List.length_cons] at hroom
    rw [List.foldlM_cons]
    have hone : ((Watched.lift (step t i)).note mark).Within limit (·.size ≤ t.size + 1) :=
      (Within.lift (hstep t i)).note fun s hs => hmark s (by omega)
    exact hone.bind fun s hs => ih (by omega)

variable [Std.TransOrd α]

theorem fill (hstep : ∀ t i s, step t i = .ok s → s.size ≤ t.size + 1)
    (hmark : ∀ t, t.size ≤ limit → (mark t).Fits limit) {entries : List ι}
    (hentries : entries.length ≤ limit) :
    (fill mark step entries).Within limit (·.size ≤ limit) :=
  foldlM_of_room hstep hmark (by rwa [Std.ExtTreeMap.size_empty, Nat.zero_add])

end Filling

end Within

end Watched

/-- Moving the entries of a table about leaves it no larger. -/
theorem Tally.watchMap_within {α β : Type} [Ord β] [Std.TransOrd β] {making made : Tally β → Table}
    (hmaking : ∀ t, t.size ≤ limit → (making t).Fits limit)
    (hmade : ∀ t, t.size ≤ limit → (made t).Fits limit) {f : α → Except ArithmeticError β}
    {entries : List (α × Nat)} (hentries : entries.length ≤ limit) :
    (watchMap making made f entries).Within limit (·.size ≤ limit) :=
  .note (.fill (fun _ _ _ => size_le_of_addMoved) hmaking hentries) hmade

open Watched (Within)

theorem Visit.length_order (v : Visit) (stage : Nat) (hands : Hands) :
    (v.order stage hands).length = hands.size := by
  rw [(v.perm stage hands).length_eq, Std.ExtTreeMap.length_toList]

namespace Distribution

variable {die sum : Distribution}

theorem size_le_of_addPair {f : Int → Int → Except ArithmeticError Int} {left right : Int × Nat}
    {t s : Distribution} (h : addPair f left t right = .ok s) : s.size ≤ t.size + 1 := by
  unfold addPair at h
  split at h
  · cases h
  · split at h
    · cases h
    · exact Tally.size_le_of_add h

/-- There are no more outcomes than pairs, and these have been counted. -/
theorem watchCombine_within (f : Int → Int → Except ArithmeticError Int) (a b : Distribution) :
    (watchCombine limit f a b).Within limit (·.size ≤ limit) := by
  unfold watchCombine
  split
  · exact .failure _
  · next hpairs =>
    have hlength : (a.toList ×ˢ b.toList).length ≤ limit := by
      rw [List.length_product, Std.ExtTreeMap.length_toList, Std.ExtTreeMap.length_toList]
      exact Nat.le_of_not_lt hpairs
    exact (Within.fill (fun _ _ _ => size_le_of_addPair) (fun _ ht => ht) hlength).mapError

theorem watchAddDraws_within (n : Nat) (hsum : sum.size ≤ limit) :
    (watchAddDraws limit die n sum).Within limit (·.size ≤ limit) := by
  induction n generalizing sum with
  | zero => exact .value hsum
  | succ n ih =>
    exact ((watchCombine_within _ sum die).note fun _ ht => ht).bind fun _ hnext => ih hnext

theorem watchRepeatSum_within (count : DiceCount) (hdie : die.size ≤ limit) :
    (watchRepeatSum limit die count).Within limit (·.size ≤ limit) :=
  .bind (.hold hdie hdie) fun _ hsum => watchAddDraws_within _ hsum

theorem size_constant (x : Int) : (constant x).size = 1 := by
  rw [constant, Std.ExtTreeMap.size_insert]
  simp

theorem size_die_le (sides : Sides) : (Distribution.die sides).size ≤ sides.toNat := by
  have h := (die_counts sides).size_le
  rwa [sides.length_faces] at h

end Distribution

namespace Hands

variable {die : Distribution} {hands : Hands}

/-- The table has been noted by the time it is found to be too large. -/
theorem watchFace_within {t : Hands} (ht : t.size ≤ limit) (p : (List Int × Nat) × (Int × Nat)) :
    (watchFace limit t p).Within limit (·.size ≤ limit) := by
  have hgrown : ∀ s, (Tally.boundedCount (p.1.2 * p.2.2)).bind
      (t.add (insertFace p.2.1 p.1.1)) = .ok s → s.size ≤ limit + 1 := by
    intro s hs
    cases hcount : Tally.boundedCount (p.1.2 * p.2.2) with
    | error e =>
      rw [hcount] at hs
      cases hs
    | ok n =>
      rw [hcount] at hs
      have := Tally.size_le_of_add (n := n) hs
      omega
  refine Within.bind (.mapError (.note (.lift hgrown) fun _ hs => hs)) fun s _ => ?_
  split
  · exact .failure _
  · next hfits => exact .value (Nat.le_of_not_lt hfits)

theorem watchDie_within (entries : List (List Int × Nat)) :
    (watchDie limit die entries).Within limit (·.size ≤ limit) :=
  .foldlM (fun _ p ht => watchFace_within ht p) _ (by simp)

theorem watchDice_within (v : Visit) (stage n : Nat) (hhands : hands.size ≤ limit) :
    (watchDice v limit die stage n hands).Within limit (·.size ≤ limit) := by
  induction n generalizing stage hands with
  | zero => exact .value hhands
  | succ n ih =>
    exact ((watchDie_within _).note fun _ ht => ht).bind fun _ hnext => ih (stage + 1) hnext

theorem watchSelections_within (v : Visit) (stage : Nat) (selections : List Selection)
    (hhands : hands.size ≤ limit) :
    (watchSelections v stage selections hands).Within limit (·.size ≤ limit) := by
  induction selections generalizing stage hands with
  | nil => exact .value hhands
  | cons s rest ih =>
    have hentries : (v.order stage hands).length ≤ limit := by rwa [v.length_order]
    exact .bind (Tally.watchMap_within (fun _ ht => ht) (fun _ ht => ht) hentries)
      fun _ hnext => ih (stage + 1) hnext

theorem watchCount_within (v : Visit) (stage : Nat) (successes : Option Condition)
    (hhands : hands.size ≤ limit) :
    (watchCount v stage successes hands).Within limit (·.size ≤ limit) := by
  cases successes with
  | none => exact .value hhands
  | some condition =>
    have hentries : (v.order stage hands).length ≤ limit := by rwa [v.length_order]
    exact Tally.watchMap_within (fun _ ht => ht) (fun _ ht => ht) hentries

theorem size_noDice : noDice.size = 1 := by
  rw [noDice, Std.ExtTreeMap.size_insert]
  simp

end Hands

namespace DiceGroup

namespace Plan

variable {p : Plan}

theorem watchAdd_within (hface : p.face.size ≤ limit) (m : Modifier) :
    (p.watchAdd m).Within limit (·.face.size ≤ limit) := by
  cases m with
  | clamp c =>
    have hentries : p.face.toList.length ≤ limit := by rwa [Std.ExtTreeMap.length_toList]
    exact .bind (.mapError (Tally.watchMap_within (fun _ ht => ht) (fun _ ht => ht) hentries))
      fun _ hmoved => .value hmoved
  | select | countSuccesses => exact .value hface
  | reroll | explode => exact .failure _

theorem watchSums_within (count : DiceCount) (hface : p.face.size ≤ limit) :
    (p.watchSums limit count).Within limit (·.size ≤ limit) := by
  unfold watchSums
  split
  · exact Distribution.watchRepeatSum_within count hface
  · have hentries : p.face.toList.length ≤ limit := by rwa [Std.ExtTreeMap.length_toList]
    exact .bind (.mapError (Tally.watchMap_within (fun _ ht => ht) (fun _ ht => ht) hentries))
      fun _ hmoved => Distribution.watchRepeatSum_within count hmoved

theorem watchSettle_within (v : Visit) (stage : Nat) {hands : Hands} (hhands : hands.size ≤ limit) :
    (p.watchSettle v stage hands).Within limit (·.size ≤ limit) := by
  refine (Hands.watchSelections_within v stage _ hhands).bind fun selected hselected => ?_
  refine (Hands.watchCount_within v _ _ hselected).bind fun counted hcounted => ?_
  exact .fill (fun _ _ _ => Tally.size_le_of_addMoved) (fun _ ht => ht) (by rwa [v.length_order])

theorem watchHands_within (v : Visit) (count : Nat) (hroom : 1 ≤ limit) :
    (p.watchHands v limit count).Within limit (·.size ≤ limit) := by
  have hnone : Hands.noDice.size ≤ limit := by rwa [Hands.size_noDice]
  refine Within.bind (Q := (·.size ≤ limit)) (.hold hnone hnone) fun start hstart => ?_
  refine (Hands.watchDice_within v 0 count hstart).bind fun hands hhands => ?_
  exact (watchSettle_within v count hhands).mapError

theorem watch_within (v : Visit) (count : DiceCount) (hroom : 1 ≤ limit)
    (hface : p.face.size ≤ limit) : (p.watch v limit count).Within limit (·.size ≤ limit) := by
  unfold watch
  split
  · exact watchSums_within count hface
  · exact watchHands_within v count.toNat hroom

end Plan

theorem watch_within (v : Visit) (g : DiceGroup) {limits : Limits} (hroom : 1 ≤ limits.maxOutcomes) :
    (g.watch v limits).Within limits.maxOutcomes (·.size ≤ limits.maxOutcomes) := by
  unfold watch
  split
  · exact .failure _
  · split
    · exact .failure _
    · next hsides =>
      have hdie : (Distribution.die g.sides).size ≤ limits.maxOutcomes :=
        (Distribution.size_die_le g.sides).trans (Nat.le_of_not_lt hsides)
      refine Within.bind (Q := (·.size ≤ limits.maxOutcomes)) (.hold hdie hdie) fun die hface => ?_
      refine (Within.foldlM (P := (·.face.size ≤ limits.maxOutcomes))
        (fun p m hp => Plan.watchAdd_within hp m) g.modifiers hface).bind fun plan hplan => ?_
      exact Plan.watch_within v g.count hroom hplan

end DiceGroup

theorem Expr.watch_within {limits : Limits} (hroom : 1 ≤ limits.maxOutcomes) (e : Expr)
    (visits : Nat → Visit) :
    (e.watch limits visits).Within limits.maxOutcomes (·.size ≤ limits.maxOutcomes) := by
  induction e generalizing visits with
  | literal x =>
    have hone : (Distribution.constant x).size ≤ limits.maxOutcomes := by
      rwa [Distribution.size_constant]
    exact .hold hone hone
  | dice g => exact (g.watch_within (visits 0) hroom).note fun _ ht => ht
  | negate e ih =>
    refine (ih visits).bind fun operand hoperand => ?_
    have hentries : operand.toList.length ≤ limits.maxOutcomes := by
      rwa [Std.ExtTreeMap.length_toList]
    exact .mapError (Tally.watchMap_within (fun _ ht => ht) (fun _ ht => ht) hentries)
  | binary op l r ihl ihr =>
    refine (ihl visits).bind fun left _ => (ihr _).bind fun right _ => ?_
    exact (Distribution.watchCombine_within op.apply left right).note fun _ ht => ht

/-- Whatever the computation of a distribution comes to, and in whatever orders hands are gone through, no
table that it holds is larger than the limit on outcomes allows. -/
theorem tables_fit_maxOutcomes (text : String) (limits : Limits) (hroom : 1 ≤ limits.maxOutcomes) :
    (watchText (fun _ => .ascending) text limits).outcome = distributionOfText text limits ∧
      ∀ visits : Nat → Visit,
        (∀ d, (watchText visits text limits).outcome = .ok d ↔
          distributionOfText text limits = .ok d) ∧
        ∀ table ∈ (watchText visits text limits).tables, table.Fits limits.maxOutcomes := by
  refine ⟨outcome_watchText text limits, fun visits => ?_⟩
  refine ⟨outcome_watchText_eq_ok_iff text limits visits, ?_⟩
  unfold watchText
  cases Expr.parse text with
  | error e => exact fun _ => nofun
  | ok e => exact (Expr.watch_within hroom e visits).mapError.tables

/-- Two of the three dice have more hands than there is room for: their layer is given up at the sixth. -/
theorem threeDice_tables_fit :
    1 ≤ 5 ∧
      distributionOfText "3d4kh1" ⟨none, 100, 5⟩ = .error (.distribution (.tooManyOutcomes 5)) ∧
      (watchText (fun _ => .ascending) "3d4kh1" ⟨none, 100, 5⟩).tables.map Table.size =
        [4, 1, 1, 2, 3, 4, 4, 1, 2, 3, 4, 4, 5, 6] ∧
      ∀ visits : Nat → Visit, ∀ table ∈ (watchText visits "3d4kh1" ⟨none, 100, 5⟩).tables,
        table.Fits 5 := by
  have hroom : 1 ≤ 5 := by decide
  refine ⟨hroom, by decide +kernel, by decide +kernel, fun visits => ?_⟩
  exact ((tables_fit_maxOutcomes "3d4kh1" ⟨none, 100, 5⟩ hroom).2 visits).2

end DiceNotation
