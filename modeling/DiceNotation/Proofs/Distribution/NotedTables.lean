import DiceNotation.Proofs.Distribution.Plans
import DiceNotation.Proofs.Distribution.Watching

/-!
# Noted tables

What the watched computation of a distribution notes: a die after any number of its modifiers, the sums of the
first dice, every layer of hands, in the making and completed, what each selection leaves of the last one, what
is counted of that, and the values of all parts of an expression that are reached. Each of these tables is what
the computation comes to on its way, and is noted whatever becomes of the rest.
-/

namespace DiceNotation

variable {table : Table}

namespace Watched

variable {ε ε' α β σ ι : Type} {c : Watched ε α}

theorem mem_bind_left (h : table ∈ c.tables) (f : α → Watched ε β) : table ∈ (c >>= f).tables := by
  obtain ⟨tables, outcome⟩ := c
  cases outcome with
  | error e => exact h
  | ok x => exact List.mem_append_left _ h

theorem mem_bind_right {f : α → Watched ε β} {x : α} (hx : c.outcome = .ok x)
    (h : table ∈ (f x).tables) : table ∈ (c >>= f).tables := by
  obtain ⟨tables, outcome⟩ := c
  obtain rfl : outcome = .ok x := hx
  exact List.mem_append_right tables h

theorem mem_note {mark : α → Table} {x : α} (hx : c.outcome = .ok x) : mark x ∈ (c.note mark).tables :=
  mem_bind_right hx (List.mem_singleton_self _)

theorem mem_mapError (h : table ∈ c.tables) (f : ε → ε') : table ∈ (c.mapError f).tables := h

/-- What a step of a loop notes is noted by the loop, if the steps in front of it succeed. -/
theorem mem_foldlM {step : σ → ι → Watched ε σ} {front : List ι} {i : ι} {start s : σ}
    (hfront : front.foldlM (fun s i => (step s i).outcome) start = .ok s)
    (h : table ∈ (step s i).tables) (rest : List ι) :
    table ∈ ((front ++ i :: rest).foldlM step start).tables := by
  induction front generalizing start with
  | nil =>
    cases hfront
    exact mem_bind_left h _
  | cons j front ih =>
    obtain ⟨next, hnext, hrest⟩ := exists_of_foldlM_cons_eq_ok hfront
    exact mem_bind_right hnext (ih hrest)

end Watched

open Watched (mem_bind_left mem_bind_right mem_foldlM mem_mapError mem_note)

theorem Tally.made_mem_watchMap {α β : Type} [Ord β] [Std.TransOrd β] {making made : Tally β → Table}
    {f : α → Except ArithmeticError β} {entries : List (α × Nat)} {t : Tally β}
    (h : entries.foldlM (addMoved f) ∅ = .ok t) : made t ∈ (watchMap making made f entries).tables :=
  mem_note (by rwa [Watched.outcome_fill])

namespace Distribution

variable {limit : Nat} {die sum next : Distribution}

theorem addDraws_succ (limit : Nat) (die : Distribution) (n : Nat) (sum : Distribution) :
    addDraws limit die (n + 1) sum =
      (combine limit BinaryOp.add.apply sum die).bind (addDraws limit die n) := by
  rw [addDraws]
  cases combine limit BinaryOp.add.apply sum die with
  | error e => rfl
  | ok next => rfl

theorem sum_mem_watchAddDraws {k n : Nat} (hk : k < n)
    (h : addDraws limit die (k + 1) sum = .ok next) :
    Table.sum next ∈ (watchAddDraws limit die n sum).tables := by
  induction n generalizing k sum with
  | zero => omega
  | succ n ih =>
    rw [addDraws_succ] at h
    obtain ⟨first, hfirst, hrest⟩ := exists_of_bind_eq_ok h
    have hwatched : (watchCombine limit BinaryOp.add.apply sum die).outcome = .ok first := by
      rwa [outcome_watchCombine]
    cases k with
    | zero =>
      cases hrest
      exact mem_bind_left (mem_note hwatched) _
    | succ k => exact mem_bind_right ((Watched.outcome_note ..).trans hwatched) (ih (by omega) hrest)

/-- The sums of the first dice, up to all of them. -/
theorem sum_mem_watchRepeatSum {k count : DiceCount} (hk : k.toNat ≤ count.toNat)
    (h : repeatSum limit die k = .ok sum) : Table.sum sum ∈ (watchRepeatSum limit die count).tables := by
  have hpos := k.pos
  rw [repeatSum] at h
  cases hj : k.toNat - 1 with
  | zero =>
    rw [hj] at h
    cases h
    exact mem_bind_left (List.mem_singleton_self _) _
  | succ j =>
    rw [hj] at h
    exact mem_bind_right (x := die) rfl (sum_mem_watchAddDraws (by omega) h)

end Distribution

namespace Hands

variable {v : Visit} {limit stage : Nat} {die : Distribution} {hands next : Hands}

/-- A layer in the making is noted after each face of each hand, also when it has become too large. -/
theorem unfinishedLayer_mem_watchDie {entries : List (List Int × Nat)}
    {front rest : List ((List Int × Nat) × (Int × Nat))} {p : (List Int × Nat) × (Int × Nat)}
    (hentries : entries ×ˢ die.toList = front ++ p :: rest) {t : Hands}
    (hfront : front.foldlM (fun t p => addFace limit p.1.1 p.1.2 t p.2) ∅ = .ok t)
    (hadd : (Tally.boundedCount (p.1.2 * p.2.2)).bind (t.add (insertFace p.2.1 p.1.1)) = .ok next) :
    Table.unfinishedLayer next ∈ (watchDie limit die entries).tables := by
  rw [watchDie, hentries]
  refine mem_foldlM (s := t) (by simpa only [outcome_watchFace] using hfront) ?_ rest
  exact mem_bind_left (mem_mapError (mem_note hadd) _) _

/-- What is noted for one more die is noted by all that roll it. -/
theorem mem_watchDice {k n : Nat} (hk : k < n) (h : addDiceIn v limit die stage k hands = .ok next)
    (hmem : table ∈ ((watchDie limit die (v.order (stage + k) next)).note Table.layer).tables) :
    table ∈ (watchDice v limit die stage n hands).tables := by
  induction n generalizing k stage hands with
  | zero => omega
  | succ n ih =>
    cases k with
    | zero =>
      cases h
      exact mem_bind_left hmem _
    | succ k =>
      rw [addDiceIn_succ] at h
      obtain ⟨first, hfirst, hrest⟩ := exists_of_bind_eq_ok h
      refine mem_bind_right (x := first) (by rwa [Watched.outcome_note, outcome_watchDie]) ?_
      refine ih (by omega) hrest ?_
      rwa [Nat.add_right_comm]

theorem addDiceIn_succ_last (v : Visit) (limit : Nat) (die : Distribution) (stage n : Nat)
    (hands : Hands) :
    addDiceIn v limit die stage (n + 1) hands = (addDiceIn v limit die stage n hands).bind fun next =>
      addDieTo limit die (v.order (stage + n) next) := by
  induction n generalizing stage hands with
  | zero =>
    rw [addDiceIn_succ]
    exact bind_pure _
  | succ n ih =>
    rw [addDiceIn_succ, addDiceIn_succ v limit die stage n]
    cases addDieTo limit die (v.order stage hands) with
    | error e => rfl
    | ok first =>
      have hrest := ih (stage + 1) first
      rwa [Nat.add_right_comm] at hrest

theorem layer_mem_watchDice {k n : Nat} (hk : k < n)
    (h : addDiceIn v limit die stage (k + 1) hands = .ok next) :
    Table.layer next ∈ (watchDice v limit die stage n hands).tables := by
  rw [addDiceIn_succ_last] at h
  obtain ⟨last, hlast, hadd⟩ := exists_of_bind_eq_ok h
  exact mem_watchDice hk hlast (mem_note (by rwa [outcome_watchDie]))

/-- What each selection leaves of the hands. -/
theorem selected_mem_watchSelections {front rest : List Selection} {s : Selection}
    (h : selectAllIn v stage (front ++ [s]) hands = .ok next) :
    Table.selected next ∈ (watchSelections v stage (front ++ s :: rest) hands).tables := by
  induction front generalizing stage hands with
  | nil =>
    obtain ⟨first, hfirst, hnext⟩ := exists_of_bind_eq_ok h
    cases hnext
    exact mem_bind_left (Tally.made_mem_watchMap hfirst) _
  | cons s' front ih =>
    obtain ⟨first, hfirst, hrest⟩ := exists_of_bind_eq_ok h
    exact mem_bind_right ((Tally.outcome_watchMap ..).trans hfirst) (ih hrest)

theorem counted_mem_watchCount {condition : Condition}
    (h : countIn v stage (some condition) hands = .ok next) :
    Table.counted next ∈ (watchCount v stage (some condition) hands).tables :=
  Tally.made_mem_watchMap h

end Hands

namespace DiceGroup

namespace Plan

variable {v : Visit} {limit : Nat} {p q : Plan} {hands selected counted : Hands}

/-- A modifier leaves the die as it is, or notes what it makes of it. -/
theorem face_mem_watchAdd {m : Modifier} (h : p.add m = .ok q) :
    q.face = p.face ∨ Table.face q.face ∈ (p.watchAdd m).tables := by
  cases m with
  | clamp c =>
    rw [add] at h
    split at h
    · cases h
    · next hface =>
      cases h
      exact .inr (mem_bind_left (mem_mapError (Tally.made_mem_watchMap hface) _) _)
  | select | countSuccesses =>
    cases h
    exact .inl rfl
  | reroll | explode => cases h

theorem face_mem_foldlM_watchAdd {front : List Modifier} (h : front.foldlM add p = .ok q)
    (rest : List Modifier) :
    q.face = p.face ∨ Table.face q.face ∈ ((front ++ rest).foldlM watchAdd p).tables := by
  induction front generalizing p with
  | nil =>
    cases h
    exact .inl rfl
  | cons m front ih =>
    obtain ⟨first, hfirst, hrest⟩ := exists_of_foldlM_cons_eq_ok h
    rw [List.cons_append, List.foldlM_cons]
    rcases ih hrest with hface | hmem
    · rw [hface]
      exact (face_mem_watchAdd hfirst).imp_right fun hmem => mem_bind_left hmem _
    · exact .inr (mem_bind_right ((p.outcome_watchAdd m).trans hfirst) hmem)

/-- A plan without selections that counts successes notes those of one die. -/
theorem success_mem_watch (hselections : p.selections = []) {condition : Condition}
    (hsuccesses : p.successes = some condition) (count : DiceCount) {face : Distribution}
    (h : Tally.mapM (fun x => .ok (successFace condition x)) p.face = .ok face) :
    Table.face face ∈ (p.watch v limit count).tables := by
  obtain ⟨die, selections, successes⟩ := p
  cases hselections
  cases hsuccesses
  exact mem_bind_left (mem_mapError (Tally.made_mem_watchMap h) _) _

/-- A plan without selections notes the distributions of its first dice. -/
theorem sum_mem_watch (hselections : p.selections = []) {k count : DiceCount} (hk : k.toNat ≤ count.toNat)
    {sum : Distribution} (h : p.distribution limit k = .ok sum) :
    Table.sum sum ∈ (p.watch v limit count).tables := by
  obtain ⟨face, selections, successes⟩ := p
  cases hselections
  cases successes with
  | none => exact Distribution.sum_mem_watchRepeatSum hk h
  | some condition =>
    obtain ⟨moved, hmoved, hsum⟩ := exists_of_bind_eq_ok h
    refine mem_bind_right (x := moved) ?_ (Distribution.sum_mem_watchRepeatSum hk hsum)
    rwa [Watched.outcome_mapError, Tally.outcome_watchMap]

section Selecting

variable {front rest : List Selection} {s : Selection} {count : DiceCount}

theorem watch_of_selections (hselections : p.selections ≠ []) (v : Visit) (limit : Nat)
    (count : DiceCount) : p.watch v limit count = p.watchHands v limit count.toNat := by
  unfold watch
  split
  · contradiction
  · rfl

/-- A plan with selections notes the layers of its first dice, also that of no dice. -/
theorem layer_mem_watch (hselections : p.selections ≠ []) {k : Nat} (hk : k ≤ count.toNat)
    (h : Hands.addDiceIn v limit p.face 0 k Hands.noDice = .ok hands) :
    Table.layer hands ∈ (p.watch v limit count).tables := by
  rw [watch_of_selections hselections]
  cases k with
  | zero =>
    cases h
    exact mem_bind_left (List.mem_singleton_self _) _
  | succ k =>
    exact mem_bind_right (x := Hands.noDice) rfl (mem_bind_left (Hands.layer_mem_watchDice hk h) _)

/-- What is noted while one more die is added to a layer. -/
theorem mem_watch_of_watchDie (hselections : p.selections ≠ []) {k : Nat} (hk : k < count.toNat)
    (h : Hands.addDiceIn v limit p.face 0 k Hands.noDice = .ok hands)
    (hmem : table ∈ (Hands.watchDie limit p.face (v.order k hands)).tables) :
    table ∈ (p.watch v limit count).tables := by
  rw [watch_of_selections hselections]
  refine mem_bind_right (x := Hands.noDice) rfl (mem_bind_left (Hands.mem_watchDice hk h ?_) _)
  rw [Nat.zero_add]
  exact mem_bind_left hmem _

theorem mem_watch_of_settle (hselections : p.selections ≠ [])
    (h : Hands.addDiceIn v limit p.face 0 count.toNat Hands.noDice = .ok hands)
    (hmem : table ∈ (p.watchSettle v count.toNat hands).tables) :
    table ∈ (p.watch v limit count).tables := by
  rw [watch_of_selections hselections]
  refine mem_bind_right (x := Hands.noDice) rfl ?_
  exact mem_bind_right ((Hands.outcome_watchDice ..).trans h) (mem_mapError hmem _)

theorem selected_mem_watch (hselections : p.selections = front ++ s :: rest)
    (h : Hands.addDiceIn v limit p.face 0 count.toNat Hands.noDice = .ok hands)
    (hselected : Hands.selectAllIn v count.toNat (front ++ [s]) hands = .ok selected) :
    Table.selected selected ∈ (p.watch v limit count).tables := by
  refine mem_watch_of_settle (by simp [hselections]) h (mem_bind_left ?_ _)
  rw [hselections]
  exact Hands.selected_mem_watchSelections hselected

theorem counted_mem_watch (hselections : p.selections ≠ []) {condition : Condition}
    (hsuccesses : p.successes = some condition)
    (h : Hands.addDiceIn v limit p.face 0 count.toNat Hands.noDice = .ok hands)
    (hselected : Hands.selectAllIn v count.toNat p.selections hands = .ok selected)
    (hcounted : Hands.countIn v (count.toNat + p.selections.length) p.successes selected =
      .ok counted) :
    Table.counted counted ∈ (p.watch v limit count).tables := by
  refine mem_watch_of_settle hselections h ?_
  refine mem_bind_right ((Hands.outcome_watchSelections ..).trans hselected) (mem_bind_left ?_ _)
  rw [hsuccesses] at hcounted ⊢
  exact Hands.counted_mem_watchCount hcounted

end Selecting

end Plan

section Admitted

variable {v : Visit} {limits : Limits} {g : DiceGroup} {p : Plan}
  (hcap : limits.maxRolls.filter (· < g.count.toNat) = none)
  (hsides : g.sides.toNat ≤ limits.maxOutcomes)

include hcap hsides

theorem watch_of_admitted (v : Visit) : g.watch v limits =
    Watched.hold Table.face (Distribution.die g.sides) >>= fun die =>
      g.modifiers.foldlM Plan.watchAdd ⟨die, [], none⟩ >>= fun plan =>
        plan.watch v limits.maxOutcomes g.count := by
  unfold watch
  rw [hcap]
  exact if_neg (Nat.not_lt_of_le hsides)

/-- The die of a group after the first modifiers, up to all of them. -/
theorem face_mem_watch {front rest : List Modifier} (hmodifiers : g.modifiers = front ++ rest)
    (h : front.foldlM Plan.add ⟨.die g.sides, [], none⟩ = .ok p) :
    Table.face p.face ∈ (g.watch v limits).tables := by
  rw [watch_of_admitted hcap hsides, hmodifiers]
  rcases Plan.face_mem_foldlM_watchAdd h rest with hface | hmem
  · rw [hface]
    exact mem_bind_left (List.mem_singleton_self _) _
  · exact mem_bind_right (x := Distribution.die g.sides) rfl (mem_bind_left hmem _)

theorem mem_watch_of_plan (h : g.modifiers.foldlM Plan.add ⟨.die g.sides, [], none⟩ = .ok p)
    (hmem : table ∈ (p.watch v limits.maxOutcomes g.count).tables) :
    table ∈ (g.watch v limits).tables := by
  rw [watch_of_admitted hcap hsides]
  refine mem_bind_right (x := Distribution.die g.sides) rfl (mem_bind_right (x := p) ?_ hmem)
  simpa only [Watched.outcome_foldlM, Plan.outcome_watchAdd] using h

end Admitted

end DiceGroup

namespace Expr

/-- The part is reached in the computation of the expression's distribution, and stands behind so many of its
groups. What is on the right of an operator is reached only if what is on the left has a distribution. -/
inductive ReachedIn (limits : Limits) (part : Expr) : Expr → Nat → Prop
  | here : ReachedIn limits part part 0
  | operand {e : Expr} {n : Nat} : ReachedIn limits part e n → ReachedIn limits part (negate e) n
  | left {op : BinaryOp} {l r : Expr} {n : Nat} : ReachedIn limits part l n →
      ReachedIn limits part (binary op l r) n
  | right {op : BinaryOp} {l r : Expr} {n : Nat} {d : Distribution} : l.distribution limits = .ok d →
      ReachedIn limits part r n → ReachedIn limits part (binary op l r) (l.diceGroups + n)

variable {limits : Limits} {e part : Expr} {n : Nat} {d : Distribution}

/-- What a part notes that is reached is noted by the whole. -/
theorem mem_watch_of_reachedIn (h : ReachedIn limits part e n) {visits : Nat → Visit}
    (hmem : table ∈ (part.watch limits fun i => visits (n + i)).tables) :
    table ∈ (e.watch limits visits).tables := by
  induction h generalizing visits with
  | here => simpa only [Nat.zero_add] using hmem
  | operand _ ih => exact mem_bind_left (ih hmem) _
  | left _ ih => exact mem_bind_left (ih hmem) _
  | @right op l r n d hl _ ih =>
    have hleft : (l.watch limits visits).outcome = .ok d :=
      ((l.outcome_watch_agrees limits visits).ok_iff d).2 hl
    refine mem_bind_right hleft (mem_bind_left (ih ?_) _)
    simpa only [Nat.add_assoc] using hmem

theorem mem_watch_of_group {g : DiceGroup} (h : ReachedIn limits (dice g) e n) {visits : Nat → Visit}
    (hmem : table ∈ (g.watch (visits n) limits).tables) : table ∈ (e.watch limits visits).tables :=
  mem_watch_of_reachedIn h (mem_bind_left hmem _)

theorem value_mem_watch_self {visits : Nat → Visit} (h : (e.watch limits visits).outcome = .ok d) :
    Table.value d ∈ (e.watch limits visits).tables := by
  cases e with
  | literal x =>
    cases h
    exact List.mem_singleton_self _
  | dice g =>
    rw [watch, Watched.outcome_note] at h
    exact mem_note h
  | negate e =>
    rw [watch, Watched.outcome_bind] at h
    obtain ⟨operand, hoperand, hd⟩ := exists_of_bind_eq_ok h
    rw [Watched.outcome_mapError, mapError_eq_ok_iff, Tally.outcome_watchMap] at hd
    exact mem_bind_right hoperand (mem_mapError (Tally.made_mem_watchMap hd) _)
  | binary op l r =>
    rw [watch, Watched.outcome_bind] at h
    obtain ⟨left, hleft, hrest⟩ := exists_of_bind_eq_ok h
    rw [Watched.outcome_bind] at hrest
    obtain ⟨right, hright, hd⟩ := exists_of_bind_eq_ok hrest
    rw [Watched.outcome_note] at hd
    exact mem_bind_right hleft (mem_bind_right hright (mem_note hd))

/-- The values of a part that is reached. -/
theorem value_mem_watch (h : ReachedIn limits part e n) (hd : part.distribution limits = .ok d)
    (visits : Nat → Visit) : Table.value d ∈ (e.watch limits visits).tables :=
  mem_watch_of_reachedIn h <| value_mem_watch_self <|
    ((part.outcome_watch_agrees limits _).ok_iff d).2 hd

end Expr

theorem mem_watchText {text : String} {limits : Limits} {visits : Nat → Visit} {e : Expr}
    (h : Expr.parse text = .ok e) (hmem : table ∈ (e.watch limits visits).tables) :
    table ∈ (watchText visits text limits).tables := by
  unfold watchText
  rw [h]
  exact mem_mapError hmem _

end DiceNotation
