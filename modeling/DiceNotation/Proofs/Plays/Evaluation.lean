import DiceNotation.Proofs.Plays.Capping
import DiceNotation.Proofs.Plays.Groups
import DiceNotation.Proofs.Rolls.Throws
import DiceNotation.RollResult

/-!
# The play of an expression

An expression is a play that rolls its groups one after another. The trace of a successful evaluation
falls into the traces of the groups, and their values are all that its value depends on.
-/

namespace DiceNotation

variable {ρ : Type} [Roller ρ]

namespace Play

/-- An operation on the value of a play, which rolls nothing. -/
def operate (f : Int → Except ArithmeticError Int) (e : Evaluated) : Play Evaluated :=
  match f e.value with
  | .error failure => .done e (some (.ofArithmetic failure))
  | .ok value => .done { e with value } none

theorem thrifty_operate (f : Int → Except ArithmeticError Int) (e : Evaluated) :
    (operate f e).Thrifty := by
  unfold operate
  split
  · trivial
  · trivial

theorem leads_operate (f : Int → Except ArithmeticError Int) (e : Evaluated) :
    (operate f e).Leads fun faces w => faces = [] ∧ w.trace = e.trace := by
  unfold operate
  split
  · intro h
    cases h
  · exact fun _ => ⟨rfl, rfl⟩

end Play

namespace Expr

/-- The evaluation of an expression is a play, whose trace is a log of the faces. -/
theorem exists_play (e : Expr) :
    ∃ t : Play Evaluated, (t.Leads fun faces v => v.trace.map Die.rolled = faces) ∧ t.Thrifty ∧
      ∀ (ρ : Type) [Roller ρ] (c : Context ρ), e.roll c = (t.run c).answer := by
  induction e with
  | literal x => exact ⟨.done ⟨x, []⟩ none, fun _ => rfl, trivial, fun _ _ _ => rfl⟩
  | dice g =>
    obtain ⟨t, hplay, hrun⟩ := g.exists_play
    refine ⟨.openGroup t, fun i => ?_, fun i => (hplay i).2.1, hrun⟩
    exact (hplay i).1.imp fun faces v h => h.log
  | negate e ih =>
    obtain ⟨t, hleads, hthrifty, hrun⟩ := ih
    let last := Play.operate DiceNotation.negate
    refine ⟨t.andThen id last, ?_, ?_, fun ρ _ c => ?_⟩
    · refine Play.leads_andThen hleads fun front operand hlog => ?_
      refine (Play.leads_operate DiceNotation.negate operand).imp fun faces w h => ?_
      rw [h.2, h.1, hlog, List.append_nil]
    · exact Play.thrifty_andThen hthrifty (Play.thrifty_operate DiceNotation.negate)
    · rw [roll, hrun, Play.run_andThen]
      generalize t.run c = r
      unfold Run.answer
      cases r.failure with
      | some e => rfl
      | none =>
        simp only [last, Play.operate]
        cases DiceNotation.negate r.value.value with
        | error e => rfl
        | ok v => rfl
  | binary op l r ihl ihr =>
    obtain ⟨t, htleads, htthrifty, htrun⟩ := ihl
    obtain ⟨u, huleads, huthrifty, hurun⟩ := ihr
    let last (left right : Evaluated) : Play Evaluated :=
      Play.operate (op.apply left.value) { right with trace := left.trace ++ right.trace }
    refine ⟨t.andThen id fun left => u.andThen id (last left), ?_, ?_, fun ρ _ c => ?_⟩
    · refine Play.leads_andThen htleads fun front left hleft => ?_
      refine Play.leads_andThen huleads fun back right hright => ?_
      refine (Play.leads_operate _ _).imp fun faces w h => ?_
      rw [h.2, h.1, List.map_append, hleft, hright, List.append_nil]
    · refine Play.thrifty_andThen htthrifty fun left => ?_
      exact Play.thrifty_andThen huthrifty fun right => Play.thrifty_operate _ _
    · rw [roll, htrun, Play.run_andThen]
      generalize t.run c = left
      unfold Run.answer
      cases left.failure with
      | some e => rfl
      | none =>
        simp only
        rw [hurun, Play.run_andThen]
        generalize u.run left.context = right
        unfold Run.answer
        cases right.failure with
        | some e => rfl
        | none =>
          simp only [last, Play.operate]
          cases op.apply left.value.value right.value.value with
          | error e => rfl
          | ok v => rfl

/-- Recording the roller does not disturb an evaluation. -/
theorem evaluate_unrecorded (e : Expr) (c : Context ρ) :
    e.evaluate c = ((e.evaluate c.recorded).1, (e.evaluate c.recorded).2.unrecorded) := by
  obtain ⟨t, -, -, hrun⟩ := e.exists_play
  let start : Context ρ := { c with rolls := 0, groups := 0 }
  have hrecorded : e.evaluate c.recorded = (t.run start.recorded).answer := hrun _ start.recorded
  have hplain : e.evaluate c = (t.run start.recorded.unrecorded).answer := hrun ρ start
  rw [hplain, hrecorded, Play.run_unrecorded]
  unfold Run.answer
  cases (t.run start.recorded).failure with
  | none => rfl
  | some e => rfl

end Expr

namespace DiceGroup

/-- Rolls groups one after another. -/
def rollAll : List DiceGroup → Context ρ → Except RollError (List Evaluated) × Context ρ
  | [], c => (.ok [], c)
  | g :: rest, c =>
    match g.roll c with
    | (.error e, c) => (.error e, c)
    | (.ok part, c) =>
      match rollAll rest c with
      | (.error e, c) => (.error e, c)
      | (.ok parts, c) => (.ok (part :: parts), c)

theorem rollAll_cons_eq_ok {g : DiceGroup} {rest : List DiceGroup} {c after : Context ρ}
    {parts : List Evaluated} (h : rollAll (g :: rest) c = (.ok parts, after)) :
    ∃ part middle tail, g.roll c = (.ok part, middle) ∧ rollAll rest middle = (.ok tail, after) ∧
      parts = part :: tail := by
  rw [rollAll] at h
  split at h
  · cases h
  · next part middle hpart =>
    split at h
    · cases h
    · next tail last htail =>
      cases h
      exact ⟨part, middle, tail, hpart, htail, rfl⟩

theorem rollAll_append {front back : List DiceGroup} {c middle after : Context ρ}
    {left right : List Evaluated} (hleft : rollAll front c = (.ok left, middle))
    (hright : rollAll back middle = (.ok right, after)) :
    rollAll (front ++ back) c = (.ok (left ++ right), after) := by
  induction front generalizing c left with
  | nil =>
    cases hleft
    exact hright
  | cons g rest ih =>
    obtain ⟨part, next, tail, hpart, htail, rfl⟩ := rollAll_cons_eq_ok hleft
    rw [List.cons_append, rollAll, hpart]
    simp only [ih htail, List.cons_append]

theorem rolled_of_roll {g : DiceGroup} {c after : Context ρ} {e : Evaluated}
    (h : g.roll c = (.ok e, after)) :
    (∃ faces, g.Rolled c.groups faces e) ∧ after.groups = c.groups + 1 := by
  obtain ⟨t, hplay, hrun⟩ := g.exists_play
  obtain ⟨hleads, -, hstays⟩ := hplay c.groups
  rw [hrun, Play.run] at h
  have hgroups := Play.run_groups hstays { c with groups := c.groups + 1 }
  have hvalue := hleads.value (c := { c with groups := c.groups + 1 })
  rw [Run.of_answer_eq_ok h] at hgroups hvalue
  exact ⟨⟨_, hvalue rfl⟩, hgroups⟩

/-- The groups have all been rolled, one after another, and the first one has the given index. -/
inductive AllRolled : Nat → List DiceGroup → List Evaluated → Prop
  | nil (index : Nat) : AllRolled index [] []
  | cons {index : Nat} {g : DiceGroup} {rest : List DiceGroup} {faces : List Int} {part : Evaluated}
      {parts : List Evaluated} : g.Rolled index faces part → AllRolled (index + 1) rest parts →
      AllRolled index (g :: rest) (part :: parts)

theorem allRolled_of_rollAll {groups : List DiceGroup} {c after : Context ρ}
    {parts : List Evaluated} (h : rollAll groups c = (.ok parts, after)) :
    AllRolled c.groups groups parts := by
  induction groups generalizing c parts with
  | nil =>
    cases h
    exact .nil _
  | cons g rest ih =>
    obtain ⟨part, next, tail, hpart, htail, rfl⟩ := rollAll_cons_eq_ok h
    obtain ⟨⟨faces, hrolled⟩, hnext⟩ := rolled_of_roll hpart
    have hrest := ih htail
    rw [hnext] at hrest
    exact .cons hrolled hrest

end DiceGroup

namespace Expr

theorem length_groups (e : Expr) : e.groups.length = e.diceGroups := by
  induction e with
  | literal x => rfl
  | dice g => rfl
  | negate e ih => exact ih
  | binary op l r ihl ihr => rw [groups, List.length_append, ihl, ihr, diceGroups]

/-- The parts make up the evaluated expression: the trace is theirs, and the value is the one that the
expression has when each group is worth the value of its part. -/
structure MadeOf (e : Expr) (v : Evaluated) (parts : List Evaluated) : Prop where
  trace : v.trace = parts.flatMap Evaluated.trace
  refold : ∀ (records : List GroupRolls) (next : Nat),
    (∀ i part, parts[i]? = some part →
      (GroupRolls.find? records (next + i)).map GroupRolls.subtotal = some part.value) →
    GroupRolls.refoldFrom records e next = .ok (v.value, next + parts.length)

theorem roll_negate_eq_ok {e : Expr} {c after : Context ρ} {v : Evaluated}
    (h : (negate e).roll c = (.ok v, after)) :
    ∃ operand, e.roll c = (.ok operand, after) ∧
      DiceNotation.negate operand.value = .ok v.value ∧ v.trace = operand.trace := by
  rw [roll] at h
  split at h
  · cases h
  · next operand last hoperand =>
    split at h
    · cases h
    · next value hvalue =>
      cases h
      exact ⟨operand, hoperand, hvalue, rfl⟩

theorem roll_binary_eq_ok {op : BinaryOp} {l r : Expr} {c after : Context ρ} {v : Evaluated}
    (h : (binary op l r).roll c = (.ok v, after)) :
    ∃ left middle right, l.roll c = (.ok left, middle) ∧ r.roll middle = (.ok right, after) ∧
      op.apply left.value right.value = .ok v.value ∧ v.trace = left.trace ++ right.trace := by
  rw [roll] at h
  split at h
  · cases h
  · next left middle hleft =>
    split at h
    · cases h
    · next right last hright =>
      split at h
      · cases h
      · next value hvalue =>
        cases h
        exact ⟨left, middle, right, hleft, hright, hvalue, rfl⟩

theorem MadeOf.binary {op : BinaryOp} {l r : Expr} {v left right : Evaluated}
    {front back : List Evaluated} (hleft : l.MadeOf left front) (hright : r.MadeOf right back)
    (hvalue : op.apply left.value right.value = .ok v.value)
    (htrace : v.trace = left.trace ++ right.trace) :
    (Expr.binary op l r).MadeOf v (front ++ back) := by
  refine ⟨?_, fun records next hrecords => ?_⟩
  · rw [htrace, hleft.trace, hright.trace, List.flatMap_append]
  · have hfronts : ∀ i part, front[i]? = some part →
        (GroupRolls.find? records (next + i)).map GroupRolls.subtotal = some part.value := by
      intro i part hpart
      obtain ⟨hi, -⟩ := List.getElem?_eq_some_iff.1 hpart
      exact hrecords i part (by rw [List.getElem?_append_left hi, hpart])
    have hbacks : ∀ i part, back[i]? = some part →
        (GroupRolls.find? records (next + front.length + i)).map GroupRolls.subtotal =
          some part.value := by
      intro i part hpart
      rw [Nat.add_assoc]
      refine hrecords (front.length + i) part ?_
      rw [List.getElem?_append_right (by omega), Nat.add_sub_cancel_left, hpart]
    rw [GroupRolls.refoldFrom, hleft.refold records next hfronts]
    simp only [hright.refold records (next + front.length) hbacks, hvalue]
    rw [List.length_append, Nat.add_assoc]

/-- To evaluate an expression is to roll its groups and to put their values together. -/
theorem exists_parts {e : Expr} {c after : Context ρ} {v : Evaluated}
    (h : e.roll c = (.ok v, after)) :
    ∃ parts, DiceGroup.rollAll e.groups c = (.ok parts, after) ∧ e.MadeOf v parts := by
  induction e generalizing c after v with
  | literal x =>
    cases h
    exact ⟨[], rfl, rfl, fun _ _ _ => rfl⟩
  | dice g =>
    have hg : g.roll c = (.ok v, after) := h
    refine ⟨[v], ?_, (List.append_nil _).symm, fun records next hrecords => ?_⟩
    · rw [groups, DiceGroup.rollAll, hg]
      rfl
    · have hrecord := hrecords 0 v rfl
      rw [Nat.add_zero, Option.map_eq_some_iff] at hrecord
      obtain ⟨r, hfind, hsubtotal⟩ := hrecord
      rw [GroupRolls.refoldFrom, hfind]
      simp only [hsubtotal, List.length_singleton]
  | negate e ih =>
    obtain ⟨operand, hoperand, hvalue, htrace⟩ := roll_negate_eq_ok h
    obtain ⟨parts, hrolled, hmade⟩ := ih hoperand
    refine ⟨parts, hrolled, htrace.trans hmade.trace, fun records next hrecords => ?_⟩
    rw [GroupRolls.refoldFrom, hmade.refold records next hrecords]
    simp only [hvalue]
  | binary op l r ihl ihr =>
    obtain ⟨left, middle, right, hl, hr, hvalue, htrace⟩ := roll_binary_eq_ok h
    obtain ⟨front, hfront, hleft⟩ := ihl hl
    obtain ⟨back, hback, hright⟩ := ihr hr
    exact ⟨front ++ back, DiceGroup.rollAll_append hfront hback, hleft.binary hright hvalue htrace⟩

end Expr

end DiceNotation
