import DiceNotation.Proofs.Plays.Evaluation

/-!
# Exact arithmetic or an error

An expression is worked out over the unbounded integers, with each group replaced by what it is worth, and
the nodes are gone through in the order in which they are evaluated. The evaluation comes to the exact value
if no node offends, and else fails as the first offending node says. Groups behind that node are not rolled,
so that it does not matter what they are taken to be worth.
-/

namespace DiceNotation

variable {ρ : Type}

namespace Expr

/-- The value over the unbounded integers, when the first group has the index `next` and the group with the
index `i` is worth `worth i`. -/
def exactFrom (worth : Nat → Int) : Expr → Nat → Int
  | literal x, _ => x
  | dice _, next => worth next
  | negate e, next => -e.exactFrom worth next
  | binary op l r, next =>
    op.exact (l.exactFrom worth next) (r.exactFrom worth (next + l.diceGroups))

/-- Every node with the index of its first group, operands before what is done with them and left ones before
right ones. -/
def postorder : Expr → Nat → List (Expr × Nat)
  | literal x, next => [(literal x, next)]
  | dice g, next => [(dice g, next)]
  | negate e, next => e.postorder next ++ [(negate e, next)]
  | binary op l r, next =>
    l.postorder next ++ r.postorder (next + l.diceGroups) ++ [(binary op l r, next)]

/-- What is wrong with a node whose operands have their exact values: its divisor is zero, or its own exact
value is out of range. -/
def offence? (worth : Nat → Int) : Expr × Nat → Option ArithmeticError
  | (literal _, _) | (dice _, _) => none
  | (negate e, next) =>
    if InRange ((negate e).exactFrom worth next) then none else some .overflow
  | (binary op l r, next) =>
    if op = .div ∧ r.exactFrom worth (next + l.diceGroups) = 0 then some .divisionByZero
    else if InRange ((binary op l r).exactFrom worth next) then none else some .overflow

/-- The offence of the first node that offends. -/
def firstOffence? (worth : Nat → Int) (e : Expr) (next : Nat) : Option ArithmeticError :=
  (e.postorder next).findSome? (offence? worth)

section Offences

variable {worth : Nat → Int} {next : Nat}

theorem firstOffence?_negate (e : Expr) :
    (negate e).firstOffence? worth next =
      (e.firstOffence? worth next).or (offence? worth (negate e, next)) := by
  rw [firstOffence?, postorder, List.findSome?_append, List.findSome?_singleton]
  rfl

theorem firstOffence?_binary (op : BinaryOp) (l r : Expr) :
    (binary op l r).firstOffence? worth next =
      ((l.firstOffence? worth next).or (r.firstOffence? worth (next + l.diceGroups))).or
        (offence? worth (binary op l r, next)) := by
  rw [firstOffence?, postorder, List.findSome?_append, List.findSome?_append,
    List.findSome?_singleton]
  rfl

/-- A node without an offence is worth its exact value. -/
theorem negate_exactFrom (e : Expr) :
    DiceNotation.negate (e.exactFrom worth next) =
      (offence? worth (negate e, next)).elim (.ok ((negate e).exactFrom worth next)) .error := by
  have hchecked : DiceNotation.negate (e.exactFrom worth next) =
      checked ((negate e).exactFrom worth next) := rfl
  rw [hchecked, checked, offence?]
  by_cases hrange : InRange ((negate e).exactFrom worth next)
  · rw [if_pos hrange, if_pos hrange]
    rfl
  · rw [if_neg hrange, if_neg hrange]
    rfl

theorem apply_exactFrom (op : BinaryOp) (l r : Expr) :
    op.apply (l.exactFrom worth next) (r.exactFrom worth (next + l.diceGroups)) =
      (offence? worth (binary op l r, next)).elim (.ok ((binary op l r).exactFrom worth next))
        .error := by
  have hexact : op.exact (l.exactFrom worth next) (r.exactFrom worth (next + l.diceGroups)) =
      (binary op l r).exactFrom worth next := rfl
  rw [BinaryOp.apply, hexact, checked, offence?]
  by_cases hzero : op = .div ∧ r.exactFrom worth (next + l.diceGroups) = 0
  · rw [if_pos hzero, if_pos hzero]
    rfl
  · rw [if_neg hzero, if_neg hzero]
    by_cases hrange : InRange ((binary op l r).exactFrom worth next)
    · rw [if_pos hrange, if_pos hrange]
      rfl
    · rw [if_neg hrange, if_neg hrange]
      rfl

end Offences

end Expr

variable [Roller ρ]

namespace DiceGroup

theorem rollAll_counts {groups : List DiceGroup} {c after : Context ρ} {parts : List Evaluated}
    (h : rollAll groups c = (.ok parts, after)) :
    parts.length = groups.length ∧ after.groups = c.groups + groups.length := by
  induction groups generalizing c parts with
  | nil =>
    cases h
    exact ⟨rfl, rfl⟩
  | cons g rest ih =>
    obtain ⟨part, middle, tail, hpart, htail, rfl⟩ := rollAll_cons_eq_ok h
    obtain ⟨hlength, hgroups⟩ := ih htail
    obtain ⟨-, hnext⟩ := rolled_of_roll hpart
    simp only [List.length_cons]
    omega

/-- A group takes its index whether or not it then comes to a value. -/
theorem roll_groups (g : DiceGroup) (c : Context ρ) : (g.roll c).2.groups = c.groups + 1 := by
  obtain ⟨t, hplay, hrun⟩ := g.exists_play
  obtain ⟨-, -, hstays⟩ := hplay c.groups
  rw [hrun, Run.answer_snd, Play.run]
  exact Play.run_groups hstays { c with groups := c.groups + 1 }

/-- A group that fails behind those that have been rolled. -/
theorem rollAll_concat {front : List DiceGroup} {g : DiceGroup} {c middle after : Context ρ}
    {parts : List Evaluated} {e : RollError} (hfront : rollAll front c = (.ok parts, middle))
    (hfailed : g.roll middle = (.error e, after)) :
    rollAll (front ++ [g]) c = (.error e, after) := by
  induction front generalizing c parts with
  | nil =>
    cases hfront
    rw [List.nil_append, rollAll, hfailed]
  | cons first rest ih =>
    obtain ⟨part, next, tail, hpart, htail, rfl⟩ := rollAll_cons_eq_ok hfront
    rw [List.cons_append, rollAll, hpart]
    simp only [ih htail]

end DiceGroup

namespace Expr

/-- The groups from `next` on are worth what the parts come to. -/
def Agrees (worth : Nat → Int) (next : Nat) (parts : List Evaluated) : Prop :=
  ∀ i part, parts[i]? = some part → worth (next + i) = part.value

/-- How an evaluation ends, and the parts that the groups rolled on the way come to. -/
inductive Ends (e : Expr) (c : Context ρ) :
    List Evaluated → Except RollError Evaluated × Context ρ → Prop
  /-- Every group has been rolled and no node offends. -/
  | settled {parts : List Evaluated} {v : Evaluated} {after : Context ρ} :
    DiceGroup.rollAll e.groups c = (.ok parts, after) →
    (∀ worth, Agrees worth c.groups parts → e.firstOffence? worth c.groups = none ∧
      e.exactFrom worth c.groups = v.value) → Ends e c parts (.ok v, after)
  /-- The groups in front of an offending node have been rolled. -/
  | offended {front back : List DiceGroup} {parts : List Evaluated} {fault : ArithmeticError}
      {after : Context ρ} :
    e.groups = front ++ back → DiceGroup.rollAll front c = (.ok parts, after) →
    (∀ worth, Agrees worth c.groups parts → e.firstOffence? worth c.groups = some fault) →
    Ends e c parts (.error (.ofArithmetic fault), after)
  /-- A group has failed. -/
  | failed {front back : List DiceGroup} {g : DiceGroup} {parts : List Evaluated}
      {failure : RollError} {middle after : Context ρ} :
    e.groups = front ++ g :: back → DiceGroup.rollAll front c = (.ok parts, middle) →
    g.roll middle = (.error failure, after) → Ends e c parts (.error failure, after)

theorem Agrees.of_append {worth : Nat → Int} {next : Nat} {front back : List Evaluated}
    (h : Agrees worth next (front ++ back)) :
    Agrees worth next front ∧ Agrees worth (next + front.length) back := by
  refine ⟨fun i part hpart => h i part ?_, fun i part hpart => ?_⟩
  · obtain ⟨hi, -⟩ := List.getElem?_eq_some_iff.1 hpart
    rw [List.getElem?_append_left hi, hpart]
  · rw [Nat.add_assoc]
    refine h (front.length + i) part ?_
    rw [List.getElem?_append_right (Nat.le_add_right _ _), Nat.add_sub_cancel_left, hpart]

/-- The last step of an evaluation, which rolls nothing. -/
theorem Ends.of_value {e : Expr} {c after : Context ρ} {parts : List Evaluated}
    {result : Except ArithmeticError Int} (trace : List Die)
    (hrolled : DiceGroup.rollAll e.groups c = (.ok parts, after)) :
    (∀ worth, Agrees worth c.groups parts → result =
      (e.firstOffence? worth c.groups).elim (.ok (e.exactFrom worth c.groups)) .error) →
    e.Ends c parts
      (match result with
        | .error fault => (.error (.ofArithmetic fault), after)
        | .ok value => (.ok ⟨value, trace⟩, after)) := by
  intro hresult
  cases result with
  | error fault =>
    refine .offended (List.append_nil _).symm hrolled fun worth hworth => ?_
    have hfault := hresult worth hworth
    cases hfirst : e.firstOffence? worth c.groups with
    | none =>
      rw [hfirst] at hfault
      cases hfault
    | some other =>
      rw [hfirst] at hfault
      cases hfault
      rfl
  | ok value =>
    refine .settled hrolled fun worth hworth => ?_
    have hvalue := hresult worth hworth
    cases hfirst : e.firstOffence? worth c.groups with
    | none =>
      rw [hfirst] at hvalue
      cases hvalue
      exact ⟨rfl, rfl⟩
    | some fault =>
      rw [hfirst] at hvalue
      cases hvalue

theorem ends_negate {e : Expr} {c : Context ρ} {parts : List Evaluated}
    (h : e.Ends c parts (e.roll c)) : (negate e).Ends c parts ((negate e).roll c) := by
  rw [roll]
  generalize e.roll c = answer at h ⊢
  cases h with
  | @settled _ v after hrolled hexact =>
    refine Ends.of_value (e := negate e) v.trace hrolled fun worth hworth => ?_
    obtain ⟨hnone, hvalue⟩ := hexact worth hworth
    rw [← hvalue, negate_exactFrom, firstOffence?_negate, hnone, Option.none_or]
  | offended hgroups hrolled hfault =>
    refine .offended hgroups hrolled fun worth hworth => ?_
    rw [firstOffence?_negate, hfault worth hworth, Option.some_or]
  | failed hgroups hrolled hfailed => exact .failed hgroups hrolled hfailed

/-- Once the left operand has its value, the right one decides how the evaluation ends. -/
theorem ends_binary {op : BinaryOp} {l r : Expr} {c middle : Context ρ} {left : Evaluated}
    {front back : List Evaluated}
    (hl : l.roll c = (.ok left, middle))
    (hfront : DiceGroup.rollAll l.groups c = (.ok front, middle))
    (hexact : ∀ worth, Agrees worth c.groups front → l.firstOffence? worth c.groups = none ∧
      l.exactFrom worth c.groups = left.value)
    (hr : r.Ends middle back (r.roll middle)) :
    (binary op l r).Ends c (front ++ back) ((binary op l r).roll c) := by
  obtain ⟨hlength, hmiddle⟩ := DiceGroup.rollAll_counts hfront
  rw [length_groups] at hlength hmiddle
  have hsplit : ∀ worth, Agrees worth c.groups (front ++ back) →
      Agrees worth c.groups front ∧ Agrees worth middle.groups back := by
    intro worth hworth
    rw [hmiddle, ← hlength]
    exact hworth.of_append
  rw [roll, hl]
  simp only
  generalize r.roll middle = answer at hr ⊢
  cases hr with
  | @settled _ right after hback hright =>
    refine Ends.of_value (e := binary op l r) (left.trace ++ right.trace)
      (DiceGroup.rollAll_append hfront hback) fun worth hworth => ?_
    obtain ⟨hwfront, hwback⟩ := hsplit worth hworth
    obtain ⟨hlnone, hlvalue⟩ := hexact worth hwfront
    obtain ⟨hrnone, hrvalue⟩ := hright worth hwback
    rw [hmiddle] at hrnone hrvalue
    rw [← hlvalue, ← hrvalue, apply_exactFrom, firstOffence?_binary, hlnone, hrnone, Option.none_or,
      Option.none_or]
  | offended hgroups hback hfault =>
    have hwhole : (binary op l r).groups = _ := congrArg (l.groups ++ ·) hgroups
    rw [← List.append_assoc] at hwhole
    refine .offended hwhole (DiceGroup.rollAll_append hfront hback) fun worth hworth => ?_
    obtain ⟨hwfront, hwback⟩ := hsplit worth hworth
    have hrfault := hfault worth hwback
    rw [hmiddle] at hrfault
    rw [firstOffence?_binary, (hexact worth hwfront).1, hrfault, Option.none_or, Option.some_or]
  | failed hgroups hback hfailed =>
    have hwhole : (binary op l r).groups = _ := congrArg (l.groups ++ ·) hgroups
    rw [← List.append_assoc] at hwhole
    exact .failed hwhole (DiceGroup.rollAll_append hfront hback) hfailed

/-- Every evaluation comes to its value, to an offending node or to a group that fails. -/
theorem exists_ends (e : Expr) (c : Context ρ) : ∃ parts, e.Ends c parts (e.roll c) := by
  induction e generalizing c with
  | literal x => exact ⟨[], .settled (v := ⟨x, []⟩) rfl fun _ _ => ⟨rfl, rfl⟩⟩
  | dice g =>
    cases hg : g.roll c with
    | mk answer after =>
      have hroll : (dice g).roll c = (answer, after) := hg
      rw [hroll]
      cases answer with
      | ok v =>
        refine ⟨[v], .settled ?_ fun worth hworth => ⟨rfl, hworth 0 v rfl⟩⟩
        rw [groups, DiceGroup.rollAll, hg]
        rfl
      | error failure =>
        have hgroups : (dice g).groups = [] ++ g :: [] := rfl
        exact ⟨[], .failed hgroups rfl hg⟩
  | negate e ih =>
    obtain ⟨parts, hends⟩ := ih c
    exact ⟨parts, ends_negate hends⟩
  | binary op l r ihl ihr =>
    obtain ⟨front, hl⟩ := ihl c
    generalize hanswer : l.roll c = answer at hl
    cases hl with
    | @settled _ left middle hfront hexact =>
      obtain ⟨back, hr⟩ := ihr middle
      exact ⟨front ++ back, ends_binary hanswer hfront hexact hr⟩
    | offended hgroups hfront hfault =>
      have hwhole : (binary op l r).groups = _ := congrArg (· ++ r.groups) hgroups
      rw [List.append_assoc] at hwhole
      refine ⟨front, ?_⟩
      rw [roll, hanswer]
      refine .offended hwhole hfront fun worth hworth => ?_
      rw [firstOffence?_binary, hfault worth hworth, Option.some_or, Option.some_or]
    | failed hgroups hfront hfailed =>
      have hwhole : (binary op l r).groups = _ := congrArg (· ++ r.groups) hgroups
      rw [List.append_assoc, List.cons_append] at hwhole
      refine ⟨front, ?_⟩
      rw [roll, hanswer]
      exact .failed hwhole hfront hfailed

/-- An evaluation is exact if the groups it reaches, which its context counts, come to the given parts: it has
the value over the unbounded integers if no divisor is zero and no value of a negation or a binary operation
is out of range, and it fails as the first offending node says if there is one. -/
theorem evaluate_exact {e : Expr} {c middle : Context ρ} {parts : List Evaluated} {worth : Nat → Int}
    (hreached : DiceGroup.rollAll (e.groups.take (e.evaluate c).2.groups)
      { c with rolls := 0, groups := 0 } = (.ok parts, middle))
    (hworth : Agrees worth 0 parts) :
    (∀ v, (∃ trace, (e.evaluate c).1 = .ok ⟨v, trace⟩) ↔
      (∀ node ∈ e.postorder 0, offence? worth node = none) ∧ v = e.exactFrom worth 0) ∧
    ∀ fault, e.firstOffence? worth 0 = some fault →
      (e.evaluate c).1 = .error (.ofArithmetic fault) := by
  let start : Context ρ := { c with rolls := 0, groups := 0 }
  have hnone : e.firstOffence? worth 0 = none ↔ ∀ node ∈ e.postorder 0, offence? worth node = none :=
    List.findSome?_eq_none_iff
  obtain ⟨rolled, hends⟩ := e.exists_ends start
  rw [← hnone]
  change DiceGroup.rollAll (e.groups.take (e.roll start).2.groups) start = _ at hreached
  change (∀ v, (∃ trace, (e.roll start).1 = .ok ⟨v, trace⟩) ↔ _) ∧
    ∀ fault, _ → (e.roll start).1 = .error (.ofArithmetic fault)
  generalize e.roll start = answer at hends hreached ⊢
  cases hends with
  | @settled _ v after hrolled hexact =>
    obtain ⟨-, hcount⟩ := DiceGroup.rollAll_counts hrolled
    have hall : e.groups.take after.groups = e.groups :=
      List.take_of_length_le (by rw [hcount]; exact Nat.le_add_left _ _)
    simp only [hall, hrolled] at hreached
    cases hreached
    obtain ⟨hsound, hvalue⟩ := hexact worth hworth
    rw [hsound, hvalue]
    refine ⟨fun x => ⟨?_, ?_⟩, fun fault h => by cases h⟩
    · rintro ⟨trace, h⟩
      cases h
      exact ⟨rfl, rfl⟩
    · rintro ⟨-, rfl⟩
      exact ⟨v.trace, rfl⟩
  | @offended front back _ fault after hgroups hrolled hfault =>
    obtain ⟨-, hcount⟩ := DiceGroup.rollAll_counts hrolled
    have hfront : e.groups.take after.groups = front := by
      rw [hcount, Nat.zero_add, hgroups, List.take_left]
    simp only [hfront, hrolled] at hreached
    cases hreached
    rw [hfault worth hworth]
    refine ⟨fun x => ⟨?_, ?_⟩, fun other h => by cases h; rfl⟩
    · rintro ⟨trace, h⟩
      cases h
    · rintro ⟨h, -⟩
      cases h
  | @failed front back g _ failure last after hgroups hrolled hfailed =>
    -- The group that fails has been reached, so that not all of them come to a part.
    obtain ⟨-, hcount⟩ := DiceGroup.rollAll_counts hrolled
    have hnext := g.roll_groups last
    rw [hfailed, hcount, Nat.zero_add] at hnext
    have hfront : e.groups.take after.groups = front ++ [g] := by
      rw [hnext, hgroups, ← List.singleton_append, ← List.append_assoc]
      exact List.take_left' (by rw [List.length_append, List.length_singleton])
    simp only [hfront, DiceGroup.rollAll_concat hrolled hfailed] at hreached
    cases hreached

/-- A product that is too large stands in front of a quotient whose divisor is zero, so that the die under the
quotient is never rolled. -/
def doubleFault : Expr :=
  .binary .sub (.binary .mul (.literal maxInt) (.dice ⟨.one, .usual, []⟩))
    (.binary .div (.literal 7) (.binary .sub (.dice ⟨.one, .usual, []⟩) (.literal 3)))

theorem doubleFault_exact :
    let c : Context Playback := .start { Limits.usual with maxRolls := none } (.ofList [2, 3])
    let worth : Nat → Int := fun i => if i = 0 then 2 else 3
    let parts : List Evaluated := [⟨2, [.fresh 0 2 .initial]⟩]
    doubleFault.diceGroups = 2 ∧ (doubleFault.evaluate c).2.groups = 1 ∧
      (∃ middle, DiceGroup.rollAll (doubleFault.groups.take 1) c = (.ok parts, middle)) ∧
      Agrees worth 0 parts ∧
      (doubleFault.postorder 0).filterMap (offence? worth) = [.overflow, .divisionByZero, .overflow] ∧
      (doubleFault.evaluate c).1 = .error .overflow := by
  intro c worth parts
  have hreached : DiceGroup.rollAll (doubleFault.groups.take (doubleFault.evaluate c).2.groups)
      { c with rolls := 0, groups := 0 } = (.ok parts, _) := rfl
  have hworth : Agrees worth 0 parts := by
    intro i part hpart
    cases i with
    | zero =>
      cases hpart
      rfl
    | succ i => cases hpart
  exact ⟨rfl, rfl, ⟨_, hreached⟩, hworth, rfl, (evaluate_exact hreached hworth).2 .overflow rfl⟩

end Expr

end DiceNotation
