import DiceNotation.Proofs.Rolls.Pools
import DiceNotation.Report
import DiceNotation.Roller.Playback

/-!
# Playing back a throw

Without a cap on rolls, an expression that rolls its dice only once and is evaluated on a throw of its
own uses up the throw, face by face, and comes to the total of the throw.
-/

namespace DiceNotation

/-- No modifier of the group rolls dice. -/
def DiceGroup.RollsOnce (g : DiceGroup) : Prop := ∀ m ∈ g.modifiers, m.rollsDice = false

/-- No modifier of the expression rolls dice. -/
def Expr.RollsOnce (e : Expr) : Prop := ∀ g ∈ e.groups, g.RollsOnce

/-- The values not handed out yet. -/
def Playback.upcoming (p : Playback) : List Int := p.values.toList.drop p.used

/-- The next value is handed out as it stands if it lies within the bounds. -/
theorem Playback.roll_upcoming {p : Playback} {x low high : Int} {rest : List Int}
    (h : p.upcoming = x :: rest) (hlow : low ≤ x) (hhigh : x ≤ high) :
    ∃ after, p.roll low high = (.ok x, after) ∧ after.upcoming = rest := by
  have hget : p.values.toList[p.used]? = some x := by
    have := congrArg List.head? h
    rwa [upcoming, List.head?_drop] at this
  have hused : p.used < p.values.size := by
    obtain ⟨hlt, -⟩ := List.getElem?_eq_some_iff.1 hget
    rwa [Array.length_toList] at hlt
  have hvalue : p.values[p.used % p.values.size]? = some x := by
    rwa [Nat.mod_eq_of_lt hused, ← Array.getElem?_toList]
  refine ⟨{ p with used := p.used + 1 }, ?_, ?_⟩
  · have hbounds : ¬ high < low := by omega
    rw [roll, if_neg hbounds, hvalue]
    simp only [fold_of_mem hlow hhigh]
  · have := congrArg List.tail h
    rwa [upcoming, List.tail_drop] at this

/-- Nothing caps the rolls of the context, and its roller goes on with the given faces. -/
def Context.Offers (c : Context Playback) (faces : List Int) : Prop :=
  c.limits.maxRolls = none ∧ c.roller.upcoming = faces

namespace Context

theorem refusal?_of_uncapped {ρ : Type} {c : Context ρ} (h : c.limits.maxRolls = none) (n : Nat) :
    c.refusal? n = none := by
  rw [refusal?, h]

variable {c : Context Playback} {sides : Sides}

theorem rollOne_offers {x : Int} {rest : List Int} (hx : x ∈ sides.faces)
    (h : c.Offers (x :: rest)) : ∃ after, c.rollOne sides = (.ok x, after) ∧ after.Offers rest := by
  obtain ⟨hcap, hup⟩ := h
  obtain ⟨hlow, hhigh⟩ := Sides.mem_faces.1 hx
  obtain ⟨after, hroll, hrest⟩ := Playback.roll_upcoming hup hlow hhigh
  refine ⟨{ c with rolls := c.rolls + 1, roller := after }, ?_, hcap, hrest⟩
  rw [rollOne, refusal?_of_uncapped hcap]
  change (let (answer, roller) := c.roller.roll 1 sides.top
    ((answer, { c with rolls := c.rolls + 1, roller }) :
      Except RollError Int × Context Playback)) = _
  rw [hroll]

end Context

theorem DieKind.rollFrom_offers {k : DieKind} {faces rest : List Int} {c : Context Playback}
    (rolled : List Die) (hfaces : ∀ x ∈ faces, x ∈ k.sides.faces) (h : c.Offers (faces ++ rest)) :
    ∃ after, k.rollFrom rolled faces.length c =
      ⟨rolled.reverse ++ faces.map (.fresh k.group · .initial), none, after⟩ ∧ after.Offers rest := by
  induction faces generalizing rolled c with
  | nil => exact ⟨c, by simp [rollFrom], h⟩
  | cons x faces ih =>
    obtain ⟨next, hroll, hnext⟩ := Context.rollOne_offers (hfaces x (by simp)) h
    have hrest : ∀ y ∈ faces, y ∈ k.sides.faces := fun y hy => hfaces y (by simp [hy])
    obtain ⟨after, hafter, hoffers⟩ := ih (.fresh k.group x .initial :: rolled) hrest hnext
    refine ⟨after, ?_, hoffers⟩
    rw [List.length_cons, rollFrom, hroll]
    simp only [hafter, List.reverse_cons, List.map_cons, List.append_assoc, List.singleton_append]

/-- Goes on from the value of an evaluation; a failure is final. -/
def Evaluated.andThen {ρ : Type} (answer : Except RollError Evaluated × Context ρ)
    (next : Evaluated → Context ρ → Except RollError Evaluated × Context ρ) :
    Except RollError Evaluated × Context ρ :=
  match answer with
  | (.error e, c) => (.error e, c)
  | (.ok evaluated, c) => next evaluated c

/-- The answer of an evaluation comes to the expected total, and after a success the roller goes on with
`rest`. -/
def Answers (rest : List Int) (answer : Except RollError Evaluated × Context Playback) :
    Except ArithmeticError Int → Prop
  | .ok x => ∃ trace after, answer = (.ok ⟨x, trace⟩, after) ∧ after.Offers rest
  | .error e => ∃ after, answer = (.error (.ofArithmetic e), after)

namespace Answers

variable {rest : List Int}

theorem andThen {rest' : List Int} {answer : Except RollError Evaluated × Context Playback}
    {next : Evaluated → Context Playback → Except RollError Evaluated × Context Playback}
    {total : Except ArithmeticError Int} {f : Int → Except ArithmeticError Int}
    (h : Answers rest answer total)
    (hnext : ∀ evaluated c, c.Offers rest → Answers rest' (next evaluated c) (f evaluated.value)) :
    Answers rest' (Evaluated.andThen answer next) (total.bind f) := by
  cases total with
  | error a =>
    obtain ⟨after, rfl⟩ := h
    exact ⟨after, rfl⟩
  | ok x =>
    obtain ⟨trace, after, rfl, hafter⟩ := h
    exact hnext ⟨x, trace⟩ after hafter

/-- An evaluation that ends in an operation on values. -/
theorem of_value {c : Context Playback} (hc : c.Offers rest) (trace : List Die)
    (total : Except ArithmeticError Int) :
    Answers rest
      (match total with
        | .error e => (.error (.ofArithmetic e), c)
        | .ok value => (.ok ⟨value, trace⟩, c))
      total := by
  cases total with
  | error a => exact ⟨c, rfl⟩
  | ok x => exact ⟨trace, c, rfl, hc⟩

end Answers

namespace DiceGroup

variable {g : DiceGroup} {faces : List Int}

theorem faces_nonneg {s : Sides} (h : ∀ x ∈ faces, x ∈ s.faces) :
    ∀ x ∈ Hands.ofFaces faces, 0 ≤ x := by
  intro x hx
  have := (Sides.mem_faces.1 (h x ((Hands.ofFaces_perm faces).mem_iff.1 hx))).1
  omega

/-- Once its dice show the given faces, a group that rolls no further dice comes to what it is worth. -/
theorem exists_roll_eq {ρ : Type} [Roller ρ] {c after : Context ρ} (hw : g.Writable)
    (hg : g.RollsOnce) (hfaces : ∀ x ∈ faces, x ∈ g.sides.faces)
    (hpool : Pool.roll c.groups g.count.toNat g.sides { c with groups := c.groups + 1 } =
      (.ok ⟨c.groups, g.sides, faces.map (Die.fresh c.groups · .initial), none⟩, after)) :
    ∃ trace, g.roll c =
      match checked (g.worth faces) with
      | .error e => (.error (.ofArithmetic e), after)
      | .ok value => (.ok ⟨value, trace⟩, after) := by
  let fresh : Pool :=
    ⟨c.groups, g.sides, faces.map (Die.fresh c.groups · .initial), none⟩
  have hunmarked : fresh.Unmarked := by
    intro d hd
    obtain ⟨x, -, rfl⟩ := List.mem_map.1 hd
    rfl
  have hshown : fresh.showing = ⟨Hands.ofFaces faces, none⟩ := by
    have hvalues : Pool.keptValues fresh.dice = faces := by
      simp [Pool.keptValues, fresh, List.filter_map, Die.fresh, Die.isKept, Function.comp_def]
    rw [Pool.showing, hvalues]
  obtain ⟨pool, hmodified, hpoolUnmarked, hshowing⟩ := Pool.modifyAll_showing hg hunmarked after
  rw [hshown] at hshowing
  have hnonneg : ∀ x ∈ pool.showing.hand, 0 ≤ x := by
    rw [hshowing]
    exact Showing.foldl_act_nonneg hw.2 (faces_nonneg hfaces)
  have hsubtotal : pool.markSuccesses.subtotal = checked (g.worth faces) := by
    rw [Pool.subtotal_markSuccesses hpoolUnmarked hnonneg, hshowing]
    rfl
  have hfresh : Pool.roll c.groups g.count.toNat g.sides { c with groups := c.groups + 1 } =
      (.ok fresh, after) := hpool
  refine ⟨pool.markSuccesses.dice, ?_⟩
  cases htotal : checked (g.worth faces) with
  | error a | ok value => simp only [roll, hfresh, hmodified, hsubtotal, htotal]

/-- A group rolled on faces that fit its dice comes to what it is worth. -/
theorem roll_answers {rest : List Int} {c : Context Playback} (hw : g.Writable) (hg : g.RollsOnce)
    (hlength : faces.length = g.count.toNat) (hfaces : ∀ x ∈ faces, x ∈ g.sides.faces)
    (hc : c.Offers (faces ++ rest)) : Answers rest (g.roll c) (checked (g.worth faces)) := by
  have hbegun : ({ c with groups := c.groups + 1 } : Context Playback).Offers (faces ++ rest) := hc
  obtain ⟨after, hrolled, hafter⟩ :=
    DieKind.rollFrom_offers (k := ⟨c.groups, g.sides⟩) [] hfaces hbegun
  have hpool : Pool.roll c.groups g.count.toNat g.sides { c with groups := c.groups + 1 } =
      (.ok ⟨c.groups, g.sides, faces.map (Die.fresh c.groups · .initial), none⟩, after) := by
    rw [Pool.roll, Context.refusal?_of_uncapped hbegun.1, ← hlength, hrolled]
    rfl
  obtain ⟨trace, hroll⟩ := exists_roll_eq hw hg hfaces hpool
  rw [hroll]
  exact .of_value hafter trace _

end DiceGroup

namespace Expr

theorem totalOf_append {op : BinaryOp} {l r : Expr} {left right : List Int} (hl : l.IsThrow left) :
    (binary op l r).totalOf (left ++ right) =
      (l.totalOf left).bind fun x => (r.totalOf right).bind fun y => op.apply x y := by
  rw [totalOf, ← hl.length_eq, List.take_left, List.drop_left]

/-- Evaluation consumes exactly the throw of the expression and comes to its total. -/
theorem roll_answers {e : Expr} {faces rest : List Int} {c : Context Playback} (hw : e.Writable)
    (he : e.RollsOnce) (hthrow : e.IsThrow faces) (hc : c.Offers (faces ++ rest)) :
    Answers rest (e.roll c) (e.totalOf faces) := by
  -- The rest is arbitrary: it holds the faces of the right operand while the left one is rolled.
  induction e generalizing faces rest c with
  | literal x =>
    have hnone : faces = [] := List.length_eq_zero_iff.1 hthrow.length_eq
    rw [hnone] at hc
    exact ⟨[], c, rfl, hc⟩
  | dice g =>
    have hdraw := mem_throws.2 hthrow
    rw [throws, mem_draws] at hdraw
    exact g.roll_answers hw (he g (by simp [groups])) hdraw.1 hdraw.2 hc
  | negate e ih =>
    have hoperand := ih hw he hthrow hc
    exact hoperand.andThen (f := DiceNotation.negate) fun operand c hc =>
      .of_value hc operand.trace (DiceNotation.negate operand.value)
  | binary op l r ihl ihr =>
    obtain ⟨left, right, hleft, hright, rfl⟩ := isThrow_binary_iff.1 hthrow
    obtain ⟨hlonce, hronce⟩ := List.forall_mem_append.1 he
    rw [List.append_assoc] at hc
    rw [totalOf_append hleft]
    have hl := ihl hw.1 hlonce hleft hc
    refine hl.andThen (f := fun x => (r.totalOf right).bind fun y => op.apply x y) fun left c hc => ?_
    have hr := ihr hw.2 hronce hright hc
    exact hr.andThen (f := fun y => op.apply left.value y) fun right c hc =>
      .of_value hc (left.trace ++ right.trace) (op.apply left.value right.value)

end Expr

/-- The total that a text comes to when the faces are played back. -/
def playedTotal (text : String) (faces : List Int) (limits : Limits) : Except Error Int :=
  (rollText text (Playback.ofList faces) limits).1.map (·.result.total)

/-- Played back, a throw gives its total, or fails as its total does. -/
theorem playedTotal_eq {text : String} {e : Expr} {faces : List Int} {limits : Limits}
    (hparse : Expr.parse text = .ok e) (he : e.RollsOnce) (hcap : limits.maxRolls = none)
    (hthrow : e.IsThrow faces) :
    playedTotal text faces limits =
      (e.totalOf faces).mapError fun a => .roll (.ofArithmetic a) := by
  have hoffers : ({ Context.start limits (Playback.ofList faces) with rolls := 0, groups := 0 } :
      Context Playback).Offers (faces ++ []) := ⟨hcap, (List.append_nil faces).symm⟩
  have hanswer := Expr.roll_answers (Expr.writable_of_parse hparse) he hthrow hoffers
  simp only [playedTotal, rollText, hparse, Expr.rollResult, Expr.evaluate]
  cases htotal : e.totalOf faces with
  | error a =>
    rw [htotal] at hanswer
    obtain ⟨after, hroll⟩ := hanswer
    rw [hroll]
    rfl
  | ok x =>
    rw [htotal] at hanswer
    obtain ⟨trace, after, hroll, -⟩ := hanswer
    rw [hroll]
    rfl

end DiceNotation
