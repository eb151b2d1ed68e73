import DiceNotation.Proofs.Plays.Capping
import DiceNotation.Proofs.Rolls.Conservation

/-!
# Rolling on any roller

An expression that rolls its dice only once can be evaluated on any roller that answers within bounds.
Whatever the faces are, they make up a throw of the expression: either the evaluation comes to the total
of that throw, or it is cut off by the cap on rolls.
-/

namespace DiceNotation

variable {ρ : Type}

/-- The answer of an evaluation under some limits is the expected total, or a refusal to roll more
dice. -/
inductive ComesTo (limits : Limits) :
    Except RollError Evaluated × Context ρ → Except ArithmeticError Int → Prop
  | settled (v : Evaluated) {after : Context ρ} :
    after.limits = limits → ComesTo limits (.ok v, after) (.ok v.value)
  | failed (a : ArithmeticError) (after : Context ρ) :
    ComesTo limits (.error (.ofArithmetic a), after) (.error a)
  | refused {m : Nat} (after : Context ρ) (total : Except ArithmeticError Int) :
    limits.maxRolls = some m → ComesTo limits (.error (.tooManyRolls m), after) total

namespace ComesTo

variable {limits : Limits}

theorem andThen {answer : Except RollError Evaluated × Context ρ}
    {next : Evaluated → Context ρ → Except RollError Evaluated × Context ρ}
    {total : Except ArithmeticError Int} {f : Int → Except ArithmeticError Int}
    (h : ComesTo limits answer total)
    (hnext : ∀ v after, answer = (.ok v, after) → after.limits = limits →
      ComesTo limits (next v after) (f v.value)) :
    ComesTo limits (Evaluated.andThen answer next) (total.bind f) := by
  cases h with
  | settled v hafter => exact hnext v _ rfl hafter
  | failed a after => exact .failed a after
  | refused after total hm => exact .refused after _ hm

/-- An evaluation that ends in an operation on values. -/
theorem of_value {c : Context ρ} (hc : c.limits = limits) (trace : List Die)
    (total : Except ArithmeticError Int) :
    ComesTo limits
      (match total with
        | .error e => (.error (.ofArithmetic e), c)
        | .ok value => (.ok ⟨value, trace⟩, c))
      total := by
  cases total with
  | error a => exact .failed a c
  | ok x => exact .settled ⟨x, trace⟩ hc

end ComesTo

variable [Roller ρ]

namespace DieKind

/-- On a roller that answers, nothing but the cap keeps dice from being rolled. -/
theorem rollFrom_of_reliable (hreliable : Roller.Reliable ρ) (k : DieKind) (rolled : List Die) (n : Nat)
    (c : Context ρ) :
    (k.rollFrom rolled n c).context.limits = c.limits ∧
      ((k.rollFrom rolled n c).failure = none ∨
        ∃ m, c.limits.maxRolls = some m ∧
          (k.rollFrom rolled n c).failure = some (.tooManyRolls m)) := by
  fun_induction rollFrom k rolled n c with
  | case1 rolled c => exact ⟨rfl, .inl rfl⟩
  | case2 rolled n c face after hroll ih =>
    have hlimits := c.rollOne_limits k.sides
    rw [hroll] at hlimits
    rwa [hlimits] at ih
  | case3 rolled n c e after hroll =>
    have hlimits := c.rollOne_limits k.sides
    rw [hroll] at hlimits
    refine ⟨hlimits, .inr ?_⟩
    rcases c.rollOne_cases k.sides with ⟨e', hrefused, hfailed⟩ | ⟨hroom, -⟩
    · have he : e = e' := by
        rw [hroll] at hfailed
        cases hfailed
        rfl
      obtain ⟨m, hm, hmax⟩ := Context.of_refusal?_eq_some hrefused
      exact ⟨m, hm, congrArg some (he.trans hmax)⟩
    · obtain ⟨face, roller, -, hrolled⟩ := Context.rollOne_of_reliable hreliable hroom k.sides
      rw [hroll] at hrolled
      cases hrolled

end DieKind

namespace DiceGroup

variable {g : DiceGroup}

/-- The least faces of all dice are a throw. -/
theorem exists_faces (g : DiceGroup) :
    ∃ faces : List Int, faces.length = g.count.toNat ∧ ∀ x ∈ faces, x ∈ g.sides.faces := by
  refine ⟨List.replicate g.count.toNat 1, List.length_replicate, fun x hx => ?_⟩
  rw [List.eq_of_mem_replicate hx]
  exact Sides.mem_faces.2 ⟨Int.le_refl 1, g.sides.one_le_top⟩

theorem exists_roll_comesTo (hbounded : Roller.Bounded ρ) (hreliable : Roller.Reliable ρ)
    (hw : g.Writable) (hg : g.RollsOnce) (c : Context ρ) :
    ∃ faces : List Int, (faces.length = g.count.toNat ∧ ∀ x ∈ faces, x ∈ g.sides.faces) ∧
      ComesTo c.limits (g.roll c) (checked (g.worth faces)) := by
  let begun : Context ρ := { c with groups := c.groups + 1 }
  have hbegun : Pool.roll c.groups g.count.toNat g.sides begun =
      Pool.roll c.groups g.count.toNat g.sides { c with groups := c.groups + 1 } := rfl
  obtain ⟨faces, hthrow⟩ := g.exists_faces
  cases hroom : begun.refusal? g.count.toNat with
  | some e =>
    obtain ⟨m, hm, rfl⟩ := Context.of_refusal?_eq_some hroom
    have hrefused : g.roll c = (.error (.tooManyRolls m), begun) := by
      rw [roll, ← hbegun, Pool.roll, hroom]
    exact ⟨faces, hthrow, hrefused ▸ .refused begun _ hm⟩
  | none =>
    let r := DieKind.rollFrom ⟨c.groups, g.sides⟩ [] g.count.toNat begun
    obtain ⟨hlimits, hrolled⟩ :=
      DieKind.rollFrom_of_reliable hreliable ⟨c.groups, g.sides⟩ [] g.count.toNat begun
    rcases hrolled with hok | ⟨m, hm, hfailed⟩
    · have hpool : Pool.roll c.groups g.count.toNat g.sides begun =
          (.ok ⟨c.groups, g.sides, r.value, none⟩, r.context) := by
        rw [Pool.roll, hroom]
        simp only [r, hok]
      obtain ⟨faces, hfresh, hlength, hfaces⟩ := Pool.roll_value hbounded hpool
      rw [hfresh] at hpool
      have hmem : ∀ x ∈ faces, x ∈ g.sides.faces := fun x hx => Sides.mem_faces.2 (hfaces x hx)
      obtain ⟨trace, hroll⟩ := exists_roll_eq hw hg hmem hpool
      refine ⟨faces, ⟨hlength, hmem⟩, ?_⟩
      rw [hroll]
      exact .of_value hlimits trace _
    · have hrefused : g.roll c = (.error (.tooManyRolls m), r.context) := by
        rw [roll, ← hbegun, Pool.roll, hroom]
        simp only [r, hfailed]
      exact ⟨faces, hthrow, hrefused ▸ .refused r.context _ hm⟩

end DiceGroup

namespace Expr

/-- Evaluated on any roller that answers within bounds, an expression comes to the total of some throw
of its dice, as far as the cap allows. -/
theorem exists_roll_comesTo (hbounded : Roller.Bounded ρ) (hreliable : Roller.Reliable ρ) {e : Expr}
    (hw : e.Writable) (he : e.RollsOnce) (c : Context ρ) :
    ∃ faces, e.IsThrow faces ∧ ComesTo c.limits (e.roll c) (e.totalOf faces) := by
  induction e generalizing c with
  | literal x => exact ⟨[], .nil, .settled ⟨x, []⟩ rfl⟩
  | dice g =>
    obtain ⟨faces, hthrow, hroll⟩ :=
      DiceGroup.exists_roll_comesTo hbounded hreliable hw (he g (by simp [groups])) c
    refine ⟨faces, mem_throws.1 ?_, hroll⟩
    rw [throws, mem_draws]
    exact hthrow
  | negate e ih =>
    obtain ⟨faces, hthrow, hroll⟩ := ih hw he c
    refine ⟨faces, hthrow, ?_⟩
    exact hroll.andThen (f := DiceNotation.negate) fun operand after _ hafter =>
      .of_value hafter operand.trace (DiceNotation.negate operand.value)
  | binary op l r ihl ihr =>
    obtain ⟨hlonce, hronce⟩ := List.forall_mem_append.1 he
    obtain ⟨left, hleft, hl⟩ := ihl hw.1 hlonce c
    -- Where the left operand fails no die of the right one is rolled, and any throw of it will do.
    have hr : ∃ right, r.IsThrow right ∧ ∀ v after, l.roll c = (.ok v, after) →
        after.limits = c.limits → ComesTo c.limits (r.roll after) (r.totalOf right) := by
      rcases hroll : l.roll c with ⟨_ | v, after⟩
      · obtain ⟨right, hright⟩ := List.exists_mem_of_ne_nil _ r.throws_ne_nil
        exact ⟨right, mem_throws.1 hright, fun v after h => by cases h⟩
      · obtain ⟨right, hright, hr⟩ := ihr hw.2 hronce after
        refine ⟨right, hright, fun v' after' h hlimits => ?_⟩
        cases h
        exact hlimits ▸ hr
    obtain ⟨right, hright, hr⟩ := hr
    refine ⟨left ++ right, isThrow_binary_iff.2 ⟨left, right, hleft, hright, rfl⟩, ?_⟩
    rw [totalOf_append hleft]
    refine hl.andThen (f := fun x => (r.totalOf right).bind fun y => op.apply x y)
      fun x after hx hafter => ?_
    exact (hr x after hx hafter).andThen (f := fun y => op.apply x.value y)
      fun y last _ hlast => .of_value hlast (x.trace ++ y.trace) (op.apply x.value y.value)

end Expr

end DiceNotation
