import DiceNotation.Pool
import DiceNotation.Sweep

/-!
# Rolling pools and carrying out modifiers

A modifier that rolls dice puts them behind those already in the pool, so the order of the dice is
the order of the rolls.
-/

namespace DiceNotation

variable {ρ : Type} [Roller ρ]

namespace Pool

def kind (p : Pool) : DieKind := ⟨p.index, p.sides⟩

/-- Rolls a new pool. If its dice do not fit the limit, none of them is rolled. -/
def roll (index count : Nat) (sides : Sides) (c : Context ρ) : Except RollError Pool × Context ρ :=
  match c.refusal? count with
  | some e => (.error e, c)
  | none =>
    let r := DieKind.rollFrom ⟨index, sides⟩ [] count c
    match r.failure with
    | some e => (.error e, r.context)
    | none => (.ok ⟨index, sides, r.value, none⟩, r.context)

/-- Rolls one more die into the pool. -/
def rollAnother (p : Pool) (source : Source) (c : Context ρ) : Run ρ Pool :=
  let r := p.kind.roll source c
  ⟨{ p with dice := p.dice ++ r.value }, r.failure, r.context⟩

/-- Carries out one modifier. -/
def modify (p : Pool) (m : Modifier) (c : Context ρ) : Run ρ Pool :=
  match m with
  | .select s => ⟨p.select s, none, c⟩
  | .clamp bound => ⟨p.clamp bound, none, c⟩
  | .countSuccesses condition => ⟨p.countSuccesses condition, none, c⟩
  | .reroll repeats condition =>
    let s := Sweep.run (·.meets condition) Die.replace (p.kind.reroll repeats condition) p.dice c
    ⟨{ p with dice := s.value.dice }, s.failure, s.context⟩
  | .explode repeats condition =>
    let r := Explosion.run p.kind repeats condition p.dice c
    ⟨{ p with dice := r.value }, r.failure, r.context⟩

/-- Carries out the modifiers in order, up to the first failure. -/
def modifyAll : List Modifier → Pool → Context ρ → Run ρ Pool
  | [], p, c => ⟨p, none, c⟩
  | m :: rest, p, c =>
    let r := p.modify m c
    match r.failure with
    | some _ => r
    | none => modifyAll rest r.value r.context

end Pool

end DiceNotation
