import DiceNotation.Evaluation

/-!
# Sessions

A session keeps one context and at most one pool and works on them step by step. What a step has done
before it fails stays done.
-/

namespace DiceNotation

variable {ρ : Type}

structure Session (ρ : Type) where
  context : Context ρ
  pool : Option Pool

inductive Step where
  /-- Evaluates with the counts set back to zero. -/
  | evaluate (expr : Expr)
  /-- Evaluates with the counts as they stand. -/
  | continueWith (expr : Expr)
  | limits
  | rollOne (sides : Sides)
  /-- Rolls a new pool, which takes the place of the present one. -/
  | rollPool (index : Nat) (count : DiceCount) (sides : Sides)
  | rollAnother (source : Source)
  | modify (modifier : Modifier)
  | setStatus (position : Nat) (status : Status)
  | setValue (position : Nat) (value : Int)
  | setExploded (position : Nat) (exploded : Bool)
  | setSides (sides : Sides)
  | clear
  | keptPositions
  | worths
  | subtotal
  /-- Marks the successes and adds up. -/
  | resolve
  deriving DecidableEq, Repr

/-- What a step answers. -/
inductive Answer where
  | done
  | evaluated (result : Evaluated)
  | limits (limits : Limits)
  | value (x : Int)
  | position (i : Nat)
  | positions (list : List Nat)
  | values (list : List Int)
  | failed (error : RollError)
  deriving DecidableEq, Repr

namespace Answer

def ofSum : Except ArithmeticError Int → Answer
  | .ok x => value x
  | .error e => failed (.ofArithmetic e)

def ofFailure (success : Answer) : Option RollError → Answer
  | none => success
  | some e => failed e

end Answer

namespace Session

def start (limits : Limits) (roller : ρ) : Session ρ := ⟨.start limits roller, none⟩

/-- Changes one die of a pool. -/
def changeDie (p : Pool) (position : Nat) (change : Die → Die) : Pool :=
  { p with dice := p.dice.modify position change }

variable [Roller ρ]

/-- A step that leaves the context alone. -/
def keepContext (s : Session ρ) (pool : Pool) (answer : Answer) : Option (Answer × Session ρ) :=
  some (answer, { s with pool := some pool })

/-- A step that works on the present pool. -/
def poolStep (s : Session ρ) (p : Pool) : Step → Option (Answer × Session ρ)
  | .rollAnother source =>
    let r := p.rollAnother source s.context
    some (.ofFailure (.position p.dice.length) r.failure, ⟨r.context, some r.value⟩)
  | .modify m =>
    let r := p.modify m s.context
    some (.ofFailure .done r.failure, ⟨r.context, some r.value⟩)
  | .setStatus i status => s.keepContext (changeDie p i fun d => { d with status }) .done
  | .setValue i value => s.keepContext (changeDie p i fun d => { d with value }) .done
  | .setExploded i exploded => s.keepContext (changeDie p i fun d => { d with exploded }) .done
  | .setSides sides => s.keepContext { p with sides } .done
  | .clear => s.keepContext { p with dice := [] } .done
  | .keptPositions => s.keepContext p (.positions p.keptPositions)
  | .worths => s.keepContext p (.values (p.dice.map Die.worth))
  | .subtotal => s.keepContext p (.ofSum p.subtotal)
  | .resolve => s.keepContext p.markSuccesses (.ofSum p.markSuccesses.subtotal)
  | _ => none

/-- Takes one step; there is no answer if the step needs a pool and there is none. -/
def step (s : Session ρ) : Step → Option (Answer × Session ρ)
  | .evaluate e =>
    match e.evaluate s.context with
    | (.ok result, context) => some (.evaluated result, { s with context })
    | (.error e, context) => some (.failed e, { s with context })
  | .continueWith e =>
    match e.roll s.context with
    | (.ok result, context) => some (.evaluated result, { s with context })
    | (.error e, context) => some (.failed e, { s with context })
  | .limits => some (.limits s.context.limits, s)
  | .rollOne sides =>
    match s.context.rollOne sides with
    | (.ok face, context) => some (.value face, { s with context })
    | (.error e, context) => some (.failed e, { s with context })
  | .rollPool index count sides =>
    match Pool.roll index count.toNat sides s.context with
    | (.ok pool, context) => some (.done, ⟨context, some pool⟩)
    | (.error e, context) => some (.failed e, { s with context })
  | other =>
    match s.pool with
    | none => none
    | some p => s.poolStep p other

end Session

end DiceNotation
