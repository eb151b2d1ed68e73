import DiceNotation.Evaluation

/-!
# Results by group

A result sorts the trace of an evaluation by group. From the subtotals alone the total of the
expression can be worked out again, which is what `RollResult.refold` does.
-/

namespace DiceNotation

/-- Every die rolled by one group, in the order of the rolls. -/
structure GroupRolls where
  index : Nat
  /-- What the dice are worth together. -/
  subtotal : Int
  rolls : Array Die
  deriving DecidableEq, Repr

namespace GroupRolls

def ofDie (d : Die) : GroupRolls := ⟨d.group, d.worth, #[d]⟩

def push (g : GroupRolls) (d : Die) : GroupRolls :=
  { g with subtotal := g.subtotal + d.worth, rolls := g.rolls.push d }

def keptCount (g : GroupRolls) : Nat := g.rolls.countP Die.isKept

/-- Puts a die into the group of its index, which is opened behind the others if it is new. -/
def insert (d : Die) : List GroupRolls → List GroupRolls
  | [] => [ofDie d]
  | g :: rest => if g.index = d.group then g.push d :: rest else g :: insert d rest

/-- The dice sorted by group, the groups in the order in which they first occur. -/
def ofTrace (trace : List Die) : List GroupRolls :=
  trace.foldl (fun groups d => insert d groups) []

/-- The group of an index. -/
def find? (groups : List GroupRolls) (index : Nat) : Option GroupRolls :=
  groups.find? fun g => g.index = index

/-- The value of an expression whose groups are worth their recorded subtotals, and the index of the
group that comes next. A group without a record is worth nothing. -/
def refoldFrom (groups : List GroupRolls) : Expr → Nat → Except RollError (Int × Nat)
  | .literal x, next => .ok (x, next)
  | .dice _, next =>
    match find? groups next with
    | none => .ok (0, next + 1)
    | some g => .ok (g.subtotal, next + 1)
  | .negate e, next =>
    match refoldFrom groups e next with
    | .error e => .error e
    | .ok (operand, next) =>
      match DiceNotation.negate operand with
      | .error e => .error (.ofArithmetic e)
      | .ok value => .ok (value, next)
  | .binary op l r, next =>
    match refoldFrom groups l next with
    | .error e => .error e
    | .ok (left, next) =>
      match refoldFrom groups r next with
      | .error e => .error e
      | .ok (right, next) =>
        match op.apply left right with
        | .error e => .error (.ofArithmetic e)
        | .ok value => .ok (value, next)

end GroupRolls

structure RollResult where
  total : Int
  groups : List GroupRolls
  deriving DecidableEq, Repr

namespace RollResult

def ofTrace (total : Int) (trace : List Die) : RollResult := ⟨total, GroupRolls.ofTrace trace⟩

def group? (r : RollResult) (index : Nat) : Option GroupRolls := GroupRolls.find? r.groups index

/-- Every die, group by group. -/
def dice (r : RollResult) : List Die := r.groups.flatMap fun g => g.rolls.toList

/-- The total worked out again from the subtotals. -/
def refold (r : RollResult) (e : Expr) : Except RollError Int :=
  (GroupRolls.refoldFrom r.groups e 0).map (·.1)

end RollResult

namespace Expr

/-- Rolls an expression in a context of its own. -/
def rollResult {ρ : Type} [Roller ρ] (e : Expr) (roller : ρ) (limits : Limits) :
    Except RollError RollResult × ρ :=
  match e.evaluate (Context.start limits roller) with
  | (.error error, c) => (.error error, c.roller)
  | (.ok evaluated, c) => (.ok (.ofTrace evaluated.value evaluated.trace), c.roller)

end Expr

end DiceNotation
