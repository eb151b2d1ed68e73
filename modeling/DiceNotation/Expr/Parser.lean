import DiceNotation.Expr
import DiceNotation.Expr.ParseError

/-!
# From tokens to expressions

The reader goes through the tokens once. It holds a stack of unfinished surroundings and the phase of
the factor it is in; each token either extends the factor or finishes it, and then decides what becomes
of the surroundings. An error is raised at the first token after which no expression is possible.

Operators of equal precedence group to the left, negation binds tighter than any of them, and a
modifier belongs to the dice right before it.
-/

namespace DiceNotation

namespace Trigger

/-- The condition that stands when none is written: reroll a one, answer the greatest face. -/
def usualCondition (t : Trigger) (sides : Sides) : Condition :=
  match t with
  | reroll _ => .equalTo 1
  | explode _ | countSuccesses => .equalTo sides.top

end Trigger

namespace DiceGroup

def addModifier (g : DiceGroup) (m : Modifier) : DiceGroup :=
  { g with modifiers := g.modifiers ++ [m] }

end DiceGroup

namespace Expr

/-- A surrounding whose last part is still to be read. -/
inductive Frame where
  | parenthesis
  | negation
  | leftOperand (left : Expr) (op : BinaryOp)
  deriving DecidableEq, Repr

/-- How far the factor in hand has been read. -/
inductive Phase where
  /-- A factor has to start here. -/
  | start
  /-- A number, which turns out to be a count when a `d` follows. -/
  | number (value : Int) (token : Token)
  /-- The sides may follow the `d`. -/
  | diceSign (count : DiceCount)
  /-- Modifiers may follow. -/
  | group (group : DiceGroup)
  /-- The argument of a modifier may follow. -/
  | keyword (group : DiceGroup) (word : Keyword)
  /-- A number has to follow the comparison. -/
  | comparison (group : DiceGroup) (trigger : Trigger) (comparison : Comparison)
  /-- An expression in parentheses, which takes no modifiers. -/
  | closed (inner : Expr)
  deriving DecidableEq, Repr

/-- Where the reader stands after some tokens; what follows a finished expression is not read. -/
inductive Reading where
  | unfinished (stack : List Frame) (phase : Phase)
  | finished (expr : Expr)
  deriving DecidableEq, Repr

namespace Reading

/-- What a factor can start with. -/
def factorStarts : List TokenKind := [.openParen, .operator .sub, TokenKind.anyNumber, .dice]

/-- What can follow a factor outside all parentheses. -/
def factorFollowers : List TokenKind :=
  [.operator .add, .operator .sub, .operator .mul, .operator .div, .endOfInput]

/-- Gives the operand to the waiting surroundings that bind at least as tightly as `least`. -/
def reduce (least : Nat) (e : Expr) : List Frame → Expr × List Frame
  | .negation :: stack => reduce least (.negate e) stack
  | .leftOperand l op :: stack =>
    if least ≤ op.precedence then reduce least (.binary op l e) stack
    else (e, .leftOperand l op :: stack)
  | stack => (e, stack)

def unexpected (expected : List TokenKind) (token : Token) : Except ParseError Reading :=
  .error (.atToken token (.unexpectedToken expected))

/-- Goes on after a factor that the token does not extend. -/
def afterFactor (stack : List Frame) (e : Expr) (token : Token) : Except ParseError Reading :=
  match token.kind with
  | .operator op =>
    let (left, stack) := reduce op.precedence e stack
    .ok (.unfinished (.leftOperand left op :: stack) .start)
  | .closeParen =>
    match reduce 0 e stack with
    | (inner, .parenthesis :: stack) => .ok (.unfinished stack (.closed inner))
    | _ => unexpected factorFollowers token
  | .endOfInput =>
    match reduce 0 e stack with
    | (whole, []) => .ok (.finished whole)
    | _ => unexpected [.closeParen] token
  | _ =>
    if stack.contains .parenthesis then unexpected [.closeParen] token
    else unexpected factorFollowers token

/-- Goes on after a group of dice, which the token may extend by a modifier. -/
def afterGroup (stack : List Frame) (g : DiceGroup) (token : Token) : Except ParseError Reading :=
  match token.kind with
  | .keyword word => .ok (.unfinished stack (.keyword g word))
  | _ => afterFactor stack (.dice g) token

/-- A group that has taken in a whole modifier. -/
def modified (stack : List Frame) (g : DiceGroup) (m : Modifier) : Reading :=
  .unfinished stack (.group (g.addModifier m))

/-- How many dice a written number selects; one that no pool can hold stands for all of them. -/
def selectionCount (n : Int) : Nat := if 0 ≤ n then n.toNat else maxCount

/-- One die is selected unless a number follows. -/
def afterSelection (stack : List Frame) (g : DiceGroup) (action : Action) (rank : Rank)
    (token : Token) : Except ParseError Reading :=
  match token.kind with
  | .number n => .ok (modified stack g (.select ⟨action, rank, selectionCount n⟩))
  | _ => afterGroup stack (g.addModifier (.select ⟨action, rank, 1⟩)) token

/-- A clamp cannot do without its number. -/
def afterClamp (stack : List Frame) (g : DiceGroup) (clamp : Int → Clamp) (token : Token) :
    Except ParseError Reading :=
  match token.kind with
  | .number n => .ok (modified stack g (.clamp (clamp n)))
  | _ => unexpected [TokenKind.anyNumber] token

/-- A comparison or a bare number may follow; otherwise the usual condition stands. -/
def afterTrigger (stack : List Frame) (g : DiceGroup) (t : Trigger) (token : Token) :
    Except ParseError Reading :=
  match token.kind with
  | .comparison c => .ok (.unfinished stack (.comparison g t c))
  | .number n => .ok (modified stack g (t.modifier (.equalTo n)))
  | _ => afterGroup stack (g.addModifier (t.modifier (t.usualCondition g.sides))) token

def afterKeyword (stack : List Frame) (g : DiceGroup) (word : Keyword) (token : Token) :
    Except ParseError Reading :=
  match word with
  | .keep => afterSelection stack g .keep .highest token
  | .select action rank => afterSelection stack g action rank token
  | .minimum => afterClamp stack g .minimum token
  | .maximum => afterClamp stack g .maximum token
  | .trigger t => afterTrigger stack g t token

def afterComparison (stack : List Frame) (g : DiceGroup) (t : Trigger) (c : Comparison)
    (token : Token) : Except ParseError Reading :=
  match token.kind with
  | .number n => .ok (modified stack g (t.modifier ⟨c, n⟩))
  | _ => unexpected [TokenKind.anyNumber] token

/-- Where a factor has to start. -/
def atStart (stack : List Frame) (token : Token) : Except ParseError Reading :=
  match token.kind with
  | .operator .sub => .ok (.unfinished (.negation :: stack) .start)
  | .number n => .ok (.unfinished stack (.number n token))
  | .dice => .ok (.unfinished stack (.diceSign .one))
  | .openParen => .ok (.unfinished (.parenthesis :: stack) .start)
  | _ => unexpected factorStarts token

/-- A number is a count when a `d` follows, and else a literal. A bad count is reported where it was
written. -/
def afterNumber (stack : List Frame) (n : Int) (written token : Token) :
    Except ParseError Reading :=
  match token.kind with
  | .dice =>
    match DiceCount.ofInt? n with
    | some count => .ok (.unfinished stack (.diceSign count))
    | none => .error (.atToken written .invalidDice)
  | .keyword _ => .error (.atToken token .modifierWithoutDice)
  | _ => afterFactor stack (.literal n) token

def afterDiceSign (stack : List Frame) (count : DiceCount) (token : Token) :
    Except ParseError Reading :=
  match token.kind with
  | .number n =>
    match Sides.ofInt? n with
    | some sides => .ok (.unfinished stack (.group ⟨count, sides, []⟩))
    | none => .error (.atToken token .invalidDice)
  | .percent => .ok (.unfinished stack (.group ⟨count, .percentile, []⟩))
  | _ => afterGroup stack ⟨count, .usual, []⟩ token

def afterClosed (stack : List Frame) (inner : Expr) (token : Token) : Except ParseError Reading :=
  match token.kind with
  | .keyword _ => .error (.atToken token .modifierWithoutDice)
  | _ => afterFactor stack inner token

def afterPhase (stack : List Frame) (phase : Phase) (token : Token) : Except ParseError Reading :=
  match phase with
  | .start => atStart stack token
  | .number n written => afterNumber stack n written token
  | .diceSign count => afterDiceSign stack count token
  | .group g => afterGroup stack g token
  | .keyword g word => afterKeyword stack g word token
  | .comparison g t c => afterComparison stack g t c token
  | .closed inner => afterClosed stack inner token

/-- Before the first token. -/
def initial : Reading := .unfinished [] .start

/-- Takes in one token. -/
def step : Reading → Token → Except ParseError Reading
  | finished e, _ => .ok (.finished e)
  | unfinished stack phase, token => afterPhase stack phase token

end Reading

/-- The expression that the tokens spell. Tokens that do not end the input are read as if the last of
them went on; it then closes what can be closed and is refused. -/
def ofTokens (tokens : List Token) : Except ParseError Expr :=
  match tokens.getLast? with
  | none => .error (.atToken ⟨.endOfInput, 0, 0⟩ (.unexpectedToken Reading.factorStarts))
  | some last => do
    match ← (tokens ++ List.replicate (tokens.length + 1) last).foldlM Reading.step .initial with
    | .finished e => .ok e
    | .unfinished .. => .error (.atToken last (.unexpectedToken []))

end Expr

end DiceNotation
