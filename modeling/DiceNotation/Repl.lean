import DiceNotation.Binary64
import DiceNotation.Distribution.Figures
import DiceNotation.Report
import DiceNotation.Text.Blank

/-!
# The interactive command line

Each line is an expression to roll, or `:dist` and an expression whose distribution is shown. An empty
line does nothing. The prompt is written at the start and after every line.
-/

namespace DiceNotation.Repl

/-- What is written for one line: the answer, or the error on the other stream. -/
structure Output where
  answer : String
  error : String
  deriving DecidableEq, Repr

namespace Output

def silent : Output := ⟨"", ""⟩

def ofResult : Except Error String → Output
  | .ok text => ⟨text ++ "\n", ""⟩
  | .error e => ⟨"", "Error: " ++ e.message ++ "\n"⟩

end Output

def prompt : String := "> "

/-- The word that asks for a distribution. -/
def distributionWord : List Char := ":dist".toList

variable {ρ : Type} [Roller ρ]

/-- Rolls an expression and shows what it rolled. -/
def rollLine (text : String) (roller : ρ) : Except Error String × ρ :=
  match Expr.parse text with
  | .error e => (.error e, roller)
  | .ok e =>
    match e.rollResult roller .usual with
    | (.error error, roller) => (.error (.roll error), roller)
    | (.ok r, roller) => (.ok (Style.markdown.line e r), roller)

/-- An outcome and its share in percent, in columns. -/
def outcomeLine (total : Float) (entry : Int × Nat) : String :=
  Binary64.padLeft ' ' 6 (toString entry.1) ++ " " ++
    Binary64.padLeft ' ' 8 (Binary64.fixed 4 (Binary64.ofNat entry.2 / total * 100)) ++ "%\n"

/-- The distribution of an expression as a table, closed by the mean. -/
def distributionTable (d : Distribution) : String :=
  String.join (d.toList.map (outcomeLine (Binary64.ofNat d.total))) ++ "mean " ++
    Binary64.fixed 4 d.mean

/-- The output for one line, and the roller afterwards. -/
def respond (line : String) (roller : ρ) : Output × ρ :=
  let command := Text.trim line.toList
  if command.isEmpty then (.silent, roller)
  else if distributionWord.isPrefixOf command then
    let text := String.ofList (Text.trim (command.drop distributionWord.length))
    (.ofResult ((distributionOfText text .usual).map distributionTable), roller)
  else
    let (result, roller) := rollLine (String.ofList command) roller
    (.ofResult result, roller)

/-- The lines of a text; a line feed ends a line, so nothing follows the last one. -/
def linesOf (input : String) : List String :=
  let lines := input.splitOn "\n"
  if lines.getLast? = some "" then lines.dropLast else lines

/-- All output of a session with the given lines, the prompts included. -/
def transcript (lines : List String) (roller : ρ) : Output :=
  let start : Output × ρ := (⟨prompt, ""⟩, roller)
  (lines.foldl
    (fun (state : Output × ρ) line =>
      let (new, roller) := respond line state.2
      (⟨state.1.answer ++ new.answer ++ prompt, state.1.error ++ new.error⟩, roller))
    start).1

end DiceNotation.Repl
