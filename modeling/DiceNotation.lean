import DiceNotation.Json.Results
import DiceNotation.Limits.Reader
import DiceNotation.Main
import DiceNotation.Proofs.Brackets
import DiceNotation.Proofs.Breakdowns.Annotations
import DiceNotation.Proofs.Breakdowns.BoldFaces
import DiceNotation.Proofs.Distribution.Exactness
import DiceNotation.Proofs.Distribution.NotedTables
import DiceNotation.Proofs.Distribution.Orders
import DiceNotation.Proofs.Distribution.Sequences
import DiceNotation.Proofs.Distribution.TableSizes
import DiceNotation.Proofs.Distribution.TooManyOutcomes
import DiceNotation.Proofs.ExactArithmetic
import DiceNotation.Proofs.Explosions.Generations
import DiceNotation.Proofs.RaisedLimits.Counting
import DiceNotation.Proofs.Reader.Parentheses
import DiceNotation.Proofs.Reader.ViablePrefix
import DiceNotation.Proofs.Replay
import DiceNotation.Proofs.Rerolls
import DiceNotation.Proofs.Rerolls.Settling
import DiceNotation.Proofs.Results.Partition
import DiceNotation.Proofs.Results.Refolding
import DiceNotation.Proofs.RollCap
import DiceNotation.Proofs.Rolls.AnyRoller
import DiceNotation.Proofs.Rolls.ClampsFirst
import DiceNotation.Proofs.Rolls.Conservation
import DiceNotation.Proofs.Rolls.Counters
import DiceNotation.Proofs.Rolls.Cycling
import DiceNotation.Proofs.Rolls.Moments
import DiceNotation.Proofs.Rolls.Rankings
import DiceNotation.Proofs.Rolls.SafeSums
import DiceNotation.Proofs.RoundTrip
import DiceNotation.Proofs.Scanning.Blanks
import DiceNotation.Proofs.Scanning.MaximalMunch
import DiceNotation.Session
