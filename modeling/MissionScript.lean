import MissionScript.CommandLine.Program
import MissionScript.Main
import MissionScript.Proofs.Run.Results
import MissionScript.Proofs.Run.Correctness
import MissionScript.Proofs.Command.Described
import MissionScript.Proofs.Expression.Grammar
import MissionScript.Proofs.Expression.Tokens
import MissionScript.Proofs.Renaming.Arguments
import MissionScript.Proofs.Renaming.Body
import MissionScript.Proofs.Renaming.Command
import MissionScript.Proofs.Sequence.Enclosure
import MissionScript.Proofs.Mission.Blocks
import MissionScript.Proofs.Run.Safety
import MissionScript.Proofs.Run.Preparation
import MissionScript.Proofs.Renaming.Session
import MissionScript.Proofs.Run.Effort
import MissionScript.Proofs.Run.Limit
import MissionScript.Proofs.Run.Independence
import MissionScript.Proofs.Sequence.Editing
import MissionScript.Proofs.Sequence.History
import MissionScript.Proofs.Mission.Recovery
import MissionScript.Proofs.Script.Lines
import MissionScript.Proofs.Script.Retention
import MissionScript.Proofs.Script.Tiling
import MissionScript.Proofs.Script.Composition
import MissionScript.Proofs.Script.Shape
import MissionScript.Proofs.Script.Meaning
import MissionScript.Proofs.Script.Pieces
import MissionScript.Proofs.Script.Layout
import MissionScript.Proofs.Script.Spacing
import MissionScript.Proofs.Sequence.Failure
import MissionScript.Proofs.Expression.Printed
import MissionScript.Proofs.Run.Settings
import MissionScript.Proofs.Sequence.Descent
import MissionScript.Proofs.Sequence.Ownership
import MissionScript.Proofs.Sequence.Traversal
import MissionScript.Proofs.Sequence.Stretch
import MissionScript.Proofs.Sequence.Extraction
import MissionScript.Proofs.Sequence.Removed
import MissionScript.Proofs.Sequence.Cleared
import MissionScript.Proofs.Sequence.Checking
import MissionScript.Proofs.Bracket.Outermost
import MissionScript.Proofs.Script.Idempotence
import MissionScript.Proofs.Script.Separation
import MissionScript.Proofs.Script.Rejoining
import MissionScript.Proofs.Objects.Evaluation
import MissionScript.Proofs.Expression.Displayed
import MissionScript.Proofs.Renaming.Reference
import MissionScript.Proofs.Command.Condition
import MissionScript.Proofs.Command.SolverCall
import MissionScript.Proofs.Mission.Creation
import MissionScript.Proofs.Run.Cells
import MissionScript.Proofs.Run.Optimization
import MissionScript.Proofs.Renaming.Runs
import MissionScript.Proofs.Sequence.Order
import MissionScript.Proofs.Sequence.Freed
import MissionScript.Proofs.Script.Blankness
import MissionScript.Proofs.Bytewise.Command
