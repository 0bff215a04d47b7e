import Sequencer.Address
import Sequencer.Command
import Sequencer.CommandLine.Arguments
import Sequencer.CommandLine.Program
import Sequencer.CommandLine.Usage
import Sequencer.Config.Basic
import Sequencer.Config.Dotenv
import Sequencer.Config.Location
import Sequencer.Config.Setting
import Sequencer.Decimal.Binary64
import Sequencer.Decimal.Numeral
import Sequencer.Decimal.Shortest
import Sequencer.Engine
import Sequencer.Expr.Basic
import Sequencer.Expr.Eval
import Sequencer.Expr.Parser
import Sequencer.Files
import Sequencer.Frame
import Sequencer.Instruction
import Sequencer.Json.Decode
import Sequencer.Json.Syntax
import Sequencer.Machine
import Sequencer.Main
import Sequencer.Payload
import Sequencer.Perform
import Sequencer.Probe
import Sequencer.Properties
import Sequencer.Run
import Sequencer.Scope
import Sequencer.Stack
import Sequencer.Storage
import Sequencer.Table
import Sequencer.Template
import Sequencer.Text.Blank
import Sequencer.Text.Casing
import Sequencer.Text.Letters
import Sequencer.Text.Split
import Sequencer.Toml.Document
import Sequencer.Toml.Item
import Sequencer.Toml.Moment
import Sequencer.Toml.Scalar
import Sequencer.Toml.Tree
import Sequencer.Value.Basic
import Sequencer.Value.Path
import Sequencer.Value.Printer
import Sequencer.Proofs.Lifetime
import Sequencer.Proofs.Quiet
import Sequencer.Proofs.Pool
import Sequencer.Proofs.Accounting
import Sequencer.Proofs.Reachable
import Sequencer.Proofs.Derivation
import Sequencer.Proofs.Attempt
import Sequencer.Proofs.Schedule
import Sequencer.Proofs.ReferenceCounts
import Sequencer.Proofs.ScopeChain
import Sequencer.Proofs.Splitting
import Sequencer.Proofs.LoopNeutral
import Sequencer.Proofs.Lookup
import Sequencer.Proofs.Return
import Sequencer.Proofs.Printing
import Sequencer.Proofs.Reading
import Sequencer.Proofs.Writes
import Sequencer.Proofs.Footprint
import Sequencer.Proofs.Moments
import Sequencer.Proofs.Decoding
import Sequencer.Proofs.Callee
import Sequencer.Proofs.CalleeSteps
import Sequencer.Proofs.Containment
import Sequencer.Proofs.Breaks
import Sequencer.Proofs.Retention
import Sequencer.Proofs.Masking
import Sequencer.Proofs.Twins
import Sequencer.Proofs.Abreast
import Sequencer.Proofs.Lockstep
import Sequencer.Proofs.ForkJoin
import Sequencer.Proofs.Head
import Sequencer.Proofs.Checking
import Sequencer.Proofs.Snapshots
import Sequencer.Proofs.Levels
import Sequencer.Proofs.Scenes
import Sequencer.Proofs.Handles
import Sequencer.Proofs.Aborting
import Sequencer.Proofs.Memory
import Sequencer.Proofs.Failing
import Sequencer.Proofs.Paths
import Sequencer.Proofs.Homes
import Sequencer.Proofs.Races
import Sequencer.Proofs.Bodies
import Sequencer.Proofs.WhileLoop
import Sequencer.Proofs.RangeLoop
import Sequencer.Proofs.LoopResults
import Sequencer.Proofs.Retrying
import Sequencer.Proofs.Nesting
import Sequencer.Proofs.Turns
import Sequencer.Proofs.Restoring
import Sequencer.Proofs.Ledger
import Sequencer.Proofs.Standing
import Sequencer.Proofs.Endings
import Sequencer.Proofs.Activations
import Sequencer.Proofs.Breaking
import Sequencer.Proofs.AttemptBound
import Sequencer.Proofs.Grammar
import Sequencer.Proofs.Pairing
import Sequencer.Proofs.Parsing
import Sequencer.Proofs.Spacing
import Sequencer.Proofs.Placeholders
import Sequencer.Proofs.Selection
import Sequencer.Proofs.Dotted
import Sequencer.Proofs.Absence
import Sequencer.Proofs.Outside
import Sequencer.Proofs.Mentions
import Sequencer.Proofs.Delivery
import Sequencer.Proofs.Lens
import Sequencer.Proofs.Decorations
import Sequencer.Proofs.Removal
import Sequencer.Proofs.Instructions
import Sequencer.Proofs.Switching
import Sequencer.Proofs.Generations
import Sequencer.Proofs.Tenancy
import Sequencer.Proofs.Joining
import Sequencer.Proofs.Adding
import Sequencer.Proofs.Merging
import Sequencer.Proofs.Misuse
import Sequencer.Proofs.Marks
