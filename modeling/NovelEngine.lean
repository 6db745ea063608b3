import NovelEngine.Asset.Animation
import NovelEngine.Asset.Model
import NovelEngine.Asset.Playback
import NovelEngine.Asset.Reader
import NovelEngine.Bytes
import NovelEngine.CommandLine
import NovelEngine.Ident
import NovelEngine.Machine.Basic
import NovelEngine.Machine.Recorder
import NovelEngine.Machine.Schedule
import NovelEngine.Machine.Stage
import NovelEngine.Machine.Turn
import NovelEngine.Main
import NovelEngine.Note
import NovelEngine.Numeric.Geometry
import NovelEngine.Numeric.Hex
import NovelEngine.Numeric.Single
import NovelEngine.Numeric.Trig
import NovelEngine.Project.Basic
import NovelEngine.Project.Config
import NovelEngine.Project.FileTree
import NovelEngine.Project.Path
import NovelEngine.Scene.Basic
import NovelEngine.Scene.Loads
import NovelEngine.Script.Container
import NovelEngine.Script.Cursor
import NovelEngine.Script.Defect
import NovelEngine.Script.Expression
import NovelEngine.Script.Globals
import NovelEngine.Script.Instruction
import NovelEngine.Session
import NovelEngine.Slot
import NovelEngine.SlotMap
import NovelEngine.Text.Blank
import NovelEngine.Text.Visible
import NovelEngine.Thread.Arena
import NovelEngine.Thread.Basic
import NovelEngine.Toml.Document
import NovelEngine.Toml.Lexeme
import NovelEngine.Toml.Value
import NovelEngine.Proofs.Expression.Arithmetic
import NovelEngine.Proofs.Expression.Tree
import NovelEngine.Proofs.Expression.Lexing
import NovelEngine.Proofs.Expression.Evaluation
import NovelEngine.Proofs.Loads.History
import NovelEngine.Proofs.Loads.Supersession
import NovelEngine.Proofs.Thread.Arena
import NovelEngine.Proofs.Machine.Surroundings
import NovelEngine.Proofs.Machine.Tick
import NovelEngine.Proofs.Machine.Pool
import NovelEngine.Proofs.Machine.Store
import NovelEngine.Proofs.Machine.Run
import NovelEngine.Proofs.Machine.Preemption
import NovelEngine.Proofs.Loads.Accounting
import NovelEngine.Proofs.Loads.Provenance
import NovelEngine.Proofs.Machine.Staging
import NovelEngine.Proofs.Scene.History
import NovelEngine.Proofs.Scene.Agreement
import NovelEngine.Proofs.Scene.Intents
import NovelEngine.Proofs.Scene.Waiting
import NovelEngine.Proofs.Scene.Adoption
import NovelEngine.Proofs.Machine.Course
import NovelEngine.Proofs.Machine.Order
import NovelEngine.Proofs.Machine.Seniority
import NovelEngine.Proofs.Asset.Clips
import NovelEngine.Proofs.Loads.Workers
import NovelEngine.Proofs.Asset.Models
import NovelEngine.Proofs.Machine.Progress
import NovelEngine.Proofs.Machine.Annals
import NovelEngine.Proofs.Loads.Handles
import NovelEngine.Proofs.Machine.Handles
import NovelEngine.Proofs.Machine.Composition
import NovelEngine.Proofs.Script.Parsing
import NovelEngine.Proofs.Thread.Tenants
import NovelEngine.Proofs.Machine.Confinement
import NovelEngine.Proofs.Machine.Calls
import NovelEngine.Proofs.Machine.Whereabouts
import NovelEngine.Proofs.Thread.Gains
import NovelEngine.Proofs.Machine.Turns
import NovelEngine.Proofs.Machine.Isolation
import NovelEngine.Proofs.Machine.Origins
import NovelEngine.Proofs.Machine.Blocking
import NovelEngine.Proofs.Machine.Operands
import NovelEngine.Proofs.Machine.States
import NovelEngine.Proofs.Machine.Resumption
import NovelEngine.Proofs.Machine.Failures
import NovelEngine.Proofs.Machine.Halting
import NovelEngine.Proofs.Machine.Skipping
import NovelEngine.Proofs.Thread.Amending
import NovelEngine.Proofs.Machine.Amending
import NovelEngine.Proofs.Machine.Faulting
import NovelEngine.Proofs.Script.Acceptance
import NovelEngine.Proofs.Asset.Checks
import NovelEngine.Proofs.Asset.KeyOrder
import NovelEngine.Proofs.Machine.Settlement
import NovelEngine.Proofs.Script.Building
import NovelEngine.Proofs.Asset.Consistency
import NovelEngine.Proofs.Asset.Extent
import NovelEngine.Proofs.Asset.Cutting
import NovelEngine.Proofs.Asset.Rewriting
import NovelEngine.Proofs.Asset.Poses
import NovelEngine.Proofs.Asset.Selection
import NovelEngine.Proofs.Machine.Visits
import NovelEngine.Proofs.Machine.Idling
import NovelEngine.Proofs.Machine.Awaiting
import NovelEngine.Proofs.Thread.Nesting
import NovelEngine.Proofs.Machine.Returns
import NovelEngine.Proofs.Machine.Nesting
import NovelEngine.Proofs.Script.Banks
import NovelEngine.Proofs.Thread.Register
import NovelEngine.Proofs.Machine.Directives
import NovelEngine.Proofs.Machine.Rounds
