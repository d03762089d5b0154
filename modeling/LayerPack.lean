import LayerPack.Archive.Digest
import LayerPack.Archive.EntryName
import LayerPack.Archive.Limits
import LayerPack.Archive.Write
import LayerPack.Command
import LayerPack.CommandLine.Args
import LayerPack.CommandLine.Choice
import LayerPack.CommandLine.Execute
import LayerPack.CommandLine.Parser
import LayerPack.CommandLine.Report
import LayerPack.CommandLine.Terminal
import LayerPack.Disk.Calls
import LayerPack.Disk.Lookup
import LayerPack.Disk.Node
import LayerPack.Disk.SystemError
import LayerPack.Disk.Walk
import LayerPack.Error
import LayerPack.Hash.Crc32
import LayerPack.Hash.Sha256
import LayerPack.Host.Files
import LayerPack.Host.Program
import LayerPack.Host.Request
import LayerPack.Lock
import LayerPack.Machine.Basic
import LayerPack.Machine.Launch
import LayerPack.Machine.Script
import LayerPack.Main
import LayerPack.Path.Basic
import LayerPack.Pipeline.Materialize
import LayerPack.Pipeline.Run
import LayerPack.Pipeline.Stage
import LayerPack.Project.Frontend
import LayerPack.Project.LayerConfig
import LayerPack.Project.Load
import LayerPack.Project.Metadata
import LayerPack.Project.Name
import LayerPack.Project.SetupCfg
import LayerPack.Proofs.Archive.Agreement
import LayerPack.Proofs.Archive.Atomicity
import LayerPack.Proofs.Archive.Chunks
import LayerPack.Proofs.Archive.Contents
import LayerPack.Proofs.Archive.Delivery
import LayerPack.Proofs.Archive.Encoding
import LayerPack.Proofs.Archive.EntryName
import LayerPack.Proofs.Archive.Extraction
import LayerPack.Proofs.Archive.Failure
import LayerPack.Proofs.Archive.Fingerprint
import LayerPack.Proofs.Archive.Hidden
import LayerPack.Proofs.Archive.Location
import LayerPack.Proofs.Archive.Naming
import LayerPack.Proofs.Archive.Reading
import LayerPack.Proofs.Archive.Residue
import LayerPack.Proofs.Archive.Verdict
import LayerPack.Proofs.Archive.Weight
import LayerPack.Proofs.Archive.Writing
import LayerPack.Proofs.CommandLine.Opening
import LayerPack.Proofs.CommandLine.Precedence
import LayerPack.Proofs.CommandLine.Preparing
import LayerPack.Proofs.CommandLine.Rejection
import LayerPack.Proofs.CommandLine.Requests
import LayerPack.Proofs.CommandLine.Status
import LayerPack.Proofs.CommandLine.Streams
import LayerPack.Proofs.CommandLine.Verdict
import LayerPack.Proofs.Disk.Alike
import LayerPack.Proofs.Disk.Ascent
import LayerPack.Proofs.Disk.Bare
import LayerPack.Proofs.Disk.Below
import LayerPack.Proofs.Disk.Calls
import LayerPack.Proofs.Disk.Decide
import LayerPack.Proofs.Disk.Filed
import LayerPack.Proofs.Disk.Lead
import LayerPack.Proofs.Disk.Leaves
import LayerPack.Proofs.Disk.Listing
import LayerPack.Proofs.Disk.Lookup
import LayerPack.Proofs.Disk.Order
import LayerPack.Proofs.Disk.Parallel
import LayerPack.Proofs.Disk.Plant
import LayerPack.Proofs.Disk.Reach
import LayerPack.Proofs.Disk.Renewal
import LayerPack.Proofs.Disk.Seat
import LayerPack.Proofs.Disk.Spelled
import LayerPack.Proofs.Disk.Stop
import LayerPack.Proofs.Disk.Stride
import LayerPack.Proofs.Disk.Tree
import LayerPack.Proofs.Disk.Unused
import LayerPack.Proofs.Hash.Streaming
import LayerPack.Proofs.Host.Agreement
import LayerPack.Proofs.Host.Buffer
import LayerPack.Proofs.Host.Directories
import LayerPack.Proofs.Host.Growth
import LayerPack.Proofs.Host.Requests
import LayerPack.Proofs.Host.Walk
import LayerPack.Proofs.Lock.Beside
import LayerPack.Proofs.Lock.Crew
import LayerPack.Proofs.Lock.Discipline
import LayerPack.Proofs.Lock.Exclusion
import LayerPack.Proofs.Machine.Answers
import LayerPack.Proofs.Machine.Finding
import LayerPack.Proofs.Machine.Form
import LayerPack.Proofs.Machine.Losses
import LayerPack.Proofs.Machine.Twin
import LayerPack.Proofs.Path.Descend
import LayerPack.Proofs.Path.Parts
import LayerPack.Proofs.Pipeline.Calls
import LayerPack.Proofs.Pipeline.Cause
import LayerPack.Proofs.Pipeline.Clearing
import LayerPack.Proofs.Pipeline.Course
import LayerPack.Proofs.Pipeline.Dist
import LayerPack.Proofs.Pipeline.Emptied
import LayerPack.Proofs.Pipeline.Fate
import LayerPack.Proofs.Pipeline.Frame
import LayerPack.Proofs.Pipeline.Independence
import LayerPack.Proofs.Pipeline.Leftovers
import LayerPack.Proofs.Pipeline.Lockstep
import LayerPack.Proofs.Pipeline.Mark
import LayerPack.Proofs.Pipeline.Outcome
import LayerPack.Proofs.Pipeline.Passage
import LayerPack.Proofs.Pipeline.Provenance
import LayerPack.Proofs.Pipeline.Refresh
import LayerPack.Proofs.Pipeline.Renewal
import LayerPack.Proofs.Pipeline.Requests
import LayerPack.Proofs.Pipeline.Stages
import LayerPack.Proofs.Pipeline.State
import LayerPack.Proofs.Pipeline.Steps
import LayerPack.Proofs.Pipeline.Untouched
import LayerPack.Proofs.Pipeline.Vacancy
import LayerPack.Proofs.Pipeline.Whole
import LayerPack.Proofs.Program.Abreast
import LayerPack.Proofs.Program.Requests
import LayerPack.Proofs.Project.Declaration
import LayerPack.Proofs.Project.Discovery
import LayerPack.Proofs.Project.Indentation
import LayerPack.Proofs.Project.Layer
import LayerPack.Proofs.Project.Name
import LayerPack.Proofs.Project.Pyproject
import LayerPack.Proofs.Project.Separators
import LayerPack.Proofs.Settings.Acceptance
import LayerPack.Proofs.Settings.Accepted
import LayerPack.Proofs.Settings.Apart
import LayerPack.Proofs.Settings.DefaultOutput
import LayerPack.Proofs.Settings.Grounds
import LayerPack.Proofs.Text.Json
import LayerPack.Proofs.Text.Lines
import LayerPack.Proofs.Text.Lowercase
import LayerPack.Proofs.Text.Order
import LayerPack.Proofs.Text.Sigma
import LayerPack.Proofs.Text.Utf8
import LayerPack.Proofs.Toml.Order
import LayerPack.Proofs.Wheel.Belonging
import LayerPack.Proofs.Wheel.Selection
import LayerPack.Proofs.Wheel.Shown
import LayerPack.Proofs.Wheel.Version
import LayerPack.Proofs.Workspace.Confinement
import LayerPack.Proofs.Workspace.Fresh
import LayerPack.Proofs.Workspace.Reset
import LayerPack.Proofs.Zip.ReadBack
import LayerPack.RunError
import LayerPack.Settings.Basic
import LayerPack.Settings.Options
import LayerPack.Shell.Arithmetic
import LayerPack.Shell.Builtin
import LayerPack.Shell.Condition
import LayerPack.Shell.Evaluate
import LayerPack.Shell.Expansion
import LayerPack.Shell.Form
import LayerPack.Shell.Lexer
import LayerPack.Shell.Parser
import LayerPack.Shell.Pattern
import LayerPack.Shell.Printing
import LayerPack.Shell.Redirection
import LayerPack.Shell.State
import LayerPack.Shell.Tool
import LayerPack.Text.Blank
import LayerPack.Text.CaseTable
import LayerPack.Text.Decimal
import LayerPack.Text.EscapeTable
import LayerPack.Text.Json
import LayerPack.Text.Lowercase
import LayerPack.Text.Quoted
import LayerPack.Text.Timestamp
import LayerPack.Text.Utf8
import LayerPack.Toml.Document
import LayerPack.Toml.Moment
import LayerPack.Toml.Parser
import LayerPack.Toml.Value
import LayerPack.Toolchain.Basic
import LayerPack.Toolchain.Capture
import LayerPack.Toolchain.Interpreter
import LayerPack.Toolchain.Pip
import LayerPack.Wheel.Name
import LayerPack.Wheel.Select
import LayerPack.Workspace
import LayerPack.Zip.Deflate
import LayerPack.Zip.Number
import LayerPack.Zip.Reader
import LayerPack.Zip.Writer
