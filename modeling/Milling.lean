import Milling.Arc
import Milling.Binary64.Exact
import Milling.Binary64.Order
import Milling.Binary64.Plane
import Milling.Block.Comment
import Milling.Block.Number
import Milling.Block.Reading
import Milling.Block.Word
import Milling.Command
import Milling.CommandLine.Answer
import Milling.CommandLine.Listing
import Milling.CommandLine.Request
import Milling.Data.Datum
import Milling.Data.Geometry
import Milling.Data.Program
import Milling.Data.Report
import Milling.Decimal.Basic
import Milling.Decimal.Layout
import Milling.Decimal.Literal
import Milling.Decimal.Shortest
import Milling.Files.Fault
import Milling.Files.Path
import Milling.Files.Tree
import Milling.Json.Number
import Milling.Json.Reader
import Milling.Json.Token
import Milling.Json.Writer
import Milling.Lint.Check
import Milling.Lint.Issue
import Milling.Lint.Pattern
import Milling.Main
import Milling.Motion
import Milling.Playback
import Milling.Preferences.Basic
import Milling.Preferences.Fault
import Milling.Preferences.File
import Milling.Preferences.Material
import Milling.Preferences.Visibility
import Milling.Preferences.Workpiece
import Milling.Program.Basic
import Milling.Program.Compile
import Milling.Proofs.Arc.FullTurn
import Milling.Proofs.Arc.Sweep
import Milling.Proofs.Binary64.Arithmetic
import Milling.Proofs.Binary64.Format
import Milling.Proofs.Binary64.Fraction
import Milling.Proofs.Binary64.Interpolation
import Milling.Proofs.Binary64.Literal
import Milling.Proofs.Binary64.Magnitude
import Milling.Proofs.Binary64.Order
import Milling.Proofs.Binary64.Plane
import Milling.Proofs.Binary64.Rounding
import Milling.Proofs.Binary64.Shift
import Milling.Proofs.Binary64.Sign
import Milling.Proofs.Binary64.Sum
import Milling.Proofs.Binary64.Value
import Milling.Proofs.Block.Comment
import Milling.Proofs.Block.Fields
import Milling.Proofs.Block.LetterCase
import Milling.Proofs.Block.Number
import Milling.Proofs.Block.Stripped
import Milling.Proofs.Block.Word
import Milling.Proofs.Data.Plain
import Milling.Proofs.Data.Records
import Milling.Proofs.Data.Stable
import Milling.Proofs.Decimal.Digits
import Milling.Proofs.Decimal.Literal
import Milling.Proofs.Decimal.Shortest
import Milling.Proofs.Decimal.Value
import Milling.Proofs.Files.Tree
import Milling.Proofs.Json.Finite
import Milling.Proofs.Json.Literal
import Milling.Proofs.Json.Number
import Milling.Proofs.Json.Pretty
import Milling.Proofs.Json.Reader
import Milling.Proofs.Json.Token
import Milling.Proofs.Lint.Check
import Milling.Proofs.Lint.Cutting
import Milling.Proofs.Lint.History
import Milling.Proofs.Lint.Layout
import Milling.Proofs.Lint.LetterCase
import Milling.Proofs.Lint.Pattern
import Milling.Proofs.Playback
import Milling.Proofs.Playback.Position
import Milling.Proofs.Playback.Reachable
import Milling.Proofs.Playback.Sound
import Milling.Proofs.Playback.Ticks
import Milling.Proofs.Preferences.File
import Milling.Proofs.Preferences.Loaded
import Milling.Proofs.Preferences.Partial
import Milling.Proofs.Preferences.Refusal
import Milling.Proofs.Preferences.Restart
import Milling.Proofs.Preferences.Stored
import Milling.Proofs.Program.Bounds
import Milling.Proofs.Program.Geometry
import Milling.Proofs.Program.Insertion
import Milling.Proofs.Program.Lookup
import Milling.Proofs.Program.Modal
import Milling.Proofs.Program.Prefix
import Milling.Proofs.Program.Remark
import Milling.Proofs.Program.Segments
import Milling.Proofs.Program.SourceMap
import Milling.Proofs.Program.Steps
import Milling.Proofs.Scene.Colour
import Milling.Proofs.Scene.Depth
import Milling.Proofs.Scene.Progress
import Milling.Proofs.Scene.Status
import Milling.Proofs.Session.Consistent
import Milling.Proofs.Session.Failure
import Milling.Proofs.Session.Marks
import Milling.Proofs.Session.Persist
import Milling.Proofs.Session.Refusal
import Milling.Proofs.Session.Snapshot
import Milling.Proofs.Session.WriteThrough
import Milling.Proofs.Simulation
import Milling.Proofs.Space.Extremes
import Milling.Proofs.Spelling
import Milling.Proofs.Store
import Milling.Proofs.Text.Blank
import Milling.Proofs.Text.LetterCase
import Milling.Proofs.Text.Lines
import Milling.Proofs.Text.Match
import Milling.Proofs.Timing
import Milling.Proofs.Toml.Document
import Milling.Proofs.Toml.Line
import Milling.Proofs.Toml.Number
import Milling.Proofs.Toml.Quoted
import Milling.Proofs.Totals
import Milling.Scene.Depth
import Milling.Scene.Status
import Milling.Scene.Stock
import Milling.Session.Action
import Milling.Session.Basic
import Milling.Session.Kept
import Milling.Session.Mark
import Milling.Simulation
import Milling.Space.Box
import Milling.Space.Point
import Milling.Store.Basic
import Milling.Store.Snapshot
import Milling.Template.Contour
import Milling.Template.Drilling
import Milling.Template.Facing
import Milling.Template.Library
import Milling.Template.Pocket
import Milling.Template.Sample
import Milling.Text.Blank
import Milling.Text.Digit
import Milling.Text.Hex
import Milling.Timing
import Milling.Toml.Node
import Milling.Toml.Number
import Milling.Toml.Quoted
import Milling.Toml.Reader
import Milling.Toml.Writer
import Milling.Totals
import Milling.Units
