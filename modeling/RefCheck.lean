import RefCheck.Main
import RefCheck.Walk.Trace
import RefCheck.Proofs.Script.Reading
import RefCheck.Proofs.Script.Shape
import RefCheck.Proofs.Script.Height
import RefCheck.Proofs.ModuleGraph.Reach
import RefCheck.Proofs.ModuleGraph.Search
import RefCheck.Proofs.ModuleGraph.Cycles
import RefCheck.Proofs.ModuleGraph.Dependencies
import RefCheck.Proofs.Script.Growth
import RefCheck.Proofs.Scope.Tables
import RefCheck.Proofs.Scope.Frames
import RefCheck.Proofs.Walk.Simulation
import RefCheck.Proofs.Program.Holding
import RefCheck.Proofs.Check.Mending
import RefCheck.Proofs.Walk.Scripts
import RefCheck.Proofs.Walk.Mentions
import RefCheck.Proofs.Check.Reference
import RefCheck.Proofs.Check.Tracking
import RefCheck.Proofs.Check.Outcome
import RefCheck.Proofs.Check.Externs
import RefCheck.Proofs.Check.Judgment
import RefCheck.Proofs.Program.Edits
import RefCheck.Proofs.Check.Reports
import RefCheck.Proofs.Check.Sessions
import RefCheck.Proofs.Check.Sanity
import RefCheck.Proofs.Check.Repaired
import RefCheck.Proofs.Check.Again
import RefCheck.Proofs.Scope.Declaring
import RefCheck.Proofs.Walk.Around
import RefCheck.Proofs.Walk.Meanings
import RefCheck.Proofs.Check.Ownership
import RefCheck.Proofs.Check.Located
import RefCheck.Proofs.Script.Links
import RefCheck.Proofs.Check.Integrity
import RefCheck.Proofs.Check.Unseen
import RefCheck.Proofs.Script.Derivation
import RefCheck.Proofs.Script.Taking
import RefCheck.Proofs.Script.Parsed
import RefCheck.Proofs.Script.Scanning
import RefCheck.Proofs.Script.Yield
import RefCheck.Proofs.Script.Printing
import RefCheck.Proofs.Script.Spelling
import RefCheck.Proofs.Script.Passing
import RefCheck.Proofs.Script.Printed
import RefCheck.Proofs.Script.RoundTrip
import RefCheck.Proofs.Walk.Arrivals
import RefCheck.Proofs.Check.Locality
import RefCheck.Proofs.Check.Levels
import RefCheck.Proofs.Check.Reordered
import RefCheck.Proofs.Check.Order
import RefCheck.Proofs.Script.Prescribed
import RefCheck.Proofs.Script.Echoing
import RefCheck.Proofs.Script.Noting
import RefCheck.Proofs.Check.Schema
import RefCheck.Proofs.Text.Lines
import RefCheck.Proofs.Report.Underline
import RefCheck.Proofs.Walk.Logged
import RefCheck.Proofs.Check.Appending
import RefCheck.Proofs.Scope.Layout
import RefCheck.Proofs.Script.Enclosing
import RefCheck.Proofs.Walk.Touring
import RefCheck.Proofs.Walk.Contract
import RefCheck.Proofs.Check.Walks
import RefCheck.Proofs.ModuleGraph.Discovery
import RefCheck.Proofs.Script.Partition
import RefCheck.Proofs.Script.Nesting
import RefCheck.Proofs.Program.Fresh
import RefCheck.Proofs.Script.Breaks
import RefCheck.Proofs.Script.Operators
import RefCheck.Proofs.Script.Moving
import RefCheck.Proofs.Script.Seams
import RefCheck.Proofs.Script.Carrying
import RefCheck.Proofs.Script.Joining
import RefCheck.Proofs.Script.Counting
import RefCheck.Proofs.Script.Counted
import RefCheck.Proofs.Script.Rescanning
import RefCheck.Proofs.Text.Positions
import RefCheck.Proofs.Project.Building
import RefCheck.Proofs.Report.Caches
import RefCheck.Proofs.Diagnostic.Filling
import RefCheck.Proofs.Json.Printed
import RefCheck.Proofs.Diagnostic.Json
import RefCheck.Proofs.Scope.Outwards
import RefCheck.Proofs.Walk.Tables
