import Folio.Main
import Folio.Proofs.Text.Pieces
import Folio.Proofs.Text.Trim
import Folio.Proofs.Text.Utf8
import Folio.Proofs.Glob.Reads
import Folio.Proofs.Glob.Unguarded
import Folio.Proofs.Glob.Escape
import Folio.Proofs.Rule.Segment
import Folio.Proofs.Rule.Segments
import Folio.Proofs.Rule.Meaning
import Folio.Proofs.Rule.Negation
import Folio.Proofs.Rule.Scope
import Folio.Proofs.Rule.Verdict
import Folio.Proofs.Rule.Confinement
import Folio.Proofs.Disk.Tree
import Folio.Proofs.Disk.Step
import Folio.Proofs.Disk.Loss
import Folio.Proofs.Path.Below
import Folio.Proofs.Path.Inside
import Folio.Proofs.Disk.Twins
import Folio.Proofs.Walk.Listing
import Folio.Proofs.Walk.Pruned
import Folio.Proofs.Walk.Copies
import Folio.Proofs.Target.Search
import Folio.Proofs.Target.Way
import Folio.Proofs.Target.Within
import Folio.Proofs.Collection.Kept
import Folio.Proofs.Collection.WholeTree
import Folio.Proofs.Collection.Targets
import Folio.Proofs.Collection.Pruning
import Folio.Proofs.Collection.Location
import Folio.Proofs.Rule.Cascade
import Folio.Proofs.Markup.Reading
import Folio.Proofs.Markup.Sections
import Folio.Proofs.Document.Reading
import Folio.Proofs.Document.Batches
import Folio.Proofs.Language.Mapping
import Folio.Proofs.CommandLine.Settings
import Folio.Proofs.Run.Loss
import Folio.Proofs.CommandLine.Outcome
import Folio.Proofs.Outline.Placement
import Folio.Proofs.Outline.Reading
import Folio.Proofs.Rule.Bracket
import Folio.Proofs.Rule.Pieces
import Folio.Proofs.Rule.Literal
import Folio.Proofs.Rule.Overruling
import Folio.Proofs.Rule.VersionControl
import Folio.Proofs.Collection.MoreRules
import Folio.Proofs.Collection.Joined
import Folio.Proofs.Disk.Travel
import Folio.Proofs.Walk.Files
import Folio.Proofs.Disk.Cleaning
import Folio.Proofs.Collection.RealFiles
import Folio.Proofs.Walk.Order
import Folio.Proofs.Rule.Gathered
import Folio.Proofs.Rule.Stars
import Folio.Proofs.Language.Detection
import Folio.Proofs.Document.Emit
import Folio.Proofs.Path.Written
import Folio.Proofs.Collection.Names
import Folio.Proofs.Target.Reached
import Folio.Proofs.Rule.File
import Folio.Proofs.Walk.Start
import Folio.Proofs.Collection.Accounts
import Folio.Proofs.Language.Shebang
import Folio.Proofs.Text.Lowercase
import Folio.Proofs.Language.Extensions
import Folio.Proofs.Calendar.Days
import Folio.Proofs.Calendar.Padding
import Folio.Proofs.Calendar.Timestamp
import Folio.Proofs.Document.Lines
import Folio.Proofs.Document.Modified
import Folio.Proofs.Document.Undated
