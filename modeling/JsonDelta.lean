import JsonDelta.Document.Distinct
import JsonDelta.Main
import JsonDelta.Proofs.Document.Equality
import JsonDelta.Proofs.Matching
import JsonDelta.Proofs.Document.Equivalence
import JsonDelta.Proofs.Document.Hash
import JsonDelta.Proofs.Document.AnyOrder
import JsonDelta.Proofs.Diff.Alignment
import JsonDelta.Proofs.Diff.Emptiness
import JsonDelta.Proofs.Diff.Replay
import JsonDelta.Proofs.Diff.Revision
import JsonDelta.Proofs.Diff.Progress
import JsonDelta.Proofs.Diff.Reconstruction
import JsonDelta.Proofs.Matching.Scan
import JsonDelta.Proofs.Document.Scan
import JsonDelta.Proofs.Document.Symmetry
import JsonDelta.Proofs.Document.Rearrangement
import JsonDelta.Proofs.Diff.Location
import JsonDelta.Proofs.Diff.Rearrangement
import JsonDelta.Proofs.Comparison
import JsonDelta.Proofs.Document.InPlace
import JsonDelta.Proofs.Diff.InPlace
import JsonDelta.Proofs.Document.KeyOrder
import JsonDelta.Proofs.Diff.KeyOrder
import JsonDelta.Proofs.Document.Without
import JsonDelta.Proofs.Document.KeyPath
import JsonDelta.Proofs.Diff.Ignored
import JsonDelta.Proofs.Report.Entry
import JsonDelta.Proofs.Report.Render
import JsonDelta.Proofs.Comparison.Verdict
import JsonDelta.Proofs.Document.Commute
import JsonDelta.Proofs.Comparison.Ignored
import JsonDelta.Proofs.Diff.Leftovers
import JsonDelta.Proofs.Binary64
import JsonDelta.Proofs.Number
import JsonDelta.Proofs.Document.Alike
import JsonDelta.Proofs.Diff.Alike
import JsonDelta.Proofs.Path.Accessor
import JsonDelta.Proofs.FileTree
import JsonDelta.Proofs.Pairing
import JsonDelta.Proofs.Run
import JsonDelta.Proofs.Document.Order
import JsonDelta.Proofs.Diff.Steps
import JsonDelta.Proofs.Diff.Comparisons
import JsonDelta.Proofs.Diff.OldOrder
import JsonDelta.Proofs.Diff.Places
import JsonDelta.Proofs.Diff.Mirror
import JsonDelta.Proofs.Diff.Items
import JsonDelta.Proofs.Document.Deletion
import JsonDelta.Proofs.Diff.Moves
import JsonDelta.Proofs.Path.Spelling
import JsonDelta.Proofs.Report.Suppression
import JsonDelta.Proofs.Document.Store
import JsonDelta.Proofs.Decimal
import JsonDelta.Proofs.Path.Groups
import JsonDelta.Proofs.Path.Index
import JsonDelta.Proofs.Report.Truncation
import JsonDelta.Proofs.Report.Nesting
import JsonDelta.Proofs.Report.Locations
import JsonDelta.Proofs.Report.Lines
import JsonDelta.Proofs.Report.Outline
import JsonDelta.Proofs.Document.Printable
import JsonDelta.Proofs.Report.Flat
import JsonDelta.Proofs.Color
import JsonDelta.Proofs.Report.Coloring
import JsonDelta.Proofs.Text.Bytes
import JsonDelta.Proofs.Document.Preview
import JsonDelta.Proofs.Run.Pair
import JsonDelta.Proofs.Pairing.Listing
import JsonDelta.Proofs.IgnoreList
import JsonDelta.Proofs.CommandLine
import JsonDelta.Proofs.Report.Ending
import JsonDelta.Proofs.Run.Details
