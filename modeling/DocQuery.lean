import DocQuery.CommandLine
import DocQuery.Engine
import DocQuery.Eval.Ambient
import DocQuery.Main
import DocQuery.Proofs.Cursor
import DocQuery.Proofs.DistinctValues
import DocQuery.Proofs.Embedding
import DocQuery.Proofs.Faithful
import DocQuery.Proofs.FieldUse
import DocQuery.Proofs.Filters
import DocQuery.Proofs.Flattening
import DocQuery.Proofs.IntegerArithmetic
import DocQuery.Proofs.JsonText
import DocQuery.Proofs.Literals
import DocQuery.Proofs.Locations
import DocQuery.Proofs.MergedDocuments
import DocQuery.Proofs.NameText
import DocQuery.Proofs.Parentheses
import DocQuery.Proofs.Patterns
import DocQuery.Proofs.Progress
import DocQuery.Proofs.Ranges
import DocQuery.Proofs.Reduction
import DocQuery.Proofs.RoundTrip
import DocQuery.Proofs.RunningTotals
import DocQuery.Proofs.Runs
import DocQuery.Proofs.Separators
import DocQuery.Proofs.Sessions
import DocQuery.Proofs.SortedElements
import DocQuery.Proofs.TextPieces
import DocQuery.Proofs.Tiling
import DocQuery.Proofs.ValueOrder
import DocQuery.Proofs.WrittenDates
