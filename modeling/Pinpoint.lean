import Pinpoint.BinaryName.Rank
import Pinpoint.BinaryName.Reading
import Pinpoint.BinaryName.Segment
import Pinpoint.ClassFile.Event
import Pinpoint.ClassFile.Instruction
import Pinpoint.ClassFile.MethodTable
import Pinpoint.ClassFile.OffsetIndex
import Pinpoint.ClassFile.Record
import Pinpoint.CommandLine.Arguments
import Pinpoint.CommandLine.FileTree
import Pinpoint.CommandLine.Respond
import Pinpoint.Criterion.Basic
import Pinpoint.Criterion.Receiver
import Pinpoint.Document.Criterion
import Pinpoint.Document.Event
import Pinpoint.Document.Fields
import Pinpoint.Document.Outline
import Pinpoint.Failure
import Pinpoint.Json.Number
import Pinpoint.Json.Reader
import Pinpoint.Json.Value
import Pinpoint.Json.Writer
import Pinpoint.Main
import Pinpoint.Method.Key
import Pinpoint.Method.Signature
import Pinpoint.Offsets
import Pinpoint.Sites
import Pinpoint.Sorted
import Pinpoint.Source.Building
import Pinpoint.Source.Kind
import Pinpoint.Source.Outline
import Pinpoint.Source.Path
import Pinpoint.Source.Tree
import Pinpoint.Text
import Pinpoint.UnitFacts
import Pinpoint.Proofs.Source.Growth
import Pinpoint.Proofs.Source.Lineage
import Pinpoint.Proofs.Source.Preorder
import Pinpoint.Proofs.BinaryName.Rank
import Pinpoint.Proofs.BinaryName.Segment
import Pinpoint.Proofs.BinaryName.Grammar
import Pinpoint.Proofs.BinaryName.CompilerName
import Pinpoint.Proofs.BinaryName.Selection
import Pinpoint.Proofs.BinaryName.Nesting
import Pinpoint.Proofs.BinaryName.ConstructorArguments
import Pinpoint.Proofs.BinaryName.Inclusion
import Pinpoint.Proofs.Criterion.Receiver
import Pinpoint.Proofs.Source.Numbering
import Pinpoint.Proofs.Source.DeclarationOrder
import Pinpoint.Proofs.BinaryName.RankCount
import Pinpoint.Proofs.Sites
import Pinpoint.Proofs.ClassFile.Tabulation
import Pinpoint.Proofs.ClassFile.Scan
import Pinpoint.Proofs.Offsets
import Pinpoint.Proofs.Method.Signature
import Pinpoint.Proofs.ClassFile.LocalNames
import Pinpoint.Proofs.Source.Arena
import Pinpoint.Proofs.Source.Isomorphism
import Pinpoint.Proofs.Source.Outline
import Pinpoint.Proofs.Source.Place
import Pinpoint.Proofs.Criterion.Renumbering
import Pinpoint.Proofs.Criterion.Insertion
import Pinpoint.Proofs.ClassFile.Blocks
import Pinpoint.Proofs.Document.RoundTrip
import Pinpoint.Proofs.Source.ReadBack
import Pinpoint.Proofs.Refusal
import Pinpoint.Proofs.BinaryName.DigitRuns
import Pinpoint.Proofs.Careful.Criterion
import Pinpoint.Proofs.Careful.Sites
import Pinpoint.Proofs.BinaryName.Extent
import Pinpoint.Proofs.BinaryName.Separators
import Pinpoint.Proofs.BinaryName.Dangling
import Pinpoint.Proofs.Criterion.DeclaredReceiver
import Pinpoint.Proofs.ClassFile.FaultIsolation
import Pinpoint.Proofs.ClassFile.Lookup
import Pinpoint.Proofs.ClassFile.RecordOrder
import Pinpoint.Proofs.Method.SignatureGrammar
import Pinpoint.Proofs.Source.ParentChains
import Pinpoint.Proofs.BinaryName.Classification
import Pinpoint.Proofs.Pattern
import Pinpoint.Proofs.Source.Traversal
import Pinpoint.Proofs.BinaryName.SegmentPattern
