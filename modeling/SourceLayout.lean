import SourceLayout.Comment.Assignment
import SourceLayout.Comment.Attachments
import SourceLayout.Comment.Frontier
import SourceLayout.Comment.Neighbours
import SourceLayout.Comment.Policy
import SourceLayout.Doc.Basic
import SourceLayout.Doc.Build
import SourceLayout.Doc.Construction
import SourceLayout.Doc.Notation
import SourceLayout.Doc.Spread
import SourceLayout.Doc.Trim
import SourceLayout.Failure
import SourceLayout.Grammar
import SourceLayout.Journal
import SourceLayout.Options
import SourceLayout.Pass.Print
import SourceLayout.Pass.Run
import SourceLayout.Pass.State
import SourceLayout.Pass.Surround
import SourceLayout.Proofs.Comment.Assignment
import SourceLayout.Proofs.Comment.Attachments
import SourceLayout.Proofs.Comment.Neighbours
import SourceLayout.Proofs.Doc.Spreading
import SourceLayout.Proofs.Outcomes
import SourceLayout.Rule.Basic
import SourceLayout.Rule.Program
import SourceLayout.Ruleset.Grammar
import SourceLayout.Ruleset.Part
import SourceLayout.Span
import SourceLayout.StableSort
import SourceLayout.Syntax.Cursor
import SourceLayout.Syntax.Tree
import SourceLayout.Text.Basic
import SourceLayout.Text.Columns
import SourceLayout.Text.Emoji
import SourceLayout.Text.LineBreak
import SourceLayout.Text.Quoted
import SourceLayout.Text.Ranges
import SourceLayout.Text.Shape
import SourceLayout.Text.Source
import SourceLayout.Text.Space
import SourceLayout.Text.Width
import SourceLayout.Toy.Grammar
import SourceLayout.Toy.Parser
import SourceLayout.Proofs.Comment.Ties
import SourceLayout.Proofs.Comment.Search
import SourceLayout.Proofs.Comment.Descent
import SourceLayout.Proofs.Toy.Reading
import SourceLayout.Proofs.Toy.Placement
import SourceLayout.Proofs.Pass.Effects
import SourceLayout.Proofs.Pass.Trail
import SourceLayout.Proofs.Toy.Walk
import SourceLayout.Proofs.Pass.Progress
import SourceLayout.Proofs.Toy.Printing
import SourceLayout.Proofs.Doc.Issued
import SourceLayout.Proofs.Pass.Documents
import SourceLayout.Proofs.Pass.Breaks
import SourceLayout.Proofs.Pass.Fallback
import SourceLayout.Proofs.Comment.Owners
import SourceLayout.Proofs.Toy.Marking
import SourceLayout.Proofs.Toy.Confined
import SourceLayout.Proofs.Toy.Offsets
import SourceLayout.Proofs.Toy.Ordering
import SourceLayout.Proofs.Text.Decoding
import SourceLayout.Proofs.Doc.Rendering
import SourceLayout.Proofs.Pass.Recall
import SourceLayout.Proofs.Pass.Lockstep
import SourceLayout.Proofs.Toy.Blocks
import SourceLayout.Proofs.Toy.Strictness
import SourceLayout.Proofs.Toy.Sharing
import SourceLayout.Proofs.Toy.LineComments
import SourceLayout.Proofs.Text.LineBreaks
import SourceLayout.Proofs.Comment.Way
import SourceLayout.Proofs.Toy.LineBreaks
import SourceLayout.Proofs.Toy.Templates
import SourceLayout.Proofs.Doc.Trimming
import SourceLayout.Proofs.Text.Lines
import SourceLayout.Proofs.Doc.Verbatim
import SourceLayout.Proofs.Pass.Surroundings
import SourceLayout.Proofs.Comment.Offset
import SourceLayout.Proofs.Doc.Shifting
import SourceLayout.Proofs.Syntax.Provenance
import SourceLayout.Proofs.Doc.Tips
import SourceLayout.Proofs.Pass.Marks
import SourceLayout.Proofs.Toy.Slots
import SourceLayout.Proofs.Toy.Display
import SourceLayout.Proofs.Toy.CursorMarks
import SourceLayout.Proofs.Doc.NormalForm
import SourceLayout.Proofs.Text.Spacing
import SourceLayout.Proofs.Comment.Queries
import SourceLayout.Proofs.Toy.Delivery
