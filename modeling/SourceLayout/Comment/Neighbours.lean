import SourceLayout.Comment.Frontier
import SourceLayout.Failure

/-! # The neighbours of comments

For each comment the innermost node around it is found by going down from the root, and the
nearest nodes before and after it among those below that node. Inside a template only nodes of the
same interpolation count.
-/

namespace SourceLayout.CommentPolicy

/-- The number of the interpolation that an offset belongs to, given the spans of the literal
parts around the interpolations. Offsets behind the last literal part count as the first. -/
def interpolation (literals : List Span) (offset : Nat) : Nat :=
  ((literals.drop 1).findIdx? fun s => offset - 1 < s.start).getD 0

variable (p : CommentPolicy) (t : Tree)

/-- Whether a node starts in the interpolation of the enclosing template that `start` is in. -/
def sameInterpolation (literals : List Span) (start : Nat) (n : NodeId) : Bool :=
  interpolation literals (t.node n).span.start == interpolation literals start

/-- Forgets the neighbours that a template keeps apart from a place that starts at `start`. -/
def withinTemplate (enclosing : Option NodeId) (start : Nat) (neighbour : Option NodeId) :
    Option NodeId :=
  match enclosing.bind fun n => p.quasis (t.node n) with
  | some quasis =>
    neighbour.filter (sameInterpolation t (quasis.map fun q => (t.node q).span) start)
  | none => neighbour

variable {p t} in
/-- The neighbours of a comment. A comment that has none lies in the root. -/
def Frontiers.neighbours (f : Frontiers p t) (c : CommentId) : Except Failure Neighbours :=
  let span := (t.comment c).span
  let (last, finding) := f.descend (fun n => sideOfSpan span (t.node n).span) t.root
  let enclosing := if last == t.root then none else some last
  match finding with
  | .across n => .error (.overlap span (t.node n).span (t.node n).kind)
  | .inside _ => .error .unbounded
  | .between before after =>
    let preceding := p.withinTemplate t enclosing span.start before
    let following := p.withinTemplate t enclosing span.start after
    .ok {
      comment := c
      enclosing :=
        if enclosing.isNone && preceding.isNone && following.isNone then some t.root
        else enclosing
      preceding, following }

/-- The neighbours of all comments, unless one of them overlaps a node. -/
def allNeighbours : Except Failure (List Neighbours) :=
  let frontiers := p.frontiers t
  t.commentIds.mapM frontiers.neighbours

end SourceLayout.CommentPolicy
