import SourceLayout.Comment.Neighbours
import SourceLayout.Journal
import SourceLayout.Text.LineBreak

/-! # Assigning comments to nodes

Comments are taken in the order of the source. A comment on a line of its own leads what follows
it, and one at the end of a line trails what precedes it. Comments between two nodes on one line
wait until the next such pair: then those that nothing but a gap parts from the following node
lead it, and the others trail the preceding one.
-/

namespace SourceLayout

/-- Comments that could belong to either of the same two nodes. -/
structure Tie where
  preceding : NodeId
  following : NodeId
  enclosing : Option NodeId
  members : List CommentId
  deriving DecidableEq, Repr

structure Assignment where
  attachments : Attachments := {}
  tie : Option Tie := none
  events : List Event := []
  deriving Inhabited

namespace Assignment

def attach (s : Assignment) (c : CommentId) (owner : NodeId) (placement : Placement) : Assignment :=
  { s with attachments := s.attachments.add c owner placement }

def note (s : Assignment) (e : Event) : Assignment := { s with events := e :: s.events }

variable (p : CommentPolicy) (t : Tree)

def sharesLine (d e : Neighbours) : Bool :=
  (t.source.slice (t.comment d.comment).span.stop (t.comment e.comment).span.start).joinsLine

/-- For each comment the start of the run of comments that it ends: comments with the same
preceding node that share a line. The run that the comment before the first one ends is given. -/
def runStarts (previous : Option (Neighbours × Nat)) : List Neighbours → List Nat
  | [] => []
  | d :: later =>
    let start := match previous with
      | some (e, start) =>
        if e.preceding == d.preceding && sharesLine t e d then start
        else (t.comment d.comment).span.start
      | none => (t.comment d.comment).span.start
    start :: runStarts (some (d, start)) later

/-- For each comment the end of the run of comments that it starts: comments with the same
following node that share a line. -/
def runEnds : List Neighbours → List Nat
  | [] => []
  | d :: later =>
    let stop := (t.comment d.comment).span.stop
    let ends := runEnds later
    match later, ends with
    | e :: _, next :: _ =>
      (if d.following == e.following && sharesLine t d e then next else stop) :: ends
    | _, _ => stop :: ends

/-- Where a comment stands on its line. Comments with the same preceding node count as one if
they share a line, and so do those with the same following node. -/
def linePosition (d : Neighbours) (start stop : Nat) : LinePosition :=
  let span := (t.comment d.comment).span
  if t.source.startsLine (if d.preceding.isSome then start else span.start) then .ownLine
  else if t.source.endsLine (if d.following.isSome then stop else span.stop) then .endOfLine
  else .remaining

/-- The positions of comments in a row on their lines. -/
def linePositions (all : List Neighbours) : List LinePosition :=
  (all.zip ((runStarts t none all).zip (runEnds t all))).map fun (d, start, stop) =>
    linePosition t d start stop

/-- White space and opening brackets do not part a comment from what it leads. -/
def defaultGap (gap : Text) : Bool := gap.all fun c => isSpace c || c == '('

/-- How many comments, taken from the last back, are parted by gaps alone from each other and
from the place where the next thing starts. -/
def countLeading (accepts : Text → Bool) : Nat → List CommentId → Nat
  | _, [] => 0
  | next, c :: earlier =>
    let span := (t.comment c).span
    if accepts (t.source.slice span.stop next) then countLeading accepts span.start earlier + 1
    else 0

/-- Attaches the comments of a tie and restores the order of both nodes' comments. -/
def resolve (tie : Tie) (s : Assignment) : Assignment :=
  let accepts := (p.gap t tie.enclosing).getD defaultGap
  let leading := countLeading t accepts (t.node tie.following).span.start tie.members
  let s := s.note (.gap tie.enclosing)
  let s := (tie.members.drop leading).reverse.foldl (·.attach · tie.preceding .trailing) s
  let s := (tie.members.take leading).reverse.foldl (·.attach · tie.following .leading) s
  { s with attachments := (s.attachments.reorder tie.preceding).reorder tie.following }

/-- Joins the waiting tie if it is between the same nodes, and otherwise resolves it and starts
another. -/
def defer (s : Assignment) (d : Neighbours) (preceding following : NodeId) : Assignment :=
  let fresh : Tie := { preceding, following, enclosing := d.enclosing, members := [d.comment] }
  match s.tie with
  | none => { s with tie := some fresh }
  | some tie =>
    if tie.preceding == preceding && tie.following == following then
      { s with tie := some { tie with members := d.comment :: tie.members } }
    else resolve p t tie { s with tie := some fresh }

/-- Places a comment by the general rules. -/
def placeByRule (s : Assignment) (position : LinePosition) (d : Neighbours) : Assignment :=
  match position, d.preceding, d.following with
  | .ownLine, _, some following => s.attach d.comment following .leading
  | .ownLine, some preceding, none => s.attach d.comment preceding .trailing
  | .endOfLine, some preceding, _ => s.attach d.comment preceding .trailing
  | .endOfLine, none, some following => s.attach d.comment following .leading
  | .remaining, some preceding, some following => s.defer p t d preceding following
  | .remaining, some preceding, none => s.attach d.comment preceding .trailing
  | .remaining, none, some following => s.attach d.comment following .leading
  | _, none, none => s.attach d.comment (d.enclosing.getD t.root) .dangling

/-- Lets the policy place a comment, and falls back to the general rules if it does not. -/
def placeByPolicy (s : Assignment) (position : LinePosition) (d : Neighbours) (isLast : Bool) :
    Assignment :=
  let verdict := p.place { tree := t, neighbours := d, position, isLast }
  let s := s.note (.placing position d isLast)
  let s := verdict.places.foldl (fun s (placement, owner) => s.attach d.comment owner placement) s
  if verdict.settled then s else s.placeByRule p t position d

def place (s : Assignment) (position : LinePosition) (d : Neighbours) (isLast : Bool) :
    Assignment :=
  let span := (t.comment d.comment).span
  let rootSpan := (t.node t.root).span
  if p.outerToRoot && span.start ≤ rootSpan.start then s.attach d.comment t.root .leading
  else if p.outerToRoot && rootSpan.stop ≤ span.stop then s.attach d.comment t.root .trailing
  else s.placeByPolicy p t position d isLast

def placeAll (s : Assignment) : List (Neighbours × LinePosition) → Assignment
  | [] => s
  | (d, position) :: later => placeAll (s.place p t position d later.isEmpty) later

def finish (s : Assignment) : Assignment :=
  match s.tie with
  | some tie => resolve p t tie { s with tie := none }
  | none => s

end Assignment

/-- Attaches every comment of a tree, and tells which questions the policy was asked. -/
def assignComments (p : CommentPolicy) (t : Tree) : Except Failure (Attachments × List Event) := do
  let all ← p.allNeighbours t
  let s := Assignment.placeAll p t {} (all.zip (Assignment.linePositions t all))
  let s := s.finish p t
  return (s.attachments, s.events.reverse)

end SourceLayout
