import SourceLayout.Comment.Attachments

/-! # Comment policies

How a language wants its comments treated: which nodes may hold them, and where they go when the
general rules do not suit it.
-/

namespace SourceLayout

/-- The surroundings of a comment: the innermost node around it, and the nearest children of that
node before and after it. -/
structure Neighbours where
  comment : CommentId
  enclosing : Option NodeId
  preceding : Option NodeId
  following : Option NodeId
  deriving DecidableEq, Repr

/-- What else is on the line of a comment, blanks and other comments apart: nothing before it, or
else nothing after it. -/
inductive LinePosition
  | ownLine
  | endOfLine
  | remaining
  deriving DecidableEq, Repr

/-- What a policy gets to see of a comment that is to be placed. -/
structure Situation where
  tree : Tree
  neighbours : Neighbours
  position : LinePosition
  isLast : Bool

/-- Where a policy attaches a comment, one place after the other, and whether that settles it. -/
structure Verdict where
  places : List (Placement × NodeId) := []
  settled : Bool := false
  deriving Repr

/-- How a language wants its comments treated. By default those in a node go to its children, and
white space and opening brackets may stand between a comment and what it leads. -/
structure CommentPolicy where
  offspring : Tree → NodeId → Option (List NodeId) := fun _ _ => none
  canHold : Node → Bool := fun _ => true
  place : Situation → Verdict := fun _ => {}
  gap : Tree → Option NodeId → Option (Text → Bool) := fun _ _ => none
  quasis : Node → Option (List NodeId) := fun _ => none
  outerToRoot : Bool := false

end SourceLayout
