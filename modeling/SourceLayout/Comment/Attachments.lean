import SourceLayout.Syntax.Tree
import Std.Data.TreeMap.Basic

/-! # Where comments are attached

Every comment belongs to at most one node, in one of three places. The attachments can be looked
up by comment and by node.
-/

namespace SourceLayout

inductive Placement
  | leading
  | trailing
  | dangling
  deriving DecidableEq, Repr

structure Attachment where
  owner : NodeId
  placement : Placement
  deriving DecidableEq, Repr

structure Attachments where
  byComment : Std.TreeMap CommentId Attachment := ∅
  byNode : Std.TreeMap NodeId (List CommentId) := ∅
  deriving Inhabited

namespace Attachments

def get? (a : Attachments) (c : CommentId) : Option Attachment := a.byComment[c]?

def commentsOf (a : Attachments) (n : NodeId) : List CommentId := (a.byNode[n]?).getD []

def placed (a : Attachments) (n : NodeId) (p : Placement) : List CommentId :=
  (a.commentsOf n).filter fun c => (a.get? c).any (·.placement == p)

def size (a : Attachments) : Nat := a.byComment.size

def isEmpty (a : Attachments) : Bool := a.size == 0

def release (a : Attachments) (c : CommentId) (n : NodeId) : Attachments :=
  { a with byNode := a.byNode.insert n ((a.commentsOf n).filter (· != c)) }

/-- Attaches a comment after the others of its owner; a comment attached before is moved. -/
def add (a : Attachments) (c : CommentId) (owner : NodeId) (placement : Placement) : Attachments :=
  let a := match a.get? c with
    | some previous => a.release c previous.owner
    | none => a
  { byComment := a.byComment.insert c { owner, placement }
    byNode := a.byNode.insert owner (a.commentsOf owner ++ [c]) }

def reorder (a : Attachments) (n : NodeId) : Attachments :=
  { a with byNode := a.byNode.insert n (stableSort (fun c d => decide (c ≤ d)) (a.commentsOf n)) }

end Attachments

end SourceLayout
