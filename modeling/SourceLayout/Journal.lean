import SourceLayout.Comment.Policy
import SourceLayout.Doc.Basic

/-! # The journal of a pass

What a pass did, in order: the questions it put to its language, and the documents it made of
comments and nodes.
-/

namespace SourceLayout

inductive Event
  | preprocessed (nodes : Nat)
  | placing (position : LinePosition) (neighbours : Neighbours) (isLast : Bool)
  | gap (enclosing : Option NodeId)
  | rule (n : NodeId) (isList : Bool) (flagged : Bool)
  | embedding (n : NodeId)
  | comment (c : CommentId) (doc : Doc)
  | reproduced (n : NodeId)
  | printed (n : NodeId) (doc : Doc)
  deriving Repr

/-- An event and the language whose pass it belongs to; the outermost pass has no name. -/
structure Entry where
  language : Option Text
  event : Event
  deriving Repr

end SourceLayout
