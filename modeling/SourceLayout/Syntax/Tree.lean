import SourceLayout.Span
import SourceLayout.Text.Source

/-! # Syntax trees

A tree is a source with its nodes, numbered in the order they were made, and its comments, in
the order of the source. A node refers to others by number, so it may have several parents.
-/

namespace SourceLayout

abbrev NodeId := Nat

abbrev CommentId := Nat

inductive Value where
  | null
  | str (content : Text)
  | node (n : NodeId)
  | list (items : List Value)
  deriving Repr, Inhabited

namespace Value

mutual

/-- The nodes in a value, from left to right through nested lists. -/
def nodes : Value → List NodeId
  | .null | .str _ => []
  | .node n => [n]
  | .list items => nodesAll items

def nodesAll : List Value → List NodeId
  | [] => []
  | item :: items => nodes item ++ nodesAll items

end

mutual

def size : Value → Nat
  | .null | .str _ | .node _ => 1
  | .list items => sizeAll items + 1

def sizeAll : List Value → Nat
  | [] => 0
  | item :: items => size item + sizeAll items

end

def node? : Value → Option NodeId
  | .node n => some n
  | _ => none

def elements : Value → List Value
  | .list items => items
  | _ => []

end Value

structure Node where
  kind : String
  span : Span
  fields : List (String × Value) := []
  deriving Repr, Inhabited

namespace Node

def field? (n : Node) (name : String) : Option Value :=
  (n.fields.find? (·.1 == name)).map (·.2)

def text? (n : Node) (name : String) : Option Text :=
  match n.field? name with
  | some (.str content) => some content
  | _ => none

def children (n : Node) : List NodeId := n.fields.flatMap (·.2.nodes)

end Node

inductive CommentKind
  | line
  | block
  deriving DecidableEq, Repr, Inhabited

structure Comment where
  span : Span
  kind : CommentKind
  text : Text
  deriving DecidableEq, Repr, Inhabited

structure Tree where
  source : Source
  nodes : Array Node
  comments : Array Comment
  root : NodeId
  deriving Repr, Inhabited

namespace Tree

def node (t : Tree) (n : NodeId) : Node := t.nodes.getD n { kind := "", span := {} }

def comment (t : Tree) (c : CommentId) : Comment :=
  t.comments.getD c { span := {}, kind := .line, text := [] }

def commentIds (t : Tree) : List CommentId := List.range t.comments.size

def slice (t : Tree) (s : Span) : Text := t.source.slice s.start s.stop

/-- The number of values in all fields of all nodes, the nodes included. -/
def weight (t : Tree) : Nat :=
  t.nodes.foldl (fun sum n => sum + 1 + Value.sizeAll (n.fields.map (·.2))) 0

end Tree

structure Sapling where
  source : Source
  nodes : Array Node := #[]
  comments : Array Comment := #[]
  deriving Repr, Inhabited

namespace Sapling

def addNode (b : Sapling) (n : Node) : NodeId × Sapling :=
  (b.nodes.size, { b with nodes := b.nodes.push n })

def addComment (b : Sapling) (span : Span) (kind : CommentKind) : Sapling :=
  { b with comments := b.comments.push { span, kind, text := b.source.slice span.start span.stop } }

/-- The tree with the given root; its comments are put in the order of their spans. -/
def finish (b : Sapling) (root : NodeId) : Tree where
  source := b.source
  nodes := b.nodes
  comments := (sortBySpan Comment.span b.comments.toList).toArray
  root := root

end Sapling

end SourceLayout
