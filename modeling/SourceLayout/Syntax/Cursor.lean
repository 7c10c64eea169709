import SourceLayout.Syntax.Tree

/-! # Cursors

A cursor is a place in a tree together with the way down to it from the root. Stepping down
gives a new cursor and leaves the old one as it is.
-/

namespace SourceLayout

inductive Key
  | field (name : String)
  | index (i : Nat)
  deriving DecidableEq, Repr

/-- One stop on the way: the value there and the key that led to it, if it was a field that
exists or an index. -/
structure Frame where
  key : Option Key
  value : Value
  deriving Repr, Inhabited

structure Cursor where
  tree : Tree
  here : Frame
  above : List Frame
  deriving Repr, Inhabited

namespace Cursor

def atRoot (t : Tree) : Cursor := { tree := t, here := ⟨none, .node t.root⟩, above := [] }

def value (c : Cursor) : Value := c.here.value

def name? (c : Cursor) : Option String :=
  match c.here.key with
  | some (.field name) => some name
  | _ => none

def index? (c : Cursor) : Option Nat :=
  match c.here.key with
  | some (.index i) => some i
  | _ => none

def depth (c : Cursor) : Nat := c.above.length

/-- The nodes on the way, the innermost first. -/
def path (c : Cursor) : List NodeId := (c.here :: c.above).filterMap (·.value.node?)

/-- The nearest node at or above the cursor. -/
def node (c : Cursor) : NodeId :=
  ((c.here :: c.above).findSome? (·.value.node?)).getD c.tree.root

theorem node_eq_headD (c : Cursor) : c.node = c.path.headD c.tree.root := by
  rw [node, path, List.headD_eq_head?_getD, List.head?_filterMap]

def nodeHere (c : Cursor) : Node := c.tree.node c.node

def ancestors (c : Cursor) : List NodeId := c.path.tail

/-- The node that many levels above the direct parent. The levels are counted in a word, in which
the one past the last is again the nearest node. -/
def parent? (c : Cursor) (level : Nat) : Option NodeId := c.path[(level + 1) % UInt64.size]?

/-- One step down, to a value reached by a key. -/
def push (c : Cursor) (key : Option Key) (value : Value) : Cursor :=
  { c with here := ⟨key, value⟩, above := c.here :: c.above }

@[simp] theorem depth_push (c : Cursor) (key : Option Key) (value : Value) :
    (c.push key value).depth = c.depth + 1 := rfl

/-- Stepping to a node puts it in front of the path, and any other step leaves the path as it
is. -/
theorem path_push (c : Cursor) (key : Option Key) (value : Value) :
    (c.push key value).path = value.node?.toList ++ c.path := by
  cases h : value.node? <;> simp [path, push, h]

/-- Steps to a field of the current node. A missing field holds nothing and leaves no key. -/
def enter (c : Cursor) (name : String) : Cursor :=
  match c.value.node?.bind fun n => (c.tree.node n).field? name with
  | some value => c.push (some (.field name)) value
  | none => c.push none .null

def enterAt (c : Cursor) (i : Nat) : Cursor :=
  c.push (some (.index i)) (c.value.elements.getD i .null)

def elements (c : Cursor) : List Cursor :=
  c.value.elements.zipIdx.map fun (value, i) => c.push (some (.index i)) value

theorem elements_eq (c : Cursor) :
    c.elements = (List.range c.value.elements.length).map c.enterAt := by
  apply List.ext_getElem?
  intro i
  by_cases h : i < c.value.elements.length
  · simp [elements, enterAt, h, List.getD_eq_getElem?_getD]
  · simp [elements, h]

def step (c : Cursor) : Key → Cursor
  | .field name => c.enter name
  | .index i => c.enterAt i

def follow (c : Cursor) (keys : List Key) : Cursor := keys.foldl step c

end Cursor

end SourceLayout
