import SourceLayout.Syntax.Tree
import SourceLayout.Text.Space

/-! # Reading the toy language

The toy language has identifiers, lists `(a b)`, templates `"..${a}.."` and embedded blocks
`%lang{...}`. Commas count as white space. A comment runs from `//` to the end of the line or
from `/*` through `*/`. Nodes are numbered as they end, so children come before their parents.
-/

namespace SourceLayout.Toy

inductive SyntaxError
  | unclosedList
  | unclosedTemplate
  | unclosedBlock
  | expected (c : Char) (offset : Nat)
  | unexpected (offset : Nat)
  deriving DecidableEq, Repr

def SyntaxError.message : SyntaxError → Text
  | .unclosedList => "unclosed list".toList
  | .unclosedTemplate => "unclosed template".toList
  | .unclosedBlock => "unclosed embedded block".toList
  | .expected c offset => "expected '".toList ++ [c] ++ "' at ".toList ++ Text.ofNat offset
  | .unexpected offset => "unexpected input at ".toList ++ Text.ofNat offset

/-- The part of the source still to be read, where it starts, and the tree so far. -/
structure Reader where
  offset : Nat
  rest : Text
  tree : Sapling

namespace Reader

def ofText (t : Text) : Reader := { offset := 0, rest := t, tree := { source := .ofText t } }

def skip (r : Reader) (n : Nat) : Reader :=
  { r with offset := r.offset + Text.byteSize (r.rest.take n), rest := r.rest.drop n }

def comment (r : Reader) (kind : CommentKind) (n : Nat) : Reader :=
  let after := r.skip n
  { after with tree := r.tree.addComment ⟨r.offset, after.offset⟩ kind }

def node (r : Reader) (kind : String) (start : Nat) (fields : List (String × Value)) :
    NodeId × Reader :=
  let (n, tree) := r.tree.addNode { kind, span := ⟨start, r.offset⟩, fields }
  (n, { r with tree })

def expect (r : Reader) (c : Char) : Except SyntaxError Reader :=
  if r.rest.head? == some c then .ok (r.skip 1) else .error (.expected c r.offset)

end Reader

/-- The length of a block comment at the start of a text. An unclosed one takes all of it, and
the star that opens a comment may also be the one that closes it. -/
def blockLength : Text → Nat
  | [] => 0
  | '*' :: '/' :: _ => 2
  | _ :: t => blockLength t + 1

def isLineEnd (c : Char) : Bool := c == '\r' || c == '\n'

def lineLength (t : Text) : Nat := (t.takeWhile (!isLineEnd ·)).length

def isWordChar (c : Char) : Bool := c.isAlphanum || c == '_'

def word (t : Text) : Text := t.takeWhile isWordChar

/-- Skips white space, commas and comments, at most as many as `steps` has elements. -/
def triviaWithin : (steps : Text) → Reader → Reader
  | [], r => r
  | _ :: steps, r =>
    match r.rest with
    | '/' :: '*' :: _ => triviaWithin steps (r.comment .block (blockLength r.rest))
    | '/' :: '/' :: _ => triviaWithin steps (r.comment .line (lineLength r.rest))
    | c :: _ => if isSpace c || c == ',' then triviaWithin steps (r.skip 1) else r
    | [] => r

def trivia (r : Reader) : Reader := triviaWithin r.rest r

/-- Reads `%lang{code}` behind its sign; the code runs to the first closing brace. -/
def block (start : Nat) (r : Reader) : Except SyntaxError (NodeId × Reader) := do
  let lang := word r.rest
  let opened ← (r.skip lang.length).expect '\x7b'
  let code := opened.rest.takeWhile (· != '\x7d')
  let closing := opened.skip code.length
  if closing.rest.isEmpty then throw .unclosedBlock
  return (closing.skip 1).node "Embed" start [("lang", .str lang), ("code", .str code)]

def quasi (r : Reader) : Except SyntaxError (NodeId × Reader) := do
  let raw := r.rest.takeWhile fun c => c != '"' && c != '$'
  let after := r.skip raw.length
  if after.rest.isEmpty then throw .unclosedTemplate
  return after.node "Quasi" r.offset [("raw", .str raw)]

mutual

/-- Reads one item, at most `fuel` levels of items and successors deep. -/
def item : (fuel : Nat) → Reader → Except SyntaxError (NodeId × Reader)
  | 0, r => .error (.unexpected r.offset)
  | fuel + 1, r =>
    match r.rest with
    | '(' :: _ => do
      let (items, after) ← listItems fuel (r.skip 1)
      return after.node "List" r.offset [("items", .list items)]
    | '"' :: _ => do
      let (quasis, expressions, after) ← templateParts fuel (r.skip 1)
      return after.node "Template" r.offset
        [("quasis", .list quasis), ("expressions", .list expressions)]
    | '%' :: _ => block r.offset (r.skip 1)
    | _ =>
      let name := word r.rest
      if name.isEmpty then .error (.unexpected r.offset)
      else .ok ((r.skip name.length).node "Ident" r.offset [("name", .str name)])

def listItems : (fuel : Nat) → Reader → Except SyntaxError (List Value × Reader)
  | 0, r => .error (.unexpected r.offset)
  | fuel + 1, r =>
    let r := trivia r
    match r.rest with
    | [] => .error .unclosedList
    | ')' :: _ => .ok ([], r.skip 1)
    | _ => do
      let (first, after) ← item fuel r
      let (others, after) ← listItems fuel after
      return (.node first :: others, after)

def templateParts : (fuel : Nat) → Reader →
    Except SyntaxError (List Value × List Value × Reader)
  | 0, r => .error (.unexpected r.offset)
  | fuel + 1, r => do
    let (literal, after) ← quasi r
    if after.rest.head? == some '"' then return ([.node literal], [], after.skip 1)
    let opened ← (after.skip 1).expect '\x7b'
    let (expression, after) ← item fuel (trivia opened)
    let closed ← (trivia after).expect '\x7d'
    let (quasis, expressions, after) ← templateParts fuel closed
    return (.node literal :: quasis, .node expression :: expressions, after)

end

def items : (fuel : Nat) → Reader → Except SyntaxError (List Value × Reader)
  | 0, r => .error (.unexpected r.offset)
  | fuel + 1, r =>
    let r := trivia r
    if r.rest.isEmpty then .ok ([], r)
    else do
      let (first, after) ← item fuel r
      let (others, after) ← items fuel after
      return (.node first :: others, after)

/-- The tree of a source. Every level of reading takes a character or follows one that does, so
twice the length of the source bounds them. -/
def parse (source : Text) : Except SyntaxError Tree := do
  let (body, r) ← items (2 * source.length + 2) (.ofText source)
  let (root, r) := r.node "Program" 0 [("body", .list body)]
  return r.tree.finish root

end SourceLayout.Toy
