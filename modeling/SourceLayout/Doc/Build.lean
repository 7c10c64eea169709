import SourceLayout.Doc.Basic
import SourceLayout.Text.LineBreak

/-! # Building documents

Each builder makes a new document, except where there is nothing to add: then it hands back the
document it was given, label and all. So no sequence holds an empty part, and every text leaf has
something to show.
-/

namespace SourceLayout.Build

variable [TextWidth]

def nil : DocM Doc := return .nil (← freshLabel)

def line (kind : LineKind) : DocM Doc := return .line (← freshLabel) kind

def breakParent : DocM Doc := return .breakParent (← freshLabel)

def cursor : DocM Doc := return .cursor (← freshLabel)

def text (origin : Origin) (content : Text) : DocM Doc := do
  if content.isEmpty then nil
  else
    let leaf := Doc.text (← freshLabel) origin content
    if content.isAscii then return leaf
    else return .measured (← freshLabel) (TextWidth.width content) leaf

def append (left right : Doc) : DocM Doc :=
  if left.isNil then pure right
  else if right.isNil then pure left
  else return .append (← freshLabel) left right

def concat (docs : List Doc) : DocM Doc := do docs.foldlM append (← nil)

def intersperse (docs : List Doc) (separator : Doc) : DocM Doc := do
  let start ← nil
  match docs with
  | [] => return start
  | first :: rest =>
    rest.foldlM (fun soFar doc => do append (← append soFar separator) doc) (← append start first)

def fill (parts : List Doc) : DocM Doc := return .fill (← freshLabel) parts

/-- A group lays out its lines all flat or all broken. Texts and groups need no further one. -/
def group (body : Doc) : DocM Doc :=
  match body with
  | .group .. | .text .. | .measured .. | .nil _ => pure body
  | _ => return .group (← freshLabel) body

def expandedGroup (body : Doc) : DocM Doc := do
  let label ← freshLabel
  modify (·.breakGroup label)
  return .group label body

def indent (body : Doc) : DocM Doc :=
  if body.isNil then pure body else return .indent (← freshLabel) body

def align (columns : Int) (body : Doc) : DocM Doc :=
  if body.isNil || columns == 0 then pure body
  else return .align (← freshLabel) (.columns columns) body

def toRoot (body : Doc) : DocM Doc := return .align (← freshLabel) .toRoot body

def suffix (body : Doc) : DocM Doc :=
  if body.isNil then pure body else return .suffix (← freshLabel) body

def indentTimes : Nat → Doc → DocM Doc
  | 0, body => pure body
  | n + 1, body => do indentTimes n (← indent body)

/-- The columns that a number stands for in a signed word of 64 bits. -/
def signedColumns (n : Nat) : Int := Int.bmod n UInt64.size

/-- Moves a document right by `size` columns, in whole steps of `tabWidth` as far as they go. -/
def shiftRight (size tabWidth : Nat) (body : Doc) : DocM Doc := do
  if size == 0 then return body
  let step := max tabWidth 1
  let indented ← indentTimes (size / step) body
  toRoot (← align (signedColumns (size % step)) indented)

/-- A text as written: its line breaks become literal lines. -/
def verbatim (content : Text) : DocM Doc := do
  let separator ← line .literal
  intersperse (← content.lines.mapM (text .owned)) separator

end SourceLayout.Build
