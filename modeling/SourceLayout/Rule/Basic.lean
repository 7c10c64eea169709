import SourceLayout.Comment.Attachments
import SourceLayout.Options
import SourceLayout.Rule.Program
import SourceLayout.Syntax.Cursor

/-! # Rules

A rule says how a value of a tree looks. It may build documents, have other values and comments
printed, have a text formatted by a language, or give up.
-/

namespace SourceLayout

/-- What one rule tells the rule of another value. -/
abbrev Flags := List String

inductive Request where
  | build (c : Construction Doc)
  | print (place : Cursor) (flags : Option Flags)
  | comment (c : CommentId)
  | format (language source : Text) (options : Options)
  | refuse (message : Text)

abbrev Rule := Program Request

/-- What a rule gets to see besides the value it prints. -/
structure Scene where
  tree : Tree
  options : Options
  attachments : Attachments

namespace Rule

def request (q : Request) : Rule Doc := .ask q .done

def build (c : Construction Doc) : Rule Doc := request (.build c)

def print (place : Cursor) : Rule Doc := request (.print place none)

def printField (place : Cursor) (name : String) : Rule Doc := print (place.enter name)

def printElements (place : Cursor) : Rule (List Doc) := place.elements.mapM print

def printList (place : Cursor) (name : String) : Rule (List Doc) := printElements (place.enter name)

def comment (c : CommentId) : Rule Doc := request (.comment c)

def refuse (message : Text) : Rule Doc := request (.refuse message)

def fixed (content : Text) : Rule Doc := build (.text .fixed content)

def owned (content : Text) : Rule Doc := build (.text .owned content)

def nothing : Rule Doc := build .nil

def line (kind : LineKind) : Rule Doc := build (.line kind)

def concat (docs : List Doc) : Rule Doc := build (.concat docs)

/-- Formats a text of another language so that it can stand inside the current document. -/
def embedded (scene : Scene) (language source : Text) : Rule Doc := do
  build (.trimEnd (← request (.format language source scene.options.nested)))

/-- The dangling comments of the node at a cursor that pass the filter, one a line. They start
on a new indented line unless they share the indentation of what is around them. -/
def danglingComments (scene : Scene) (place : Cursor) (sameIndent : Bool)
    (keep : Comment → Bool) : Rule Doc := do
  let kept := (scene.attachments.placed place.node .dangling).filter fun c =>
    keep (scene.tree.comment c)
  if kept.isEmpty then nothing
  else
    let docs ← kept.mapM comment
    let joined ← build (.intersperse docs (← line .hard))
    if sameIndent then return joined
    else build (.indent (← concat [← line .hard, joined]))

end Rule

end SourceLayout
