import SourceLayout.Comment.Policy
import SourceLayout.Failure
import SourceLayout.Rule.Basic

/-! # Grammars

A grammar holds all that is special to one language: how its values look, what becomes of its
comments, and what code of other languages it embeds. All but the rule for values has a default.
-/

namespace SourceLayout

structure Grammar extends CommentPolicy where
  rule : Scene → Cursor → Option Flags → Rule Doc
  embed : Scene → Cursor → Rule (Option Doc) := fun _ _ => pure none
  commentDoc : Tree → Comment → Sketch Doc := fun _ c => Sketch.build (.verbatim c.text)
  isBlock : Comment → Bool := fun c => c.kind == .block
  printsOwnComments : Cursor → Bool := fun _ => false
  isIgnored : Attachments → Cursor → Bool := fun _ _ => false
  preprocess : Option (Tree → Options → Tree) := none

/-- A grammar with its parser, under a name. -/
structure Language where
  name : Text
  parser : Text → Except Text Tree
  grammar : Grammar

def Language.parse (l : Language) (source : Text) : Except Failure Tree :=
  (l.parser source).mapError (Failure.unparsed l.name)

abbrev Languages := List Language

namespace Languages

def register (ls : Languages) (l : Language) : Languages := ls.filter (·.name != l.name) ++ [l]

def get? (ls : Languages) (name : Text) : Option Language := ls.find? (·.name == name)

end Languages

end SourceLayout
