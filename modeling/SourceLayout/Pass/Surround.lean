import SourceLayout.Grammar
import SourceLayout.Text.LineBreak

/-! # Comments around a node

A printed node gets its leading comments before it and its trailing comments after it. Where a
line breaks in the source near a comment, it breaks in the document.
-/

namespace SourceLayout.Rule

variable (g : Grammar) (scene : Scene)

def leadingSeparator (c : Comment) : Rule Doc :=
  if !g.isBlock c then line .hard
  else if scene.tree.source.endsLine c.span.stop then
    if scene.tree.source.startsLine c.span.start then line .hard else line .normal
  else fixed [' ']

/-- A leading comment. A blank line behind it is kept. -/
def leadingComment (id : CommentId) : Rule Doc := do
  let c := scene.tree.comment id
  let contents ← comment id
  let doc ← build (.append contents (← leadingSeparator g scene c))
  if scene.tree.source.blankLineAfter c.span.stop then build (.append doc (← line .hard))
  else return doc

/-- A trailing comment. On a line of its own it is held back to the end of the line before it,
with a blank line if there was one. Behind other code a line comment is held back as well, and
breaks what it is in. -/
def trailingComment (id : CommentId) : Rule Doc := do
  let c := scene.tree.comment id
  let contents ← comment id
  if scene.tree.source.startsLine c.span.start then
    let blank ← if scene.tree.source.blankLineBefore c.span.start then line .hard else nothing
    build (.suffix (← concat [← line .hard, blank, contents]))
  else
    let doc ← concat [← fixed [' '], contents]
    if g.isBlock c then return doc
    else build (.append (← build (.suffix doc)) (← build .breakParent))

/-- A printed node with its comments, and between cursor marks if it holds the cursor. -/
def surround (marked : Option NodeId) (n : NodeId) (doc : Doc) : Rule Doc := do
  let leading := scene.attachments.placed n .leading
  let trailing := scene.attachments.placed n .trailing
  let commented ←
    if leading.isEmpty && trailing.isEmpty then pure doc
    else
      let before ← leading.mapM (leadingComment g scene)
      let after ← trailing.mapM (trailingComment g scene)
      concat (before ++ doc :: after)
  if marked == some n then concat [← build .cursor, commented, ← build .cursor]
  else return commented

end SourceLayout.Rule
