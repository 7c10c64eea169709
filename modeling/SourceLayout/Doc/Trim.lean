import SourceLayout.Doc.Build

/-! # Trimming the end of a document

A document that is to stand inside another one gives up the forced lines it ends with. The parts
that do not change keep their labels.
-/

namespace SourceLayout.Build

/-- A new group that breaks if the group with the given label does now. -/
def regroup (label : Label) (body : Doc) : DocM Doc := do
  if (← get).isBroken label then expandedGroup body
  else return .group (← freshLabel) body

/-- Removes forced lines, and line feeds of owned texts, from the end of a document. -/
def trimEnd [TextWidth] : Doc → DocM Doc
  | .line l kind => if kind.isForced then nil else pure (.line l kind)
  | .append l left right => do
    let trimmed ← trimEnd right
    if trimmed.isNil then trimEnd left
    else if trimmed.label == right.label then return .append l left right
    else append left trimmed
  | .group l body => do regroup l (← trimEnd body)
  | .indent _ body => do
    let trimmed ← trimEnd body
    return .indent (← freshLabel) trimmed
  | .align _ shift body => do
    let trimmed ← trimEnd body
    return .align (← freshLabel) shift trimmed
  | .text l .owned content =>
    if content.getLast? == some '\n' then text .owned (content.dropEndWhile (· == '\n'))
    else pure (.text l .owned content)
  | doc => pure doc

end SourceLayout.Build
