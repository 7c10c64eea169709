import SourceLayout.Doc.Spread
import SourceLayout.Doc.Trim

/-! # Constructions

A construction is one call of a builder, as a value. Its operands may be documents or anything
that stands for them, such as the numbers of a workbench's documents.
-/

namespace SourceLayout

inductive Construction (δ : Type) where
  | nil
  | text (origin : Origin) (content : Text)
  | verbatim (content : Text)
  | line (kind : LineKind)
  | breakParent
  | cursor
  | append (left right : δ)
  | concat (docs : List δ)
  | intersperse (docs : List δ) (separator : δ)
  | fill (parts : List δ)
  | group (body : δ)
  | expandedGroup (body : δ)
  | indent (body : δ)
  | align (columns : Int) (body : δ)
  | toRoot (body : δ)
  | suffix (body : δ)
  | shiftRight (size tabWidth : Nat) (body : δ)
  | trimEnd (body : δ)
  deriving Repr

namespace Construction

def resolve {δ ε : Type} (find : δ → Option ε) : Construction δ → Option (Construction ε)
  | .nil => some .nil
  | .text origin content => some (.text origin content)
  | .verbatim content => some (.verbatim content)
  | .line kind => some (.line kind)
  | .breakParent => some .breakParent
  | .cursor => some .cursor
  | .append left right => return .append (← find left) (← find right)
  | .concat docs => return .concat (← docs.mapM find)
  | .intersperse docs separator => return .intersperse (← docs.mapM find) (← find separator)
  | .fill parts => return .fill (← parts.mapM find)
  | .group body => return .group (← find body)
  | .expandedGroup body => return .expandedGroup (← find body)
  | .indent body => return .indent (← find body)
  | .align columns body => return .align columns (← find body)
  | .toRoot body => return .toRoot (← find body)
  | .suffix body => return .suffix (← find body)
  | .shiftRight size tabWidth body => return .shiftRight size tabWidth (← find body)
  | .trimEnd body => return .trimEnd (← find body)

def build [TextWidth] : Construction Doc → DocM Doc
  | .nil => Build.nil
  | .text origin content => Build.text origin content
  | .verbatim content => Build.verbatim content
  | .line kind => Build.line kind
  | .breakParent => Build.breakParent
  | .cursor => Build.cursor
  | .append left right => Build.append left right
  | .concat docs => Build.concat docs
  | .intersperse docs separator => Build.intersperse docs separator
  | .fill parts => Build.fill parts
  | .group body => Build.group body
  | .expandedGroup body => Build.expandedGroup body
  | .indent body => Build.indent body
  | .align columns body => Build.align columns body
  | .toRoot body => Build.toRoot body
  | .suffix body => Build.suffix body
  | .shiftRight size tabWidth body => Build.shiftRight size tabWidth body
  | .trimEnd body => Build.trimEnd body

end Construction

/-- Documents under construction, numbered in the order they were made. -/
structure Workbench where
  store : Store := {}
  docs : Array Doc := #[]
  deriving Inhabited

namespace Workbench

variable [TextWidth]

def doc? (w : Workbench) (n : Nat) : Option Doc := w.docs[n]?

def build? (w : Workbench) (c : Construction Nat) : Option (Workbench × Doc) := do
  let (doc, store) := (← c.resolve w.doc?).build.run w.store
  return ({ store, docs := w.docs.push doc }, doc)

def join? (w : Workbench) (parts : List (Nat ⊕ Text)) : Option (Workbench × Doc) := do
  let part (store : Store) : Nat ⊕ Text → Option (Doc × Store)
    | .inl n => (w.doc? n).map (·, store)
    | .inr content => some ((Build.text .fixed content).run store)
  let (docs, store) ← parts.foldlM (fun (done, store) p => do
    let (doc, store) ← part store p
    return (done ++ [doc], store)) ([], w.store)
  let (doc, store) := (Build.concat docs).run store
  return ({ store, docs := w.docs.push doc }, doc)

def share? (w : Workbench) (n : Nat) : Option (Workbench × Doc) := do
  let doc ← w.doc? n
  return ({ w with docs := w.docs.push doc }, doc)

def spread? (w : Workbench) (n : Nat) : Option (Workbench × Doc) := do
  let doc ← w.doc? n
  return ({ w with store := ((spreadBreaks doc).run w.store).2 }, doc)

end Workbench

end SourceLayout
