import SourceLayout.Rule.Basic

/-! # Parts

A part is a rule given as data: a piece of text, a builder applied to other parts, a value of the
tree to be printed, or something read off the place where it stands.
-/

namespace SourceLayout

inductive TextSource
  | literal (content : Text)
  | field (name : String)
  deriving DecidableEq, Repr

def TextSource.read (node : Node) : TextSource → Text
  | .literal content => content
  | .field name => (node.text? name).getD []

inductive CommentFilter
  | all
  | ofKind (kind : CommentKind)
  | holding (content : Text)
  deriving DecidableEq, Repr

def CommentFilter.accepts (f : CommentFilter) (c : Comment) : Bool :=
  match f with
  | .all => true
  | .ofKind kind => c.kind == kind
  | .holding content => content.occursIn c.text

inductive Part where
  | nothing
  | fixed (content : Text)
  | line (kind : LineKind)
  | breakParent
  | cursor
  | sequence (parts : List Part)
  | fill (parts : List Part)
  | group (body : Part)
  | expandedGroup (body : Part)
  | indent (body : Part)
  | align (columns : Int) (body : Part)
  | toRoot (body : Part)
  | suffix (body : Part)
  | trimEnd (body : Part)
  | field (name : String)
  | list (name : String) (separator : Part)
  | elements (separator : Part)
  | value (keys : List Key) (flags : Option Flags)
  | compare (left right : Part)
  | nodeSource
  | nodeVerbatim
  | wholeSource
  | kind
  | place
  | options
  | dangling (sameIndent : Bool) (filter : CommentFilter)
  | comments (placement : Option Placement)
  | ifComments (yes no : Part)
  | ifFlag (flag : String) (yes no : Part)
  | embedded (language source : TextSource)
  | formatted (language source : Text)
  | refuse (message : Text)
  | base
  deriving Inhabited

namespace Part

def placeText (here : Cursor) : Text :=
  Text.join ['/']
    [(here.name?.map String.toList).getD ['-'], (here.index?.map Text.ofNat).getD ['-'],
     Text.ofNat here.depth,
     Text.join [','] (here.ancestors.map fun n => (here.tree.node n).kind.toList)]

def boolText (b : Bool) : Text := if b then "true".toList else "false".toList

def optionsText (o : Options) : Text :=
  Text.join ['/']
    [Text.ofNat o.tabWidth, Text.ofNat o.shift, (o.cursor.map Text.ofNat).getD ['-'],
     boolText o.embedding, boolText o.strict]

def bracketed (c : CommentId) : Rule Doc := do
  Rule.concat [← Rule.fixed ['['], ← Rule.comment c, ← Rule.fixed [']']]

variable (base : Rule Doc) (scene : Scene) (here : Cursor) (flags : Option Flags)

mutual

def rule : Part → Rule Doc
  | .nothing => Rule.nothing
  | .fixed content => Rule.fixed content
  | .line k => Rule.line k
  | .breakParent => Rule.build .breakParent
  | .cursor => Rule.build .cursor
  | .sequence parts => do Rule.concat (← rulesOnto [] parts)
  | .fill parts => do Rule.build (.fill (← rulesOnto [] parts))
  | .group body => do Rule.build (.group (← rule body))
  | .expandedGroup body => do Rule.build (.expandedGroup (← rule body))
  | .indent body => do Rule.build (.indent (← rule body))
  | .align columns body => do Rule.build (.align columns (← rule body))
  | .toRoot body => do Rule.build (.toRoot (← rule body))
  | .suffix body => do Rule.build (.suffix (← rule body))
  | .trimEnd body => do Rule.build (.trimEnd (← rule body))
  | .field name => Rule.printField here name
  | .list name separator => do
    let docs ← Rule.printList here name
    Rule.build (.intersperse docs (← rule separator))
  | .elements separator => do
    let docs ← Rule.printElements here
    Rule.build (.intersperse docs (← rule separator))
  | .value keys given => Rule.request (.print (here.follow keys) given)
  | .compare left right => do
    let first ← rule left
    let second ← rule right
    let answer := if first.label == second.label then "same" else "different"
    Rule.concat [first, second, ← Rule.fixed answer.toList]
  | .nodeSource => Rule.owned (scene.tree.slice here.nodeHere.span)
  | .nodeVerbatim => Rule.build (.verbatim (scene.tree.slice here.nodeHere.span))
  | .wholeSource => Rule.build (.verbatim scene.tree.source.text)
  | .kind => Rule.owned here.nodeHere.kind.toList
  | .place => Rule.owned (placeText here)
  | .options => Rule.owned (optionsText scene.options)
  | .dangling sameIndent filter => Rule.danglingComments scene here sameIndent filter.accepts
  | .comments placement => do
    let ids := match placement with
      | some p => scene.attachments.placed here.node p
      | none => scene.attachments.commentsOf here.node
    Rule.concat (← ids.mapM bracketed)
  | .ifComments yes no =>
    if (scene.attachments.commentsOf here.node).isEmpty then rule no else rule yes
  | .ifFlag flag yes no => if flags.any (·.contains flag) then rule yes else rule no
  | .embedded language source =>
    Rule.embedded scene (language.read here.nodeHere) (source.read here.nodeHere)
  | .formatted language source => Rule.request (.format language source scene.options)
  | .refuse message => Rule.refuse message
  | .base => base

/-- The documents of parts in order, behind those already `done`, the latest of which comes
first. -/
def rulesOnto (done : List Doc) : List Part → Rule (List Doc)
  | [] => return done.reverse
  | part :: parts => do rulesOnto ((← rule part) :: done) parts

end

end Part

end SourceLayout
