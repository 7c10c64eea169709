import SourceLayout.Grammar
import SourceLayout.Ruleset.Part
import SourceLayout.Text.Space
import SourceLayout.Text.Width

/-! # Rule sets

A rule set changes a grammar by data. What it does not mention is left to the grammar underneath.
-/

namespace SourceLayout

/-- Where a placement rule attaches a comment. -/
inductive PlacementTarget
  | enclosing
  | preceding
  | following
  | root
  | node (n : NodeId)
  deriving DecidableEq, Repr

def PlacementTarget.find? (s : Situation) : PlacementTarget → Option NodeId
  | .enclosing => s.neighbours.enclosing
  | .preceding => s.neighbours.preceding
  | .following => s.neighbours.following
  | .root => some s.tree.root
  | .node n => if n < s.tree.nodes.size then some n else none

/-- Conditions on a comment and what to do with it if they all hold. -/
structure PlacementRule where
  enclosing : Option String := none
  preceding : Option Bool := none
  following : Option Bool := none
  last : Option Bool := none
  content : Option Text := none
  source : Option Text := none
  places : List (Placement × PlacementTarget) := []
  settles : Bool := false
  deriving Repr

namespace PlacementRule

def applies (r : PlacementRule) (s : Situation) : Bool :=
  r.enclosing.all (fun kind => s.neighbours.enclosing.any fun n => (s.tree.node n).kind == kind) &&
  r.preceding.all (· == s.neighbours.preceding.isSome) &&
  r.following.all (· == s.neighbours.following.isSome) &&
  r.last.all (· == s.isLast) &&
  r.content.all (·.occursIn (s.tree.comment s.neighbours.comment).text) &&
  r.source.all (·.occursIn s.tree.source.text)

def verdict (r : PlacementRule) (s : Situation) : Verdict where
  places := r.places.filterMap fun (placement, target) => (target.find? s).map (placement, ·)
  settled := r.settles

def judge (rules : List PlacementRule) (s : Situation) : Verdict :=
  match rules.find? (·.applies s) with
  | some r => r.verdict s
  | none => {}

end PlacementRule

inductive GapRule
  | spaces
  | spacesAndCommas
  | anything
  | never
  | holdsComma
  | nothing
  deriving DecidableEq, Repr

def GapRule.accepts : GapRule → Text → Bool
  | .spaces, gap => gap.all isSpace
  | .spacesAndCommas, gap => gap.all fun c => isSpace c || c == ','
  | .anything, _ => true
  | .never, _ => false
  | .holdsComma, gap => gap.contains ','
  | .nothing, gap => gap.isEmpty

inductive CommentStyle
  | trimmed
  | hidden
  | broken
  deriving DecidableEq, Repr

def CommentStyle.sketch (style : CommentStyle) (c : Comment) : Sketch Doc :=
  match style with
  | .trimmed => Sketch.build (.text .owned c.text.trim)
  | .hidden => Sketch.build .nil
  | .broken => do Sketch.build (.expandedGroup (← Sketch.build (.text .owned c.text)))

structure Ruleset where
  closed : Option (List String) := none
  offspring : List (String × List String) := []
  templates : Option (List (String × String)) := none
  gap : Option GapRule := none
  gapIn : List (Option String × GapRule) := []
  isBlock : Option Bool := none
  commentStyle : Option CommentStyle := none
  ownComments : List String := []
  ignored : List String := []
  outerToRoot : Option Bool := none
  replacement : Option (Option Tree) := none
  ownLine : List PlacementRule := []
  endOfLine : List PlacementRule := []
  remaining : List PlacementRule := []
  embeds : List (String × Option Part) := []
  rules : List (String × Part) := []
  listRule : Option Part := none
  deriving Inhabited

namespace Ruleset

variable (r : Ruleset) (base : Grammar)

def offspringOf (t : Tree) (n : NodeId) : Option (List NodeId) :=
  let node := t.node n
  match r.offspring.lookup node.kind with
  | some fields => some (fields.flatMap fun name => ((node.field? name).map Value.nodes).getD [])
  | none => base.offspring t n

def quasisOf (node : Node) : Option (List NodeId) :=
  match r.templates with
  | some templates => do (← node.field? (← templates.lookup node.kind)).nodes
  | none => base.quasis node

def gapIn? (t : Tree) (enclosing : Option NodeId) : Option (Text → Bool) :=
  match r.gapIn.lookup (enclosing.map fun n => (t.node n).kind) <|> r.gap with
  | some rule => some rule.accepts
  | none => base.gap t enclosing

def placementRules : LinePosition → List PlacementRule
  | .ownLine => r.ownLine
  | .endOfLine => r.endOfLine
  | .remaining => r.remaining

def partFor? (place : Cursor) : Option Part :=
  match place.value with
  | .list _ => r.listRule
  | _ => r.rules.lookup place.nodeHere.kind

def ruleAt (scene : Scene) (place : Cursor) (flags : Option Flags) : Rule Doc :=
  match r.partFor? place with
  | some part => part.rule (base.rule scene place flags) scene place flags
  | none => base.rule scene place flags

def embedAt (scene : Scene) (place : Cursor) : Rule (Option Doc) :=
  match r.embeds.lookup place.nodeHere.kind with
  | some (some part) => some <$> part.rule (base.rule scene place none) scene place none
  | some none => return none
  | none => base.embed scene place

/-- The grammar underneath with the changes of the rule set. -/
def grammar : Grammar where
  rule := r.ruleAt base
  embed := r.embedAt base
  offspring := r.offspringOf base
  canHold node := match r.closed with
    | some kinds => !kinds.contains node.kind
    | none => base.canHold node
  place s := PlacementRule.judge (r.placementRules s.position) s
  gap := r.gapIn? base
  quasis := r.quasisOf base
  outerToRoot := r.outerToRoot.getD base.outerToRoot
  commentDoc tree c := match r.commentStyle with
    | some style => style.sketch c
    | none => base.commentDoc tree c
  isBlock c := r.isBlock.getD (base.isBlock c)
  printsOwnComments place := r.ownComments.contains place.nodeHere.kind
  isIgnored attachments place :=
    r.ignored.contains place.nodeHere.kind || base.isIgnored attachments place
  preprocess := r.replacement.map fun replacement tree _ => replacement.getD tree

/-- A grammar with defaults throughout, that prints a node as its source. -/
def plain : Grammar where
  rule scene place _ := Rule.owned (scene.tree.slice place.nodeHere.span)

end Ruleset

end SourceLayout
