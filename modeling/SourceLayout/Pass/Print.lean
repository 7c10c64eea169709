import SourceLayout.Pass.State
import SourceLayout.Pass.Surround

/-! # Printing a tree

Nodes are printed by the rules of their grammar and surrounded with their comments. A node that
is asked for without flags is printed once, and the same document is handed out again. Embedded
code comes first; where that fails, the regular rule takes over unless the pass is strict.
-/

namespace SourceLayout.Pass

variable [TextWidth] (nested : Text → Text → Options → SessionM Doc) (job : Job)

def printComment (c : CommentId) : PassM Doc := do
  PassM.markPrinted [c]
  let sketch := job.grammar.commentDoc job.scene.tree (job.scene.tree.comment c)
  let doc ← PassM.ofDoc (sketch.run Construction.build)
  PassM.note job (.comment c doc)
  return doc

/-- Answers the request of a rule, with `print` for other values of the tree. -/
def answer (print : Cursor → Option Flags → PassM Doc) : Request → PassM Doc
  | .build c => PassM.ofDoc c.build
  | .print place flags => print place flags
  | .comment c => printComment job c
  | .format language source options => PassM.ofSession (nested language source options)
  | .refuse message => throw (.refused message)

/-- The source of a node as written. The comments in it count as printed. -/
def reproduce (n : NodeId) : PassM Doc := do
  let span := (job.scene.tree.node n).span
  PassM.note job (.reproduced n)
  PassM.markPrinted
    (job.scene.tree.commentIds.filter fun c => span.contains (job.scene.tree.comment c).span)
  PassM.ofDoc (Build.verbatim (job.scene.tree.slice span))

def runRule (print : Cursor → Option Flags → PassM Doc) (place : Cursor) (flags : Option Flags) :
    PassM Doc := do
  let isList := match place.value with
    | .list _ => true
    | _ => false
  PassM.note job (.rule place.node isList flags.isSome)
  (job.grammar.rule job.scene place flags).run (answer nested job print)

/-- Tries to print a node as embedded code. -/
def runEmbed (print : Cursor → Option Flags → PassM Doc) (place : Cursor) :
    PassM (Option Doc) := do
  if !job.scene.options.embedding then return none
  PassM.note job (.embedding place.node)
  try (job.grammar.embed job.scene place).run (answer nested job print)
  catch failure => if job.scene.options.strict then throw failure else return none

def printNode (print : Cursor → Option Flags → PassM Doc) (place : Cursor) (n : NodeId)
    (flags : Option Flags) : PassM Doc := do
  let doc ←
    if job.grammar.isIgnored job.scene.attachments place then reproduce job n
    else
      match ← runEmbed nested job print place with
      | some doc => pure doc
      | none => runRule nested job print place flags
  let commented ←
    if job.grammar.printsOwnComments place then pure doc
    else
      (Rule.surround job.grammar job.scene job.marked n doc).run (answer nested job print)
  PassM.note job (.printed n commented)
  return commented

/-- Prints the value under a cursor, `depth` bounding how far rules may call one another. -/
def printAt : (depth : Nat) → Cursor → Option Flags → PassM Doc
  | 0, _, _ => throw .unbounded
  | depth + 1, place, flags =>
    match place.value with
    | .null => PassM.ofDoc Build.nil
    | .str content => PassM.ofDoc (Build.text .owned content)
    | .list _ => runRule nested job (printAt depth) place flags
    | .node n =>
      match flags with
      | some _ => printNode nested job (printAt depth) place n flags
      | none => do
        match (← get).cache[n]? with
        | some doc => return doc
        | none =>
          let doc ← printNode nested job (printAt depth) place n none
          PassM.remember n doc
          return doc

/-- How deep printing may go in a tree: each value may be printed from within itself, with other
flags, many times over. -/
def depthLimit (t : Tree) : Nat := 65536 * (t.weight + 1)

end SourceLayout.Pass
