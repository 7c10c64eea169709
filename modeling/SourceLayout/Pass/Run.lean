import SourceLayout.Comment.Assignment
import SourceLayout.Pass.Print

/-! # Whole passes

A pass attaches the comments of a tree, prints it from the root and makes sure that no comment
was lost. Code of another language is formatted by a pass of its own, nested in the pass that
asks for it.
-/

namespace SourceLayout.Pass

variable [TextWidth] (nested : Text → Text → Options → SessionM Doc) (job : Job)

/-- Fails with the first comment that was not printed. -/
def checkComments : PassM Unit := do
  let printed := (← get).printed
  match job.scene.tree.commentIds.find? fun c => !printed.contains c with
  | some c =>
    let comment := job.scene.tree.comment c
    throw (.unprinted comment.text.trim comment.span)
  | none => return ()

/-- Prints the whole tree of a job, moves it right and breaks what must break. -/
def printTree : PassM Doc := do
  let tree := job.scene.tree
  let options := job.scene.options
  let doc ← printAt nested job (depthLimit tree) (.atRoot tree) none
  let shifted ←
    if options.shift > 0 then PassM.ofDoc do
      Build.shiftRight options.shift options.tabWidth (← Build.append (← Build.line .hard) doc)
    else pure doc
  PassM.ofDoc (spreadBreaks shifted)
  checkComments job
  return shifted

/-- A whole pass over a tree: the grammar may replace it, its comments are assigned, and it is
printed. -/
def overTree (language : Option Text) (g : Grammar) (options : Options) (tree : Tree) :
    SessionM Doc := do
  let note (event : Event) : SessionM Unit :=
    modify fun s => { s with journal := ⟨language, event⟩ :: s.journal }
  let tree ← match g.preprocess with
    | some replace => do
      note (.preprocessed tree.nodes.size)
      pure (replace tree options)
    | none => pure tree
  let (attachments, events) ← assignComments g.toCommentPolicy tree
  events.forM note
  let job : Job :=
    { grammar := g, scene := { tree, options, attachments }
      marked := options.cursor.bind (g.nodeAt? tree), language }
  ExceptT.mk fun session =>
    let (result, s) := (printTree nested job).run.run { session }
    (result, s.session)

/-- Formats a text by the language of the given name, `depth` bounding how far passes nest. -/
def formatWithin (languages : Languages) : (depth : Nat) → Text → Text → Options → SessionM Doc
  | 0, _, _, _ => throw .unbounded
  | depth + 1, name, source, options => do
    match languages.get? name with
    | none => throw (.unknownLanguage name)
    | some language =>
      let tree ← language.parse source
      overTree (formatWithin languages depth) (some language.name) language.grammar options tree

/-- How far passes may nest. Embedded code is shorter than what it stands in, and rules that make
code up get many more levels. -/
def nestingLimit (source : Text) : Nat := source.length + 65536

end SourceLayout.Pass

namespace SourceLayout

variable [TextWidth]

/-- The document of a tree, or why there is none, and what happened on the way. -/
def layoutTree (g : Grammar) (languages : Languages) (options : Options) (tree : Tree) :
    Except Failure Doc × Session :=
  (Pass.overTree (Pass.formatWithin languages (Pass.nestingLimit tree.source.text)) none g options
    tree).run.run {}

def layoutText (languages : Languages) (name source : Text) (options : Options) :
    Except Failure Doc × Session :=
  (Pass.formatWithin languages (Pass.nestingLimit source + 1) name source options).run.run {}

end SourceLayout
