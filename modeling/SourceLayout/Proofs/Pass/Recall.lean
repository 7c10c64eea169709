import SourceLayout.Proofs.Pass.Parts

/-! # What a pass remembers

A pass hands out the document of a node again when it is asked for the node once more without
flags. It could also tell that it does, or print the node afresh each time. These are three ways
to lay out a tree, nested passes included, and the first of them is the way of all passes.
-/

namespace SourceLayout

/-- What becomes of a node that was printed before, when it is asked for without flags: its document
is handed out again, or that and an entry in the journal, or it is printed afresh. -/
inductive Recall
  | reuse
  | announce
  | forget
  deriving DecidableEq, Repr

variable [TextWidth]

namespace Pass

section Ways

variable (way : Recall) (nested : Text → Text → Options → SessionM Doc) (job : Job)

def recalled (n : NodeId) : PassM (Option Doc) := do
  let known := (← get).cache[n]?
  match way with
  | .reuse => return known
  | .announce =>
    known.forM fun doc => PassM.note job (.printed n doc)
    return known
  | .forget => return none

def printBy : (depth : Nat) → Cursor → Option Flags → PassM Doc
  | 0, _, _ => throw .unbounded
  | depth + 1, place, flags =>
    match place.value with
    | .null => PassM.ofDoc Build.nil
    | .str content => PassM.ofDoc (Build.text .owned content)
    | .list _ => runRule nested job (printBy depth) place flags
    | .node n =>
      match flags with
      | some _ => printNode nested job (printBy depth) place n flags
      | none => do
        match ← recalled way job n with
        | some doc => return doc
        | none =>
          let doc ← printNode nested job (printBy depth) place n none
          PassM.remember n doc
          return doc

theorem printBy_reuse (depth : Nat) :
    printBy .reuse nested job depth = printAt nested job depth := by
  induction depth with
  | zero => rfl
  | succ depth ih =>
    funext place flags
    unfold printBy printAt
    rw [← ih]
    rfl

def finish (doc : Doc) : PassM Doc := do
  let doc ← shifted job.scene.options doc
  PassM.ofDoc (spreadBreaks doc)
  checkComments job
  return doc

def printTreeBy : PassM Doc :=
  printBy way nested job (depthLimit job.scene.tree) (.atRoot job.scene.tree) none >>= finish job

theorem printTreeBy_reuse : printTreeBy .reuse nested job = printTree nested job := by
  rw [printTreeBy, printBy_reuse, printTree_eq]
  rfl

def jobFor (language : Option Text) (g : Grammar) (options : Options) (tree : Tree)
    (attachments : Attachments) : Job where
  grammar := g
  scene := { tree, options, attachments }
  marked := options.cursor.bind (g.nodeAt? tree)
  language := language

def perform (work : PassM Doc) : SessionM Doc :=
  ExceptT.mk fun session =>
    let (result, s) := work.run.run { session }
    (result, s.session)

def overAssignedBy (language : Option Text) (g : Grammar) (options : Options) (tree : Tree) :
    SessionM Doc := do
  let (attachments, events) ← assignComments g.toCommentPolicy tree
  events.forM (noteUnder language)
  perform (printTreeBy way nested (jobFor language g options tree attachments))

def overTreeBy (language : Option Text) (g : Grammar) (options : Options) (tree : Tree) :
    SessionM Doc :=
  match g.preprocess with
  | some replace => do
    noteUnder language (.preprocessed tree.nodes.size)
    overAssignedBy way nested language g options (replace tree options)
  | none => overAssignedBy way nested language g options tree

theorem overTreeBy_reuse : overTreeBy .reuse nested = overTree nested := by
  have hassigned : ∀ language g options tree, overAssignedBy .reuse nested language g options tree =
      overAssigned nested language g options tree := by
    intro language g options tree
    unfold overAssignedBy overAssigned
    apply bind_congr
    rintro ⟨attachments, events⟩
    simp only [printTreeBy_reuse]
    apply bind_congr
    intro _
    unfold jobFor
    generalize printTree nested _ = work
    rfl
  funext language g options tree
  rw [overTree_eq, overTreeBy]
  cases g.preprocess with
  | none => exact hassigned language g options tree
  | some replace => exact bind_congr fun _ => hassigned language g options (replace tree options)

end Ways

def formatBy (way : Recall) (languages : Languages) :
    (depth : Nat) → Text → Text → Options → SessionM Doc
  | 0, _, _, _ => throw .unbounded
  | depth + 1, name, source, options => do
    match languages.get? name with
    | none => throw (.unknownLanguage name)
    | some language =>
      let tree ← language.parse source
      overTreeBy way (formatBy way languages depth) (some language.name) language.grammar
        options tree

theorem formatBy_reuse (languages : Languages) (depth : Nat) :
    formatBy .reuse languages depth = formatWithin languages depth := by
  induction depth with
  | zero => rfl
  | succ depth ih =>
    funext name source options
    unfold formatBy formatWithin
    cases languages.get? name with
    | none => rfl
    | some language => exact bind_congr fun tree => by rw [ih, overTreeBy_reuse]

end Pass

/-- The document of a tree, or why there is none, with all passes of one way. -/
def layoutBy (way : Recall) (g : Grammar) (languages : Languages) (options : Options)
    (tree : Tree) : Except Failure Doc × Session :=
  (Pass.overTreeBy way (Pass.formatBy way languages (Pass.nestingLimit tree.source.text)) none
    g options tree).run.run {}

theorem layoutBy_reuse : layoutBy .reuse = layoutTree := by
  funext g languages options tree
  rw [layoutBy, layoutTree, Pass.formatBy_reuse, Pass.overTreeBy_reuse]

end SourceLayout
