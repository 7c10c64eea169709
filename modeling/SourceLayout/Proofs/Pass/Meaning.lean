import SourceLayout.Proofs.Doc.Plain
import SourceLayout.Proofs.Pass.Recall

/-! # What a pass means

In a tree whose nodes refer only to earlier ones, what a node comes to is determined by the nodes
it refers to: a document without labels or a failure, and the comments that are shown on the way.
Neither the place where the node is asked for nor what was printed before plays a part in it.
-/

namespace SourceLayout

/-- How a run ends, and the comments that it shows on the way. -/
structure Account (α : Type) where
  outcome : Except Failure α
  shown : List CommentId := []

instance : Monad Account where
  pure a := { outcome := .ok a }
  bind x f :=
    match x.outcome with
    | .ok a => { outcome := (f a).outcome, shown := x.shown ++ (f a).shown }
    | .error e => { outcome := .error e, shown := x.shown }

namespace Account

variable {α : Type}

theorem bind_pure (x : Account α) : x >>= pure = x := by
  obtain ⟨outcome, shown⟩ := x
  cases outcome with
  | ok a => exact congrArg (mk _) (List.append_nil shown)
  | error e => rfl

def orElse (strict : Bool) (b : α) (x : Account α) : Account α :=
  match x.outcome with
  | .ok _ => x
  | .error e => { x with outcome := if strict then .error e else .ok b }

end Account

namespace Doc

def firstText? (doc : Doc) : Option Text :=
  doc.parts.findSome? fun
    | .text _ _ content => some content
    | _ => none

def isLineComment (doc : Doc) : Bool := doc.firstText?.any (['/', '/'].isPrefixOf ·)

def isText : Doc → Bool
  | .text .. => true
  | _ => false

/-- What a comment comes to. The texts of a line comment are marked. -/
def commentOf [TextWidth] (content : Text) : Doc :=
  if (linesOf content).isLineComment then (linesOf content).bare isText else linesOf content

theorem isText_bare (flags : Doc → Bool) (doc : Doc) : (doc.bare flags).isText = doc.isText := by
  cases doc <;> rfl

theorem isLineComment_bare (flags : Doc → Bool) (doc : Doc) :
    (doc.bare flags).isLineComment = doc.isLineComment := by
  have hfirst : (doc.bare flags).firstText? = doc.firstText? := by
    rw [firstText?, parts_bare, List.findSome?_map, firstText?]
    congr 1
    funext x
    cases x <;> rfl
  rw [isLineComment, hfirst, isLineComment]

def Groupless (doc : Doc) : Prop := ∀ l body, .group l body ∉ doc.parts

theorem Groupless.joined {left right : Doc} (hleft : left.Groupless) (hright : right.Groupless) :
    (left.joined right).Groupless := by
  unfold Doc.joined
  split
  · exact hright
  · split
    · exact hleft
    · intro l body hmem
      rcases List.mem_cons.mp hmem with heq | hmem
      · cases heq
      · exact (List.mem_append.mp hmem).elim (hleft l body) (hright l body)

theorem groupless_linesOf [TextWidth] (content : Text) : (linesOf content).Groupless := by
  have hleaf : ∀ line, (leaf .owned line).Groupless := by
    intro line l body
    unfold leaf
    split
    · simp [parts]
    · split
      · simp [parts]
      · simp [parts]
  have hline : (Doc.line 0 .literal).Groupless := by simp [Groupless, parts]
  have hfold : ∀ (docs : List Doc) (first : Doc), first.Groupless → (∀ doc ∈ docs, doc.Groupless) →
      (docs.foldl (fun soFar doc => (soFar.joined (.line 0 .literal)).joined doc) first).Groupless := by
    intro docs
    induction docs with
    | nil => exact fun _ hfirst _ => hfirst
    | cons doc docs ih =>
      intro first hfirst hdocs
      rw [List.forall_mem_cons] at hdocs
      exact ih _ ((hfirst.joined hline).joined hdocs.1) hdocs.2
  unfold linesOf
  cases content.lines with
  | nil => simp [spaced, Groupless, parts]
  | cons line lines =>
    refine hfold _ _ (hleaf line) fun doc hdoc => ?_
    obtain ⟨line, -, rfl⟩ := List.mem_map.mp hdoc
    exact hleaf line

theorem bare_eq_commentOf [TextWidth] {s : Store} {marks marks' : Label → Bool} {doc : Doc}
    {content : Text} (hdoc : doc.bare (s.flags marks) = linesOf content)
    (hmarks : ∀ l origin line, .text l origin line ∈ doc.parts →
      marks' l = (doc.isLineComment || marks l)) :
    doc.bare (s.flags marks') = commentOf content := by
  have hline : (linesOf content).isLineComment = doc.isLineComment := by
    rw [← hdoc, isLineComment_bare]
  have hgroups : doc.Groupless := by
    intro l body hmem
    have hbare := List.mem_map_of_mem (f := bare (s.flags marks)) hmem
    rw [← parts_bare, hdoc] at hbare
    exact groupless_linesOf content _ _ hbare
  unfold commentOf
  rw [hline]
  split
  · rename_i hcomment
    rw [← hdoc, bare_bare]
    refine bare_congr fun x hx => ?_
    rw [isText_bare]
    cases x with
    | group l body => exact absurd hx (hgroups l body)
    | text l origin line =>
      refine (hmarks l origin line hx).trans ?_
      rw [hcomment]
      rfl
    | _ => rfl
  · rename_i hcomment
    rw [← hdoc]
    refine bare_congr fun x hx => ?_
    cases x with
    | text l origin line =>
      refine (hmarks l origin line hx).trans ?_
      rw [Bool.not_eq_true] at hcomment
      rw [hcomment]
      rfl
    | _ => rfl

end Doc

namespace Cursor

def atNode (t : Tree) (n : NodeId) : Cursor := { tree := t, here := ⟨none, .node n⟩, above := [] }

end Cursor

variable [TextWidth]

namespace Meaning

section Node

variable (nested : Text → Text → Options → Except Failure Doc) (job : Job)

/-- Answers the request of a rule. -/
def answer (print : Cursor → Account Doc) : Request → Account Doc
  | .build c => pure c.plain
  | .print place _ => print place
  | .comment c => { outcome := .ok (.commentOf (job.scene.tree.comment c).text), shown := [c] }
  | .format language source options => { outcome := nested language source options }
  | .refuse message => { outcome := .error (.refused message) }

def reproduced (n : NodeId) : Account Doc :=
  let span := (job.scene.tree.node n).span
  { outcome := .ok (.linesOf (job.scene.tree.slice span))
    shown := job.scene.tree.commentIds.filter fun c =>
      span.contains (job.scene.tree.comment c).span }

variable (print : Cursor → Account Doc) (place : Cursor)

def rule : Account Doc := (job.grammar.rule job.scene place none).run (answer nested job print)

def embedded : Account (Option Doc) :=
  if !job.scene.options.embedding then pure none
  else ((job.grammar.embed job.scene place).run (answer nested job print)).orElse
    job.scene.options.strict none

def content (n : NodeId) : Account Doc :=
  if job.grammar.isIgnored job.scene.attachments place then reproduced job n
  else do
    match ← embedded nested job print place with
    | some doc => pure doc
    | none => rule nested job print place

def around (n : NodeId) (doc : Doc) : Account Doc :=
  if job.grammar.printsOwnComments place then pure doc
  else (Rule.surround job.grammar job.scene job.marked n doc).run (answer nested job print)

def node (n : NodeId) : Account Doc :=
  content nested job print place n >>= around nested job print place n

def value (print : NodeId → Account Doc) : Account Doc :=
  match place.value with
  | .null => pure (.nil 0)
  | .str content => pure (.leaf .owned content)
  | .list _ => rule nested job (fun _ => pure (.nil 0)) place
  | .node n => print n

/-- What a node comes to, if it refers only to earlier ones. -/
def ofNode (n : NodeId) : Account Doc :=
  node nested job (fun place => value nested job place fun m =>
    if m < n then ofNode m else { outcome := .error .unbounded }) (.atNode job.scene.tree n) n
termination_by n

def shifted (options : Options) (doc : Doc) : Doc :=
  if options.shift > 0 then
    ((Doc.line 0 .hard).joined doc).shifted options.shift options.tabWidth
  else doc

/-- What the root comes to, before its breaks are spread. -/
def ofRoot : Account Doc := do
  return shifted job.scene.options (← ofNode nested job job.scene.tree.root)

def checked (shows : CommentId → Bool) : Except Failure Unit :=
  match job.scene.tree.commentIds.find? fun c => !shows c with
  | some c =>
    let comment := job.scene.tree.comment c
    throw (.unprinted comment.text.trim comment.span)
  | none => return ()

/-- What a tree comes to. -/
def ofTree : Except Failure Doc := do
  let doc ← (ofRoot nested job).outcome
  checked job fun c => (ofRoot nested job).shown.contains c
  return doc.hardened

def ofPass (language : Option Text) (g : Grammar) (options : Options) (tree : Tree) :
    Except Failure Doc := do
  let (attachments, _) ← assignComments g.toCommentPolicy tree
  ofTree nested (Pass.jobFor language g options tree attachments)

/-- What a node comes to does not depend on the language that the pass goes by. -/
theorem ofNode_language (language : Option Text) (n : NodeId) :
    ofNode nested { job with language } n = ofNode nested job n := by
  induction n using Nat.strongRecOn with
  | ind n ih =>
    have hprint : (fun place => value nested { job with language } place fun m =>
        if m < n then ofNode nested { job with language } m else { outcome := .error .unbounded }) =
        fun place => value nested job place fun m =>
          if m < n then ofNode nested job m else { outcome := .error .unbounded } := by
      funext place
      change value nested job place _ = _
      congr 1
      funext m
      split
      · rename_i hm
        exact ih m hm
      · rfl
    rw [ofNode, hprint, ofNode]
    rfl

theorem ofPass_language (language : Option Text) (g : Grammar) (options : Options) (tree : Tree) :
    ofPass nested language g options tree = ofPass nested none g options tree := by
  have hroot : ∀ attachments, ofRoot nested (Pass.jobFor language g options tree attachments) =
      ofRoot nested (Pass.jobFor none g options tree attachments) := by
    intro attachments
    unfold ofRoot
    exact congrArg (· >>= _) (ofNode_language nested (Pass.jobFor none g options tree attachments)
      language tree.root)
  unfold ofPass ofTree
  simp only [hroot]
  rfl

end Node

/-- What a text comes to in the language of the given name. -/
def ofText (languages : Languages) : (depth : Nat) → Text → Text → Options → Except Failure Doc
  | 0, _, _, _ => throw .unbounded
  | depth + 1, name, source, options => do
    match languages.get? name with
    | none => throw (.unknownLanguage name)
    | some language =>
      let tree ← language.parse source
      ofPass (ofText languages depth) (some language.name) language.grammar options tree

end Meaning

end SourceLayout
