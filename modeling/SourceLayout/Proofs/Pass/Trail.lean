import SourceLayout.Proofs.Comment.Assignment
import SourceLayout.Proofs.Pass.Parts

/-! # What the outermost pass does with comments

The trail of a session are the comments that the outermost pass printed and the nodes that it
reproduced as written, in order. A nested pass writes to the journal under the name of its
language, so it leaves the trail as it is, whether it succeeds or not.
-/

namespace SourceLayout

inductive Step
  | comment (c : CommentId)
  | reproduced (n : NodeId)
  deriving DecidableEq, Repr

def Entry.step? : Entry → Option Step
  | ⟨none, .comment c _⟩ => some (.comment c)
  | ⟨none, .reproduced n⟩ => some (.reproduced n)
  | _ => none

/-- The comments printed and the nodes reproduced by the outermost pass, the earliest first. -/
def Session.trail (s : Session) : List Step := s.journal.reverse.filterMap Entry.step?

def PassState.trail (s : PassState) : List Step := s.session.trail

theorem Session.trail_cons (s : Session) (e : Entry) :
    { s with journal := e :: s.journal : Session }.trail = s.trail ++ e.step?.toList := by
  rw [trail, List.reverse_cons, List.filterMap_append]
  congr 1

theorem Entry.step?_some (language : Text) (event : Event) :
    Entry.step? ⟨some language, event⟩ = none := rfl

namespace Pass

theorem trail_note (job : Job) (event : Event) (s : PassState) :
    ((PassM.note job event).run.run s).2.trail =
      s.trail ++ (Entry.step? ⟨job.language, event⟩).toList :=
  Session.trail_cons s.session _

theorem keeps_trail_note {job : Job} {event : Event}
    (h : Entry.step? ⟨job.language, event⟩ = none) :
    Keeps PassState.trail (PassM.note job event) := by
  intro s
  rw [trail_note, h, Option.toList_none, List.append_nil]

theorem trail_printComment [TextWidth] {job : Job} (hjob : job.language = none) (c : CommentId)
    (s : PassState) :
    ((printComment job c).run.run s).2.trail = s.trail ++ [.comment c] := by
  change { s.session with
    store := _, journal := ⟨job.language, _⟩ :: s.session.journal : Session }.trail = _
  rw [hjob]
  exact Session.trail_cons s.session _

theorem trail_reproduce [TextWidth] {job : Job} (hjob : job.language = none) (n : NodeId)
    (s : PassState) :
    ((reproduce job n).run.run s).2.trail = s.trail ++ [.reproduced n] := by
  change { s.session with
    store := _, journal := ⟨job.language, _⟩ :: s.session.journal : Session }.trail = _
  rw [hjob]
  exact Session.trail_cons s.session _

theorem trail_noted {events : List Event} (h : ∀ e ∈ events, Assignment.IsQuestion e)
    (session : Session) : (noted none events session).trail = session.trail := by
  have hnone : (events.map (Entry.mk none)).filterMap Entry.step? = [] := by
    rw [List.filterMap_map, List.filterMap_eq_nil_iff]
    intro e he
    rcases h e he with ⟨position, d, isLast, rfl⟩ | ⟨enclosing, rfl⟩
    · rfl
    · rfl
  rw [Session.trail, noted, List.reverse_append, List.reverse_reverse, List.filterMap_append, hnone,
    List.append_nil, Session.trail]

theorem keeps_lift {σ V α : Type} {view : σ → V} (x : Except Failure α) :
    Keeps view (liftM x : ExceptT Failure (StateM σ) α) := by
  intro s
  cases x <;> rfl

variable {nested : Text → Text → Options → SessionM Doc} {job : Job} {language : Text}
  (hnested : ∀ name source options, Keeps Session.trail (nested name source options))
  (hjob : job.language = some language)

theorem keeps_ofSession {α : Type} {x : SessionM α} (h : Keeps Session.trail x) :
    Keeps PassState.trail (PassM.ofSession x) := fun s => h s.session

include hjob in
theorem keeps_note (event : Event) :
    Keeps PassState.trail (PassM.note job event) :=
  keeps_trail_note (by rw [hjob, Entry.step?_some])

include hjob in
theorem keeps_printComment [TextWidth] (c : CommentId) :
    Keeps PassState.trail (printComment job c) := by
  have hmark : Keeps PassState.trail (PassM.markPrinted [c]) := fun _ => rfl
  have hdoc : ∀ x : DocM Doc, Keeps PassState.trail (PassM.ofDoc x) := fun _ _ => rfl
  exact hmark.bind fun _ => (hdoc _).bind fun _ => (keeps_note hjob _).bind fun _ => .ofPure _

include hjob in
theorem keeps_reproduce [TextWidth] (n : NodeId) : Keeps PassState.trail (reproduce job n) := by
  have hmark : ∀ cs, Keeps PassState.trail (PassM.markPrinted cs) := fun _ _ => rfl
  have hdoc : ∀ x : DocM Doc, Keeps PassState.trail (PassM.ofDoc x) := fun _ _ => rfl
  exact (keeps_note hjob _).bind fun _ => (hmark _).bind fun _ => hdoc _

theorem trail_printTree [TextWidth] (nested : Text → Text → Options → SessionM Doc) (job : Job)
    (s : PassState) :
    ((printTree nested job).run.run s).2.trail =
      ((printAt nested job (depthLimit job.scene.tree) (.atRoot job.scene.tree) none).run.run s).2.trail := by
  have hrest : ∀ doc, Keeps PassState.trail (do
      let doc ← shifted job.scene.options doc
      PassM.ofDoc (spreadBreaks doc)
      checkComments job
      return doc) := by
    intro doc
    refine Keeps.bind ?_ fun doc => Keeps.bind (fun _ => rfl) fun _ =>
      Keeps.bind ?_ fun _ => .ofPure _
    · unfold shifted
      split
      · exact fun _ => rfl
      · exact .ofPure _
    · refine Keeps.ofGet.bind fun s => ?_
      dsimp only
      split
      · exact .ofThrow _
      · exact .ofPure _
  rw [printTree_eq, run_bind_eq]
  rcases (printAt nested job (depthLimit job.scene.tree) (.atRoot job.scene.tree) none).run.run s with
    ⟨e | doc, s'⟩
  · rfl
  · exact hrest doc s'

include hnested hjob

/-- Under the name of a language, no step of a pass shows in the trail. -/
theorem steady_trail [TextWidth] : Steady nested job fun s s' => s'.trail = s.trail where
  refl _ := rfl
  trans _ _ _ h h' := h'.trans h
  ofDoc _ _ := rfl
  nested name source options := keeps_ofSession (hnested name source options)
  comment := keeps_printComment hjob
  reproduce := keeps_reproduce hjob
  rule _ _ _ := keeps_note hjob _
  embedding _ := keeps_note hjob _
  printed _ _ := keeps_note hjob _
  remember _ _ _ := rfl

omit hnested hjob in
theorem keeps_noteUnder (event : Event) :
    Keeps Session.trail (noteUnder (some language) event) := by
  intro s
  change { s with journal := ⟨some language, event⟩ :: s.journal : Session }.trail = _
  rw [Session.trail_cons, Entry.step?_some, Option.toList_none, List.append_nil]

omit hjob in
theorem keeps_overTree [TextWidth] (g : Grammar) (options : Options) (tree : Tree) :
    Keeps Session.trail (overTree nested (some language) g options tree) := by
  have hassigned :
      ∀ tree, Keeps Session.trail (overAssigned nested (some language) g options tree) := by
    intro tree
    refine (keeps_lift _).bind fun ⟨attachments, events⟩ =>
      (Keeps.forM keeps_noteUnder).bind fun _ => ?_
    intro session
    exact (steady_trail hnested rfl).printTree { session }
  rw [overTree_eq]
  split
  · exact (keeps_noteUnder _).bind fun _ => hassigned _
  · exact hassigned _

omit hnested hjob in
/-- A nested pass leaves the trail as it is, whatever it formats and however it ends. -/
theorem keeps_formatWithin [TextWidth] (languages : Languages) (depth : Nat) (name source : Text)
    (options : Options) :
    Keeps Session.trail (formatWithin languages depth name source options) := by
  induction depth generalizing name source options with
  | zero => exact .ofThrow _
  | succ depth ih =>
    unfold formatWithin
    split
    · exact .ofThrow _
    · exact (keeps_lift _).bind fun tree => keeps_overTree ih _ _ _

end Pass

end SourceLayout
