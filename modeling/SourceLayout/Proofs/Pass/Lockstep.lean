import SourceLayout.Proofs.Pass.Recall

/-! # Two passes side by side

Nothing that a pass does depends on what was noted before. So two passes from states that differ
in their journals give the same result, also if they note different things, or under different
names. A strict pass does the same as one that is not strict, unless it fails.
-/

namespace SourceLayout

variable {σ ε α β V : Type}

/-- From states that look alike two steps give the same result and lead to states that look alike.
Where failures are excused, the first one may fail instead. -/
def Follows (excused : Prop) (view : σ → V) (x y : ExceptT ε (StateM σ) α) : Prop :=
  ∀ s s', view s = view s' →
    (excused ∧ ∃ e, (x.run.run s).1 = .error e) ∨
      (x.run.run s).1 = (y.run.run s').1 ∧ view (x.run.run s).2 = view (y.run.run s').2

namespace Follows

variable {excused : Prop} {view : σ → V} {x y : ExceptT ε (StateM σ) α}
  {f g : α → ExceptT ε (StateM σ) β}

theorem ofPure (a : α) : Follows excused view (pure a : ExceptT ε (StateM σ) α) (pure a) :=
  fun _ _ h => .inr ⟨rfl, h⟩

theorem ofThrow (e : ε) : Follows excused view (throw e : ExceptT ε (StateM σ) α) (throw e) :=
  fun _ _ h => .inr ⟨rfl, h⟩

theorem ofModify {f g : σ → σ} (h : ∀ s s', view s = view s' → view (f s) = view (g s')) :
    Follows excused view (modify f : ExceptT ε (StateM σ) PUnit) (modify g) :=
  fun s s' hs => .inr ⟨rfl, h s s' hs⟩

theorem get_bind {f g : σ → ExceptT ε (StateM σ) α}
    (h : ∀ s s', view s = view s' → Follows excused view (f s) (g s')) :
    Follows excused view (get >>= f) (get >>= g) :=
  fun s s' hs => h s s' hs s s' hs

section Run

variable {s s' s₁ : σ} (h : Follows excused view x y) (hs : view s = view s')
include h hs

theorem of_ok {a : α} (hx : x.run.run s = (.ok a, s₁)) :
    ∃ s₁', y.run.run s' = (.ok a, s₁') ∧ view s₁ = view s₁' := by
  have hrun := h s s' hs
  rw [hx] at hrun
  obtain ⟨-, e, he⟩ | ⟨hsame, hview⟩ := hrun
  · cases he
  · exact ⟨(y.run.run s').2, Prod.ext hsame.symm rfl, hview⟩

theorem of_error {e : ε} (hx : x.run.run s = (.error e, s₁)) :
    excused ∨ ∃ s₁', y.run.run s' = (.error e, s₁') ∧ view s₁ = view s₁' := by
  have hrun := h s s' hs
  rw [hx] at hrun
  obtain ⟨hexcused, -⟩ | ⟨hsame, hview⟩ := hrun
  · exact .inl hexcused
  · exact .inr ⟨(y.run.run s').2, Prod.ext hsame.symm rfl, hview⟩

theorem same (hnot : ¬ excused) : (x.run.run s).1 = (y.run.run s').1 ∧
    view (x.run.run s).2 = view (y.run.run s').2 :=
  (h s s' hs).resolve_left fun hfail => hnot hfail.1

end Run

theorem bind (hx : Follows excused view x y) (hf : ∀ a, Follows excused view (f a) (g a)) :
    Follows excused view (x >>= f) (y >>= g) := by
  intro s s' hs
  rw [run_bind_eq, run_bind_eq]
  rcases hxs : x.run.run s with ⟨e | a, s₁⟩
  · obtain hexcused | ⟨s₁', hys, hview⟩ := hx.of_error hs hxs
    · exact .inl ⟨hexcused, e, rfl⟩
    · rw [hys]
      exact .inr ⟨rfl, hview⟩
  · obtain ⟨s₁', hys, hview⟩ := hx.of_ok hs hxs
    rw [hys]
    exact hf a s₁ s₁' hview

theorem tryCatch {f g : ε → ExceptT ε (StateM σ) α} (hx : Follows excused view x y)
    (hexcused : excused → ∀ e s, ∃ e', ((f e).run.run s).1 = .error e')
    (hf : ∀ e, Follows excused view (f e) (g e)) :
    Follows excused view (tryCatch x f) (tryCatch y g) := by
  intro s s' hs
  rw [run_tryCatch_eq, run_tryCatch_eq]
  rcases hxs : x.run.run s with ⟨e | a, s₁⟩
  · obtain h | ⟨s₁', hys, hview⟩ := hx.of_error hs hxs
    · exact .inl ⟨h, hexcused h e s₁⟩
    · rw [hys]
      exact hf e s₁ s₁' hview
  · obtain ⟨s₁', hys, hview⟩ := hx.of_ok hs hxs
    rw [hys]
    exact .inr ⟨rfl, hview⟩

theorem program {Q : Type} {answer answer' : Q → ExceptT ε (StateM σ) Doc}
    (h : ∀ q, Follows excused view (answer q) (answer' q)) (p : Program Q α) :
    Follows excused view (p.run answer) (p.run answer') := by
  induction p with
  | done a => exact ofPure a
  | ask q next ih => exact (h q).bind ih

theorem mono {excused' : Prop} (hx : Follows excused view x y) (h : excused → excused') :
    Follows excused' view x y := fun s s' hs =>
  (hx s s' hs).imp_left fun hfail => ⟨h hfail.1, hfail.2⟩

theorem forM {f g : α → ExceptT ε (StateM σ) Unit} (h : ∀ a, Follows excused view (f a) (g a))
    (as : List α) : Follows excused view (as.forM f) (as.forM g) := by
  induction as with
  | nil => exact ofPure _
  | cons a as ih => exact (h a).bind fun _ => ih

end Follows

/-- What a pass works with, apart from the journal. -/
def PassState.substance (s : PassState) :
    Store × Std.TreeSet CommentId × Std.TreeMap NodeId Doc :=
  (s.session.store, s.printed, s.cache)

/-- The options of two passes are the same, unless the first pass is strict and the second is
not. -/
def Options.Tightens (o o' : Options) : Prop := o = o' ∨ o = { o' with strict := true }

namespace Options.Tightens

variable {o o' : Options}

theorem strict (h : o.Tightens o') (hne : o ≠ o') : o.strict = true := by
  rw [h.resolve_left hne]

theorem nested (h : o.Tightens o') : o.nested.Tightens o'.nested := by
  rcases h with rfl | rfl
  · exact .inl rfl
  · exact .inr rfl

end Options.Tightens

/-- A grammar does not look at the options, except to hand them on for embedded code. -/
structure Grammar.Heedless (g : Grammar) : Prop where
  preprocess : g.preprocess = none
  rule : ∀ scene options place flags,
    g.rule { scene with options } place flags = g.rule scene place flags
  embed : ∀ (excused : Prop) scene options place (answer answer' : Request → PassM Doc),
    (∀ q, Follows excused PassState.substance (answer q) (answer' q)) →
    (∀ name source, Follows excused PassState.substance
      (answer (.format name source scene.options.nested))
      (answer' (.format name source options.nested))) →
    Follows excused PassState.substance ((g.embed scene place).run answer)
      ((g.embed { scene with options } place).run answer')

def Job.beside (job : Job) (language : Option Text) (options : Options) : Job :=
  { job with language, scene := { job.scene with options } }

namespace Pass

section Primitive

variable {excused : Prop}

theorem follows_ofDoc {α : Type} (x : DocM α) :
    Follows excused PassState.substance (PassM.ofDoc x) (PassM.ofDoc x) := by
  intro s s' hs
  obtain ⟨hstore, hrest⟩ := Prod.mk.inj hs
  refine .inr ⟨?_, Prod.ext ?_ hrest⟩
  · exact congrArg (fun store => Except.ok (x.run store).1) hstore
  · exact congrArg (fun store => (x.run store).2) hstore

theorem follows_ofSession {α : Type} {x y : SessionM α} (h : Follows excused Session.store x y) :
    Follows excused PassState.substance (PassM.ofSession x) (PassM.ofSession y) := by
  intro s s' hs
  obtain ⟨hstore, hrest⟩ := Prod.mk.inj hs
  refine (h s.session s'.session hstore).imp id ?_
  rintro ⟨hresult, hview⟩
  exact ⟨hresult, Prod.ext hview hrest⟩

theorem follows_note (job job' : Job) (event event' : Event) :
    Follows excused PassState.substance (PassM.note job event) (PassM.note job' event') :=
  .ofModify fun _ _ => id

theorem follows_markPrinted (cs : List CommentId) :
    Follows excused PassState.substance (PassM.markPrinted cs) (PassM.markPrinted cs) := by
  apply Follows.ofModify
  intro s s' hs
  exact congrArg (fun v => (v.1, v.2.1.insertMany cs, v.2.2)) hs

theorem follows_remember (n : NodeId) (doc : Doc) :
    Follows excused PassState.substance (PassM.remember n doc) (PassM.remember n doc) := by
  apply Follows.ofModify
  intro s s' hs
  exact congrArg (fun v => (v.1, v.2.1, v.2.2.insert n doc)) hs

/-- Passes that look for a document find the same one, whether they tell or not. -/
theorem follows_recalled {way way' : Recall} (h : way = .forget ↔ way' = .forget)
    (job job' : Job) (n : NodeId) :
    Follows excused PassState.substance (recalled way job n) (recalled way' job' n) := by
  apply Follows.get_bind
  intro s s' hs
  have hcache : s.cache = s'.cache := congrArg (fun v => v.2.2) hs
  rw [hcache]
  have hnotes : ∀ job job' (known : Option Doc), Follows excused PassState.substance
      (known.forM fun doc => PassM.note job (.printed n doc))
      (known.forM fun doc => PassM.note job' (.printed n doc)) := by
    intro job job' known
    cases known with
    | none => exact .ofPure _
    | some doc => exact follows_note _ _ _ _
  have hquiet : ∀ job (known : Option Doc),
      Follows excused PassState.substance (pure ())
        (known.forM fun doc => PassM.note job (.printed n doc)) ∧
      Follows excused PassState.substance (known.forM fun doc => PassM.note job (.printed n doc))
        (pure ()) := by
    intro job known
    cases known with
    | none => exact ⟨.ofPure _, .ofPure _⟩
    | some doc => exact ⟨fun _ _ hs => .inr ⟨rfl, hs⟩, fun _ _ hs => .inr ⟨rfl, hs⟩⟩
  cases way <;> cases way' <;> try simp at h
  · exact .ofPure _
  · exact (hquiet job' _).1.bind fun _ => .ofPure _
  · exact (hquiet job _).2.bind fun _ => .ofPure _
  · exact (hnotes job job' _).bind fun _ => .ofPure _
  · exact .ofPure _

end Primitive

section Print

variable {nested nested' : Text → Text → Options → SessionM Doc} {job : Job}
  {language : Option Text} {o' : Options} {print print' : Cursor → Option Flags → PassM Doc}
  (h : job.scene.options.Tightens o') (hg : job.grammar.Heedless)
  (hnested : ∀ name source o o', o.Tightens o' →
    Follows (o ≠ o') Session.store (nested name source o) (nested' name source o'))
  (hprint : ∀ place flags, Follows (job.scene.options ≠ o') PassState.substance
    (print place flags) (print' place flags))

include h in
theorem follows_finish {excused : Prop} (doc : Doc) :
    Follows excused PassState.substance (finish job doc)
      (finish (job.beside language o') doc) := by
  have hshifted : shifted (job.beside language o').scene.options = shifted job.scene.options := by
    rcases h with rfl | h
    · rfl
    · rw [h]
      rfl
  have hcheck : Follows excused PassState.substance (checkComments job) (checkComments job) := by
    apply Follows.get_bind
    intro s s' hs
    have hprinted : s.printed = s'.printed := congrArg (fun v => v.2.1) hs
    rw [hprinted]
    dsimp only
    split
    · exact .ofThrow _
    · exact .ofPure _
  unfold finish
  rw [hshifted, show checkComments (job.beside language o') = checkComments job from rfl]
  refine Follows.bind ?_ fun doc => (follows_ofDoc _).bind fun _ => hcheck.bind fun _ => .ofPure _
  unfold shifted
  split
  · exact follows_ofDoc _
  · exact .ofPure _

variable [TextWidth]

theorem follows_printComment {excused : Prop} (c : CommentId) :
    Follows excused PassState.substance (printComment job c)
      (printComment (job.beside language o') c) :=
  (follows_markPrinted _).bind fun _ => (follows_ofDoc _).bind fun _ =>
    (follows_note _ _ _ _).bind fun _ => .ofPure _

theorem follows_reproduce {excused : Prop} (n : NodeId) :
    Follows excused PassState.substance (reproduce job n) (reproduce (job.beside language o') n) :=
  (follows_note _ _ _ _).bind fun _ => (follows_markPrinted _).bind fun _ => follows_ofDoc _

include hnested hprint

theorem follows_answer (q : Request) :
    Follows (job.scene.options ≠ o') PassState.substance (answer nested job print q)
      (answer nested' (job.beside language o') print' q) := by
  cases q with
  | build c => exact follows_ofDoc _
  | print place flags => exact hprint place flags
  | comment c => exact follows_printComment c
  | format name source o =>
    exact follows_ofSession ((hnested name source o o (.inl rfl)).mono fun hne => absurd rfl hne)
  | refuse message => exact .ofThrow _

theorem follows_run {α : Type} (x : Rule α) :
    Follows (job.scene.options ≠ o') PassState.substance (x.run (answer nested job print))
      (x.run (answer nested' (job.beside language o') print')) :=
  .program (follows_answer hnested hprint) x

include hg

theorem follows_runRule (place : Cursor) (flags : Option Flags) :
    Follows (job.scene.options ≠ o') PassState.substance (runRule nested job print place flags)
      (runRule nested' (job.beside language o') print' place flags) := by
  refine (follows_note _ _ _ _).bind fun _ => ?_
  change Follows _ _ _ ((job.grammar.rule { job.scene with options := o' } place flags).run _)
  rw [hg.rule job.scene o']
  exact follows_run hnested hprint _

include h

theorem follows_runEmbed (place : Cursor) :
    Follows (job.scene.options ≠ o') PassState.substance (runEmbed nested job print place)
      (runEmbed nested' (job.beside language o') print' place) := by
  have hembedding : (job.beside language o').scene.options.embedding =
      job.scene.options.embedding := by
    rcases h with rfl | h
    · rfl
    · rw [h]
      rfl
  have hattempt : Follows (job.scene.options ≠ o') PassState.substance
      ((job.grammar.embed job.scene place).run (answer nested job print))
      ((job.grammar.embed { job.scene with options := o' } place).run
        (answer nested' (job.beside language o') print')) := by
    refine hg.embed _ _ _ _ _ _ (follows_answer hnested hprint) fun name source => ?_
    exact follows_ofSession
      ((hnested name source _ _ h.nested).mono fun hne heq => hne (by rw [heq]))
  rw [runEmbed_eq, runEmbed_eq, hembedding]
  split
  · exact .ofPure _
  · refine (follows_note _ _ _ _).bind fun _ => hattempt.tryCatch ?_ fun e => ?_
    · intro hne e s
      rw [if_pos (h.strict hne)]
      exact ⟨e, rfl⟩
    · by_cases hne : job.scene.options = o'
      · subst hne
        change Follows _ _ (if job.scene.options.strict then throw e else pure none)
          (if job.scene.options.strict then throw e else pure none)
        split
        · exact .ofThrow _
        · exact .ofPure _
      · rw [if_pos (h.strict hne)]
        exact fun s s' _ => .inl ⟨hne, e, rfl⟩

theorem follows_printNode (place : Cursor) (n : NodeId) (flags : Option Flags) :
    Follows (job.scene.options ≠ o') PassState.substance (printNode nested job print place n flags)
      (printNode nested' (job.beside language o') print' place n flags) := by
  rw [printNode_eq, printNode_eq]
  refine Follows.bind ?_ fun doc => Follows.bind ?_ fun commented =>
    (follows_note _ _ _ _).bind fun _ => .ofPure _
  · unfold printContent
    change Follows _ _ _ (if job.grammar.isIgnored job.scene.attachments place then _ else _)
    split
    · exact follows_reproduce n
    · refine (follows_runEmbed h hg hnested hprint place).bind fun doc => ?_
      cases doc with
      | some doc => exact .ofPure _
      | none => exact follows_runRule hg hnested hprint place flags
  · unfold printAround
    change Follows _ _ _ (if job.grammar.printsOwnComments place then _ else _)
    split
    · exact .ofPure _
    · exact follows_run hnested hprint _

omit hprint in
theorem follows_printBy {way way' : Recall} (hrecall : way = .forget ↔ way' = .forget)
    (depth : Nat) (place : Cursor) (flags : Option Flags) :
    Follows (job.scene.options ≠ o') PassState.substance (printBy way nested job depth place flags)
      (printBy way' nested' (job.beside language o') depth place flags) := by
  induction depth generalizing place flags with
  | zero => exact .ofThrow _
  | succ depth ih =>
    unfold printBy
    split
    · exact follows_ofDoc _
    · exact follows_ofDoc _
    · exact follows_runRule hg hnested ih place flags
    · split
      · exact follows_printNode h hg hnested ih place _ _
      · refine (follows_recalled hrecall _ _ _).bind fun known => ?_
        cases known with
        | some doc => exact .ofPure _
        | none =>
          exact (follows_printNode h hg hnested ih place _ _).bind fun doc =>
            (follows_remember _ _).bind fun _ => .ofPure _

omit hprint in
theorem follows_printTreeBy {way way' : Recall}
    (hrecall : way = .forget ↔ way' = .forget) :
    Follows (job.scene.options ≠ o') PassState.substance (printTreeBy way nested job)
      (printTreeBy way' nested' (job.beside language o')) :=
  (follows_printBy h hg hnested hrecall _ _ _).bind fun doc => follows_finish h doc

end Print

section Run

variable {nested nested' : Text → Text → Options → SessionM Doc} {way way' : Recall}
  {o o' : Options}

theorem follows_perform {excused : Prop} {work work' : PassM Doc}
    (h : Follows excused PassState.substance work work') :
    Follows excused Session.store (perform work) (perform work') := by
  intro s s' hs
  refine (h { session := s } { session := s' } (Prod.ext hs rfl)).imp id ?_
  rintro ⟨hresult, hview⟩
  exact ⟨hresult, congrArg Prod.fst hview⟩

theorem follows_noteUnder {excused : Prop} (language language' : Option Text) (event : Event) :
    Follows excused Session.store (noteUnder language event) (noteUnder language' event) :=
  .ofModify fun _ _ => id

theorem follows_lift {excused : Prop} {α : Type} (x : Except Failure α) :
    Follows excused Session.store (liftM x : SessionM α) (liftM x) := by
  cases x with
  | ok a => exact .ofPure a
  | error e => exact .ofThrow e

variable [TextWidth] (hrecall : way = .forget ↔ way' = .forget) (h : o.Tightens o')
include hrecall h

theorem follows_overTreeBy
    (hnested : ∀ name source o o', o.Tightens o' →
      Follows (o ≠ o') Session.store (nested name source o) (nested' name source o'))
    {g : Grammar} (hg : g.Heedless) (language language' : Option Text) (tree : Tree) :
    Follows (o ≠ o') Session.store (overTreeBy way nested language g o tree)
      (overTreeBy way' nested' language' g o' tree) := by
  have hcursor : o.cursor = o'.cursor := by
    rcases h with rfl | rfl
    · rfl
    · rfl
  have hassigned : ∀ tree, Follows (o ≠ o') Session.store
      (overAssignedBy way nested language g o tree)
      (overAssignedBy way' nested' language' g o' tree) := by
    intro tree
    refine (follows_lift _).bind fun ⟨attachments, events⟩ => ?_
    refine (Follows.forM (follows_noteUnder _ _) _).bind fun _ => follows_perform ?_
    have hjob : jobFor language' g o' tree attachments =
        (jobFor language g o tree attachments).beside language' o' := by
      simp [jobFor, Job.beside, hcursor]
    rw [hjob]
    change Follows ((jobFor language g o tree attachments).scene.options ≠ o') _ _ _
    exact follows_printTreeBy h hg hnested hrecall
  unfold overTreeBy
  rw [hg.preprocess]
  exact hassigned tree

omit h in
/-- Formatting a text gives the same whatever was noted before, and also if it is strict, unless it
fails. -/
theorem follows_formatBy {languages : Languages} (hg : ∀ l ∈ languages, l.grammar.Heedless)
    (depth : Nat) (name source : Text) (o o' : Options) (h : o.Tightens o') :
    Follows (o ≠ o') Session.store (formatBy way languages depth name source o)
      (formatBy way' languages depth name source o') := by
  induction depth generalizing name source o o' with
  | zero => exact .ofThrow _
  | succ depth ih =>
    unfold formatBy
    split
    · exact .ofThrow _
    · rename_i language hlanguage
      refine (follows_lift _).bind fun tree => ?_
      exact follows_overTreeBy hrecall h ih
        (hg language (List.mem_of_find?_eq_some hlanguage)) _ _ _

end Run

end Pass

end SourceLayout
