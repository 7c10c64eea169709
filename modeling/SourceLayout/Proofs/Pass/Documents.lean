import SourceLayout.Proofs.Doc.Issued
import SourceLayout.Proofs.Pass.Parts

/-! # The documents of a pass

Rules get documents as answers and name them in further requests. A grammar is honest if its rules
name no other documents than those that they were handed, and parts of them. Then all documents of
a pass were made by builders, those of failed attempts and of nested passes included, and the
document of the whole pass is a graph.
-/

namespace SourceLayout

/-- A program names only documents of a set that grows with the answers, and ends in a value that
`P` holds of. -/
def Program.Honest {Q α : Type} (operands : Q → List Doc) (P : (Doc → Prop) → α → Prop) :
    Program Q α → (known : Doc → Prop) → Prop
  | .done a, known => P known a
  | .ask q next, known => (∀ x ∈ operands q, known x) ∧
    ∀ known' : Doc → Prop, (∀ x, known x → known' x) → ∀ doc, (∀ x ∈ doc.parts, known' x) →
      Honest operands P (next doc) known'

def Request.operands : Request → List Doc
  | .build c => c.operands
  | .print _ _ | .comment _ | .format _ _ _ | .refuse _ => []

/-- A rule names only documents that it knows of or was handed. -/
abbrev Rule.Honest {α : Type} (P : (Doc → Prop) → α → Prop) (known : Doc → Prop) (x : Rule α) :
    Prop :=
  Program.Honest Request.operands P x known

/-- The rules of a grammar know of no document to begin with. -/
structure Grammar.Honest (g : Grammar) : Prop where
  rule : ∀ scene place flags,
    Rule.Honest (fun known => known) (fun _ => False) (g.rule scene place flags)
  embed : ∀ scene place,
    Rule.Honest (fun known doc => ∀ x ∈ doc, known x) (fun _ => False) (g.embed scene place)
  commentDoc : ∀ tree c, Program.Honest Construction.operands (fun known => known)
    (g.commentDoc tree c) fun _ => False

section Program

variable {Q α β : Type} {operands : Q → List Doc} {P : (Doc → Prop) → α → Prop}
  {R : (Doc → Prop) → β → Prop} {known : Doc → Prop}

theorem Program.Honest.bind {x : Program Q α} {f : α → Program Q β}
    (hx : x.Honest operands P known)
    (hf : ∀ known' a, (∀ y, known y → known' y) → P known' a → (f a).Honest operands R known') :
    (x >>= f).Honest operands R known := by
  induction x generalizing known with
  | done a => exact hf known a (fun _ => id) hx
  | ask q next ih =>
    refine ⟨hx.1, fun known' hgrows doc hdoc => ih doc (hx.2 known' hgrows doc hdoc) ?_⟩
    exact fun known'' a hgrows' => hf known'' a fun y hy => hgrows' y (hgrows y hy)

theorem Program.Honest.mono {x : Program Q α} (hx : x.Honest operands P known)
    {known' : Doc → Prop} (hgrows : ∀ y, known y → known' y)
    (hP : ∀ known known' a, (∀ y, known y → known' y) → P known a → P known' a) :
    x.Honest operands P known' := by
  cases x with
  | done a => exact hP known known' a hgrows hx
  | ask q next =>
    exact ⟨fun y hy => hgrows y (hx.1 y hy), fun known'' hgrows' =>
      hx.2 known'' fun y hy => hgrows' y (hgrows y hy)⟩

end Program

namespace Rule

variable {α β γ : Type} {P : (Doc → Prop) → α → Prop} {R : (Doc → Prop) → β → Prop}
  {docs : List Doc}

/-- A rule names no documents but the given ones and those it is handed. -/
def Uses (P : (Doc → Prop) → α → Prop) (docs : List Doc) (x : Rule α) : Prop :=
  ∀ known : Doc → Prop, (∀ y ∈ docs, known y) → Rule.Honest P known x

abbrev UsesDoc (docs : List Doc) (x : Rule Doc) : Prop := Uses (fun known => known) docs x

abbrev UsesDocs (docs : List Doc) (x : Rule (List Doc)) : Prop :=
  Uses (fun known docs => ∀ y ∈ docs, known y) docs x

theorem uses_pure {doc : Doc} (h : doc ∈ docs) : UsesDoc docs (pure doc) := fun _ hdocs =>
  hdocs doc h

theorem uses_request {q : Request} (h : ∀ y ∈ q.operands, y ∈ docs) : UsesDoc docs (request q) :=
  fun _ hdocs => ⟨fun y hy => hdocs y (h y hy), fun _ _ doc hdoc => hdoc doc doc.mem_parts_self⟩

theorem uses_build {c : Construction Doc} (h : ∀ y ∈ c.operands, y ∈ docs) :
    UsesDoc docs (build c) := uses_request h

theorem uses_line (kind : LineKind) : UsesDoc docs (line kind) := uses_build nofun

theorem uses_fixed (content : Text) : UsesDoc docs (fixed content) := uses_build nofun

theorem uses_concat {parts : List Doc} (h : ∀ y ∈ parts, y ∈ docs) : UsesDoc docs (concat parts) :=
  uses_build h

theorem Uses.bind {x : Rule Doc} {f : Doc → Rule β} (hx : UsesDoc docs x)
    (hf : ∀ doc, Uses R (doc :: docs) (f doc)) : Uses R docs (x >>= f) := by
  intro known hdocs
  refine (hx known hdocs).bind fun known' doc hgrows hdoc => hf doc known' ?_
  exact List.forall_mem_cons.mpr ⟨hdoc, fun y hy => hgrows y (hdocs y hy)⟩

theorem Uses.bind_list {x : Rule (List Doc)} {f : List Doc → Rule β} (hx : UsesDocs docs x)
    (hf : ∀ results, Uses R (results ++ docs) (f results)) : Uses R docs (x >>= f) := by
  intro known hdocs
  refine (hx known hdocs).bind fun known' results hgrows hresults => hf results known' ?_
  exact List.forall_mem_append.mpr ⟨hresults, fun y hy => hgrows y (hdocs y hy)⟩

theorem uses_mapM {rule : γ → Rule Doc} {xs : List γ} (h : ∀ x docs, UsesDoc docs (rule x)) :
    UsesDocs docs (xs.mapM rule) := by
  induction xs generalizing docs with
  | nil => exact fun _ _ _ hy => (nomatch hy)
  | cons x xs ih =>
    rw [List.mapM_cons]
    refine (h x docs).bind fun doc => ih.bind_list fun results known hdocs y hy => hdocs y ?_
    rcases List.mem_cons.mp hy with rfl | hy
    · simp
    · simp [hy]

variable (g : Grammar) (scene : Scene)

theorem uses_leadingComment (c : CommentId) : UsesDoc docs (leadingComment g scene c) := by
  have hseparator : ∀ docs, UsesDoc docs (leadingSeparator g scene (scene.tree.comment c)) := by
    intro docs
    unfold leadingSeparator
    split
    · exact uses_line _
    · split
      · split
        · exact uses_line _
        · exact uses_line _
      · exact uses_fixed _
  refine Uses.bind (uses_request nofun) fun contents => (hseparator _).bind fun separator => ?_
  refine (uses_build (by simp [Construction.operands])).bind fun doc => ?_
  split
  · exact (uses_line _).bind fun _ => uses_build (by simp [Construction.operands])
  · exact uses_pure (by simp)

theorem uses_heldBack {blank contents : Doc} (hblank : blank ∈ docs) (hcontents : contents ∈ docs) :
    UsesDoc docs (heldBack blank contents) :=
  (uses_line _).bind fun line => (uses_concat (by simp [hblank, hcontents])).bind fun _ =>
    uses_build (by simp [Construction.operands])

theorem uses_trailingComment (c : CommentId) : UsesDoc docs (trailingComment g scene c) := by
  refine Uses.bind (uses_request nofun) fun contents => ?_
  dsimp only
  split
  · split
    · exact (uses_line _).bind fun blank => uses_heldBack (by simp) (by simp)
    · exact (uses_build (by simp [Construction.operands])).bind fun blank =>
        uses_heldBack (by simp) (by simp)
  · refine (uses_fixed _).bind fun space => (uses_concat (by simp)).bind fun doc => ?_
    split
    · exact uses_pure (by simp)
    · exact (uses_build (by simp [Construction.operands])).bind fun suffix =>
        (uses_build (by simp [Construction.operands])).bind fun _ =>
          uses_build (by simp [Construction.operands])

theorem uses_danglingComments (place : Cursor) (sameIndent : Bool) (keep : Comment → Bool) :
    UsesDoc docs (danglingComments scene place sameIndent keep) := by
  have hcomment : ∀ c docs, UsesDoc docs (comment c) := fun c _ => uses_request nofun
  unfold danglingComments
  dsimp only
  split
  · exact uses_build (by simp [Construction.operands])
  · refine (uses_mapM hcomment).bind_list fun comments => (uses_line _).bind fun line => ?_
    refine (uses_build ?_).bind fun joined => ?_
    · simp only [Construction.operands, List.mem_cons, List.mem_append]
      exact fun y hy => hy.imp id .inl
    · split
      · exact uses_pure (by simp)
      · exact (uses_line _).bind fun _ => (uses_concat (by simp)).bind fun _ =>
          uses_build (by simp [Construction.operands])

theorem uses_amidComments (n : NodeId) {doc : Doc} (hdoc : doc ∈ docs) :
    UsesDoc docs (amidComments g scene n doc) := by
  unfold amidComments
  dsimp only
  split
  · exact uses_pure hdoc
  · refine (uses_mapM fun c _ => uses_leadingComment g scene c).bind_list fun before => ?_
    refine (uses_mapM fun c _ => uses_trailingComment g scene c).bind_list fun after => ?_
    apply uses_concat
    simp only [List.mem_append, List.mem_cons]
    rintro y (hy | rfl | hy)
    · exact .inr (.inl hy)
    · exact .inr (.inr hdoc)
    · exact .inl hy

theorem uses_markedIf (marked : Bool) {doc : Doc} (hdoc : doc ∈ docs) :
    UsesDoc docs (markedIf marked doc) := by
  unfold markedIf
  split
  · exact (uses_build (by simp [Construction.operands])).bind fun _ =>
      (uses_build (by simp [Construction.operands])).bind fun _ => uses_concat (by simp [hdoc])
  · exact uses_pure hdoc

theorem uses_surround (marked : Option NodeId) (n : NodeId) {doc : Doc} (hdoc : doc ∈ docs) :
    UsesDoc docs (surround g scene marked n doc) := by
  rw [surround_eq]
  exact (uses_amidComments g scene n hdoc).bind fun commented => uses_markedIf _ (by simp)

end Rule

/-- A step extends the set of documents made and keeps an invariant about it, also where it fails.
If it succeeds, `P` holds of its result. -/
def Grants {σ ε α : Type} (inv : (Doc → Prop) → σ → Prop) (known : Doc → Prop)
    (x : ExceptT ε (StateM σ) α) (P : (Doc → Prop) → α → Prop) : Prop :=
  ∀ s, inv known s → ∃ known' : Doc → Prop, (∀ y, known y → known' y) ∧
    inv known' (x.run.run s).2 ∧ ∀ a, (x.run.run s).1 = .ok a → P known' a

namespace Grants

variable {σ ε α β : Type} {inv : (Doc → Prop) → σ → Prop} {known : Doc → Prop}
  {x : ExceptT ε (StateM σ) α} {P : (Doc → Prop) → α → Prop} {R : (Doc → Prop) → β → Prop}

theorem ofPure {a : α} (h : P known a) : Grants inv known (pure a : ExceptT ε (StateM σ) α) P := by
  intro s hs
  refine ⟨known, fun _ => id, hs, ?_⟩
  rintro _ ⟨⟩
  exact h

theorem ofThrow (e : ε) : Grants inv known (throw e : ExceptT ε (StateM σ) α) P :=
  fun _ hs => ⟨known, fun _ => id, hs, nofun⟩

theorem ofModify {f : σ → σ} (h : ∀ s, inv known s → inv known (f s)) :
    Grants inv known (modify f : ExceptT ε (StateM σ) PUnit) fun _ _ => True :=
  fun s hs => ⟨known, fun _ => id, h s hs, fun _ _ => trivial⟩

theorem get_bind {f : σ → ExceptT ε (StateM σ) α}
    (h : ∀ s, inv known s → Grants inv known (f s) P) :
    Grants inv known (get >>= f) P := fun s hs => h s hs s hs

theorem bind {f : α → ExceptT ε (StateM σ) β} (hx : Grants inv known x P)
    (hf : ∀ known' a, (∀ y, known y → known' y) → P known' a → Grants inv known' (f a) R) :
    Grants inv known (x >>= f) R := by
  intro s hs
  obtain ⟨known', hgrows, hs', ha⟩ := hx s hs
  rw [run_bind_eq]
  rcases hrun : x.run.run s with ⟨e | a, s'⟩
  · rw [hrun] at hs'
    exact ⟨known', hgrows, hs', nofun⟩
  · rw [hrun] at hs' ha
    obtain ⟨known'', hgrows', hs'', hb⟩ := hf known' a hgrows (ha a rfl) s' hs'
    exact ⟨known'', fun y hy => hgrows' y (hgrows y hy), hs'', hb⟩

theorem tryCatch {f : ε → ExceptT ε (StateM σ) α} (hx : Grants inv known x P)
    (hf : ∀ known' e, (∀ y, known y → known' y) → Grants inv known' (f e) P) :
    Grants inv known (tryCatch x f) P := by
  intro s hs
  obtain ⟨known', hgrows, hs', ha⟩ := hx s hs
  rw [run_tryCatch_eq]
  rcases hrun : x.run.run s with ⟨e | a, s'⟩
  · rw [hrun] at hs'
    obtain ⟨known'', hgrows', hs'', hb⟩ := hf known' e hgrows s' hs'
    exact ⟨known'', fun y hy => hgrows' y (hgrows y hy), hs'', hb⟩
  · rw [hrun] at hs' ha
    exact ⟨known', hgrows, hs', ha⟩

theorem forM {as : List α} {f : α → ExceptT ε (StateM σ) Unit}
    (h : ∀ known a, Grants inv known (f a) fun _ _ => True) :
    Grants inv known (as.forM f) fun _ _ => True := by
  induction as generalizing known with
  | nil => exact ofPure trivial
  | cons a as ih => exact (h known a).bind fun _ _ _ _ => ih

/-- An honest program only gets to documents that were made. -/
theorem program {Q : Type} {operands : Q → List Doc} {answer : Q → ExceptT ε (StateM σ) Doc}
    (hparts : ∀ known s, inv known s → ∀ x, known x → ∀ y ∈ x.parts, known y)
    (hanswer : ∀ known q, (∀ x ∈ operands q, known x) →
      Grants inv known (answer q) fun known => known)
    {p : Program Q α} (hp : p.Honest operands P known) : Grants inv known (p.run answer) P := by
  induction p generalizing known with
  | done a => exact ofPure hp
  | ask q next ih =>
    intro s hs
    obtain ⟨known', hgrows, hs', hdoc⟩ := hanswer known q hp.1 s hs
    rw [Program.run_ask, run_bind_eq]
    rcases hrun : (answer q).run.run s with ⟨e | doc, s'⟩
    · rw [hrun] at hs'
      exact ⟨known', hgrows, hs', nofun⟩
    · rw [hrun] at hs' hdoc
      have hnext := hp.2 known' hgrows doc (hparts known' s' hs' doc (hdoc doc rfl))
      obtain ⟨known'', hgrows', hs'', ha⟩ := ih doc hnext s' hs'
      exact ⟨known'', fun y hy => hgrows' y (hgrows y hy), hs'', ha⟩

end Grants

def Session.Made (known : Doc → Prop) (s : Session) : Prop := Issued known s.store

structure PassState.Made (known : Doc → Prop) (s : PassState) : Prop where
  issued : s.session.Made known
  cached : ∀ (n : NodeId) doc, s.cache[n]? = some doc → known doc

namespace Pass

variable {nested : Text → Text → Options → SessionM Doc} {job : Job} {known : Doc → Prop}

theorem grants_ofDoc {α : Type} {x : DocM α} {P : (Doc → Prop) → α → Prop} (hx : Issues known x P) :
    Grants PassState.Made known (PassM.ofDoc x) P := by
  intro s hs
  obtain ⟨known', hgrows, hissued, ha⟩ := hx s.session.store hs.issued
  refine ⟨known', hgrows, ⟨hissued, fun n doc hn => hgrows doc (hs.cached n doc hn)⟩, ?_⟩
  rintro _ ⟨⟩
  exact ha

theorem grants_ofSession {α : Type} {x : SessionM α} {P : (Doc → Prop) → α → Prop}
    (hx : Grants Session.Made known x P) : Grants PassState.Made known (PassM.ofSession x) P := by
  intro s hs
  obtain ⟨known', hgrows, hissued, ha⟩ := hx s.session hs.issued
  exact ⟨known', hgrows, ⟨hissued, fun n doc hn => hgrows doc (hs.cached n doc hn)⟩, ha⟩

theorem grants_note (event : Event) :
    Grants PassState.Made known (PassM.note job event) fun _ _ => True :=
  .ofModify fun _ hs => ⟨hs.issued, hs.cached⟩

theorem grants_markPrinted (cs : List CommentId) :
    Grants PassState.Made known (PassM.markPrinted cs) fun _ _ => True :=
  .ofModify fun _ hs => ⟨hs.issued, hs.cached⟩

theorem grants_remember (n : NodeId) {doc : Doc} (hdoc : known doc) :
    Grants PassState.Made known (PassM.remember n doc) fun _ _ => True := by
  refine .ofModify fun s hs => ⟨hs.issued, fun m doc' hm => ?_⟩
  rw [Std.TreeMap.getElem?_insert] at hm
  split at hm
  · obtain rfl := Option.some.inj hm
    exact hdoc
  · exact hs.cached m doc' hm

theorem grants_lift {α : Type} {P : (Doc → Prop) → α → Prop} (x : Except Failure α)
    (h : ∀ a, x = .ok a → P known a) :
    Grants Session.Made known (liftM x : SessionM α) P := by
  cases x with
  | ok a => exact .ofPure (h a rfl)
  | error e => exact .ofThrow e

theorem grants_noteUnder (language : Option Text) (event : Event) :
    Grants Session.Made known (noteUnder language event) fun _ _ => True :=
  .ofModify fun _ hs => hs

variable [TextWidth]

theorem grants_sketch {p : Sketch Doc}
    (hp : p.Honest Construction.operands (fun known => known) known) :
    IssuesDoc known (p.run Construction.build) := by
  induction p generalizing known with
  | done doc => exact .ofPure hp
  | ask c next ih =>
    intro s hs
    obtain ⟨known', hgrows, hs', hdoc⟩ := Construction.issues_build hp.1 s hs
    obtain ⟨known'', hgrows', hs'', hresult⟩ :=
      ih _ (hp.2 known' hgrows _ (hs'.parts hdoc)) _ hs'
    exact ⟨known'', fun y hy => hgrows' y (hgrows y hy), hs'', hresult⟩

theorem grants_printComment (hg : job.grammar.Honest) (c : CommentId) :
    Grants PassState.Made known (printComment job c) fun known => known := by
  refine (grants_markPrinted _).bind fun known₁ _ _ _ => ?_
  have hsketch := hg.commentDoc job.scene.tree (job.scene.tree.comment c)
  refine (grants_ofDoc (grants_sketch (hsketch.mono (fun _ => False.elim) fun _ _ _ h => h _))).bind
    fun known₂ doc _ hdoc => ?_
  exact (grants_note _).bind fun known₃ _ hgrows _ => .ofPure (hgrows doc hdoc)

theorem grants_reproduce (n : NodeId) :
    Grants PassState.Made known (reproduce job n) fun known => known :=
  (grants_note _).bind fun _ _ _ _ => (grants_markPrinted _).bind fun _ _ _ _ =>
    grants_ofDoc (Build.issues_verbatim _)

section Print

variable {print : Cursor → Option Flags → PassM Doc} (hg : job.grammar.Honest)
  (hnested : ∀ known name source options,
    Grants Session.Made known (nested name source options) fun known => known)
  (hprint : ∀ known place flags,
    Grants PassState.Made known (print place flags) fun known => known)
include hg hnested hprint

theorem grants_answer {q : Request} (hq : ∀ x ∈ q.operands, known x) :
    Grants PassState.Made known (answer nested job print q) fun known => known := by
  cases q with
  | build c => exact grants_ofDoc (Construction.issues_build hq)
  | print place flags => exact hprint known place flags
  | comment c => exact grants_printComment hg c
  | format name source options => exact grants_ofSession (hnested known name source options)
  | refuse message => exact .ofThrow _

theorem grants_run {α : Type} {P : (Doc → Prop) → α → Prop} {x : Rule α}
    (hx : Rule.Honest P known x) :
    Grants PassState.Made known (x.run (answer nested job print)) P :=
  .program (fun _ _ hs _ hx => hs.issued.parts hx)
    (fun _ _ hq => grants_answer hg hnested hprint hq) hx

theorem grants_runRule (place : Cursor) (flags : Option Flags) :
    Grants PassState.Made known (runRule nested job print place flags) fun known => known :=
  (grants_note _).bind fun _ _ _ _ => grants_run hg hnested hprint
    ((hg.rule job.scene place flags).mono (fun _ => False.elim) fun _ _ _ h => h _)

theorem grants_runEmbed (place : Cursor) :
    Grants PassState.Made known (runEmbed nested job print place)
      fun known doc => ∀ x ∈ doc, known x := by
  rw [runEmbed_eq]
  split
  · exact .ofPure nofun
  · refine (grants_note _).bind fun _ _ _ _ => .tryCatch ?_ fun _ e _ => ?_
    · exact grants_run hg hnested hprint ((hg.embed job.scene place).mono (fun _ => False.elim)
        fun _ _ _ hgrows h x hx => hgrows x (h x hx))
    · split
      · exact .ofThrow _
      · exact .ofPure nofun

theorem grants_printNode (place : Cursor) (n : NodeId) (flags : Option Flags) :
    Grants PassState.Made known (printNode nested job print place n flags) fun known => known := by
  have hcontent : Grants PassState.Made known (printContent nested job print place n flags)
      fun known => known := by
    unfold printContent
    split
    · exact grants_reproduce n
    · refine (grants_runEmbed hg hnested hprint place).bind fun known' doc _ hdoc => ?_
      cases doc with
      | some doc => exact .ofPure (hdoc doc rfl)
      | none => exact grants_runRule hg hnested hprint place flags
  rw [printNode_eq]
  refine hcontent.bind fun known₁ doc _ hdoc => ?_
  have haround : Grants PassState.Made known₁ (printAround nested job print place n doc)
      fun known => known := by
    unfold printAround
    split
    · exact .ofPure hdoc
    · exact grants_run hg hnested hprint (Rule.uses_surround _ _ _ _ (List.mem_singleton_self doc) _
        (List.forall_mem_singleton.mpr hdoc))
  refine haround.bind fun known₂ commented _ hcommented => ?_
  exact (grants_note _).bind fun _ _ hgrows _ => .ofPure (hgrows commented hcommented)

end Print

variable (hg : job.grammar.Honest)
  (hnested : ∀ known name source options,
    Grants Session.Made known (nested name source options) fun known => known)
include hg hnested

theorem grants_printAt (depth : Nat) (place : Cursor) (flags : Option Flags) :
    Grants PassState.Made known (printAt nested job depth place flags) fun known => known := by
  induction depth generalizing known place flags with
  | zero => exact .ofThrow _
  | succ depth ih =>
    have hprint : ∀ known place flags, Grants PassState.Made known
        (printAt nested job depth place flags) fun known => known := fun _ => ih
    unfold printAt
    split
    · exact grants_ofDoc Build.issues_nil
    · exact grants_ofDoc (Build.issues_text _ _)
    · exact grants_runRule hg hnested hprint place flags
    · split
      · exact grants_printNode hg hnested hprint place _ _
      · refine Grants.get_bind fun s hs => ?_
        split
        · rename_i doc hdoc
          exact .ofPure (hs.cached _ doc hdoc)
        · refine (grants_printNode hg hnested hprint place _ _).bind fun known' doc _ hdoc => ?_
          exact (grants_remember _ hdoc).bind fun _ _ hgrows _ => .ofPure (hgrows doc hdoc)

theorem grants_printTree :
    Grants PassState.Made known (printTree nested job) fun known => known := by
  have hcheck : ∀ known, Grants PassState.Made known (checkComments job) fun _ _ => True := by
    intro known
    refine Grants.get_bind fun s _ => ?_
    dsimp only
    split
    · exact .ofThrow _
    · exact .ofPure trivial
  rw [printTree_eq]
  refine (grants_printAt hg hnested _ _ _).bind fun known₁ doc _ hdoc => ?_
  have hshifted : Grants PassState.Made known₁ (shifted job.scene.options doc)
      fun known => known := by
    unfold shifted
    split
    · refine grants_ofDoc ((Build.issues_line _).bind fun known' line hgrows hline => ?_)
      exact (Build.issues_append hline (hgrows doc hdoc)).bind fun _ _ _ hjoined =>
        Build.issues_shiftRight _ _ hjoined
    · exact .ofPure hdoc
  refine hshifted.bind fun known₂ doc _ hdoc => ?_
  refine (grants_ofDoc (issues_spreadBreaks hdoc)).bind fun known₃ _ hgrows₃ _ => ?_
  exact (hcheck known₃).bind fun known₄ _ hgrows₄ _ => .ofPure (hgrows₄ doc (hgrows₃ doc hdoc))

omit hg in
theorem grants_overTree {g : Grammar} (hg : g.Honest) (language : Option Text) (options : Options)
    (tree : Tree) :
    Grants Session.Made known (overTree nested language g options tree) fun known => known := by
  have hassigned : ∀ known tree, Grants Session.Made known
      (overAssigned nested language g options tree) fun known => known := by
    intro known tree
    refine (grants_lift _ fun _ _ => trivial).bind (P := fun _ _ => True)
      fun known₁ ⟨attachments, events⟩ _ _ => ?_
    refine (Grants.forM fun _ => grants_noteUnder language).bind
      fun known₂ _ _ _ session hsession => ?_
    have hprint : Grants PassState.Made known₂ (printTree nested
        { grammar := g, scene := { tree, options, attachments }
          marked := options.cursor.bind (g.nodeAt? tree), language }) fun known => known :=
      grants_printTree hg hnested
    obtain ⟨known₃, hgrows, hs, hdoc⟩ := hprint { session } ⟨hsession, by simp⟩
    exact ⟨known₃, hgrows, hs.issued, hdoc⟩
  rw [overTree_eq]
  split
  · exact (grants_noteUnder _ _).bind fun known' _ _ _ => hassigned known' _
  · exact hassigned known tree

omit hg hnested in
/-- Nested passes make documents as well, whatever they format and however they end. -/
theorem grants_formatWithin {languages : Languages} (h : ∀ l ∈ languages, l.grammar.Honest)
    (depth : Nat) (name source : Text) (options : Options) :
    Grants Session.Made known (formatWithin languages depth name source options)
      fun known => known := by
  induction depth generalizing known name source options with
  | zero => exact .ofThrow _
  | succ depth ih =>
    unfold formatWithin
    split
    · exact .ofThrow _
    · rename_i language hlanguage
      have hg := h language (List.mem_of_find?_eq_some hlanguage)
      refine (grants_lift _ fun _ _ => trivial).bind (P := fun _ _ => True)
        fun known' tree _ _ => ?_
      exact grants_overTree (fun _ => ih) hg _ _ _

end Pass

section Layout

variable {g : Grammar} {languages : Languages} {options : Options} {tree : Tree} {doc : Doc}
  {session : Session}

/-- The document of a pass of honest grammars is a graph. -/
theorem isGraph_of_layoutTree [TextWidth] (hg : g.Honest)
    (hlanguages : ∀ l ∈ languages, l.grammar.Honest)
    (h : layoutTree g languages options tree = (.ok doc, session)) : doc.IsGraph := by
  have hpass : Grants Session.Made (fun _ => False) (Pass.overTree (Pass.formatWithin languages
      (Pass.nestingLimit tree.source.text)) none g options tree) fun known => known :=
    Pass.grants_overTree (fun _ => Pass.grants_formatWithin hlanguages _) hg none options tree
  obtain ⟨known, -, hissued, hdoc⟩ := hpass {} (Issued.none _)
  exact Issued.isGraph hissued (hdoc doc (congrArg Prod.fst h))

end Layout

end SourceLayout
