import SourceLayout.Proofs.Pass.Documents
import SourceLayout.Proofs.Pass.Lockstep
import SourceLayout.Proofs.Pass.Meaning
import SourceLayout.Proofs.Pass.Mirrors

/-! # Passes come to what they mean

A step of a pass makes documents with labels and keeps a state, but it comes to what the tree says:
without their labels its documents are those of an account of it, and so are the comments it shows.
What a pass remembers does not make a difference, because it remembers what nodes come to.
-/

namespace SourceLayout

def Event.marks : Event → Label → Bool
  | .comment _ doc, l => doc.isLineComment && doc.parts.any fun
    | .text l' _ _ => l' == l
    | _ => false
  | _, _ => false

theorem Event.marks_comment_iff {c : CommentId} {doc : Doc} {l : Label} :
    (Event.comment c doc).marks l = true ↔
      doc.isLineComment = true ∧ ∃ origin line, .text l origin line ∈ doc.parts := by
  rw [Event.marks, Bool.and_eq_true, List.any_eq_true]
  refine and_congr_right fun _ => ⟨?_, ?_⟩
  · rintro ⟨x, hx, hl⟩
    cases x with
    | text l' origin line => exact ⟨origin, line, beq_iff_eq.mp hl ▸ hx⟩
    | _ => cases hl
  · rintro ⟨origin, line, hx⟩
    exact ⟨_, hx, beq_self_eq_true l⟩

namespace Session

def marks (s : Session) (l : Label) : Bool := s.journal.any fun e => e.event.marks l

def flags (s : Session) : Doc → Bool := s.store.flags s.marks

def Clean (s : Session) : Prop := s.store.Clean s.marks

/-- A session is a later state of another one: what was made before is as it was. -/
structure Grows (s s' : Session) : Prop where
  store : s.store.Grows s'.store
  marks : ∀ l < s.store.next, s'.marks l = s.marks l

namespace Grows

variable {s s' s'' : Session} {doc : Doc}

theorem refl (s : Session) : s.Grows s := ⟨.refl _, fun _ _ => rfl⟩

theorem trans (h : s.Grows s') (h' : s'.Grows s'') : s.Grows s'' :=
  ⟨h.store.trans h'.store, fun l hl =>
    (h'.marks l (Nat.lt_of_lt_of_le hl h.store.next)).trans (h.marks l hl)⟩

theorem of_store {store : Store} (h : s.store.Grows store) : s.Grows { s with store } :=
  ⟨h, fun _ _ => rfl⟩

theorem bare_eq (h : s.Grows s') (hdoc : s.store.Has doc) :
    doc.bare s'.flags = doc.bare s.flags := by
  refine Doc.bare_congr fun x hx => ?_
  cases x with
  | group l body => exact h.store.kept l (hdoc _ hx)
  | text l origin content => exact h.marks l (hdoc _ hx)
  | _ => rfl

end Grows

end Session

/-- Outcomes that are the same failure or results that `P` holds of. -/
inductive Concur {ε α β : Type} (P : α → β → Prop) : Except ε α → Except ε β → Prop
  | ok {a : α} {b : β} (h : P a b) : Concur P (.ok a) (.ok b)
  | error (e : ε) : Concur P (.error e) (.error e)

theorem Concur.imp {ε α β : Type} {P R : α → β → Prop} {x : Except ε α} {y : Except ε β}
    (h : Concur P x y) (himp : ∀ a b, P a b → R a b) : Concur R x y := by
  cases h with
  | ok hab => exact .ok (himp _ _ hab)
  | error e => exact .error e

theorem Concur.zip {ε α β γ : Type} {P : α → γ → Prop} {R : β → γ → Prop} {S : α → β → Prop}
    {x : Except ε α} {y : Except ε β} {z : Except ε γ} (hx : Concur P x z) (hy : Concur R y z)
    (h : ∀ a b c, P a c → R b c → S a b) : Concur S x y := by
  cases hx with
  | ok hac =>
    cases hy with
    | ok hbc => exact .ok (h _ _ _ hac hbc)
  | error e =>
    cases hy with
    | error => exact .error e

/-- A document of a session looks like one without labels. -/
def Resembles (known : Doc → Prop) (s : Session) (doc bare : Doc) : Prop :=
  known doc ∧ doc.bare s.flags = bare

theorem Resembles.mono {known known' : Doc → Prop} {s s' : Session} {doc bare : Doc}
    (h : Resembles known s doc bare) (hissued : Issued known s.store) (hknown : ∀ d, known d → known' d)
    (hgrows : s.Grows s') : Resembles known' s' doc bare :=
  ⟨hknown doc h.1, (hgrows.bare_eq (hissued.has h.1)).trans h.2⟩

structure PassState.Quiet (s s' : PassState) : Prop where
  substance : s'.substance = s.substance
  marks : s'.session.marks = s.session.marks

namespace PassState.Quiet

variable {s s' : PassState} (h : s.Quiet s')
include h

theorem store : s'.session.store = s.session.store := congrArg (fun v => v.1) h.substance

theorem printed : s'.printed = s.printed := congrArg (fun v => v.2.1) h.substance

theorem cache : s'.cache = s.cache := congrArg (fun v => v.2.2) h.substance

theorem grows : s.session.Grows s'.session :=
  ⟨by rw [h.store]; exact .refl _, fun l _ => by rw [h.marks]⟩

theorem resembles {known : Doc → Prop} {doc bare : Doc}
    (hdoc : Resembles known s.session doc bare) :
    Resembles known s'.session doc bare := by
  rwa [Resembles, Session.flags, h.store, h.marks]

end PassState.Quiet

/-- The documents that a pass remembers are those that the nodes come to, and the comments in them
are printed. -/
structure Sound (means : NodeId → Account Doc) (known : Doc → Prop) (s : PassState) : Prop where
  made : s.Made known
  clean : s.session.Clean
  recalled : ∀ (n : NodeId) doc, s.cache[n]? = some doc → ∃ shown : List CommentId,
    means n = ⟨.ok (doc.bare s.session.flags), shown⟩ ∧ ∀ c ∈ shown, c ∈ s.printed

/-- From a state a step of a pass comes to what an account says: it shows its comments and ends like
it, with a result that `P` holds of. The documents from before stay as they are. -/
def Realizes (means : NodeId → Account Doc) (known : Doc → Prop) (s : PassState) {α β : Type}
    (x : PassM α) (y : Account β) (P : (Doc → Doc → Prop) → α → β → Prop) : Prop :=
  ∃ known' : Doc → Prop, (∀ d, known d → known' d) ∧
    s.session.Grows (x.run.run s).2.session ∧
    Sound means known' (x.run.run s).2 ∧
    (∀ c, c ∈ (x.run.run s).2.printed ↔ c ∈ s.printed ∨ c ∈ y.shown) ∧
    Concur (P (Resembles known' (x.run.run s).2.session)) (x.run.run s).1 y.outcome

section Realizes

variable {means : NodeId → Account Doc} {known : Doc → Prop} {s : PassState} {α α' β β' : Type}
  {x : PassM α} {y : Account β} {P : (Doc → Doc → Prop) → α → β → Prop}

theorem Sound.later (h : Sound means known s) {known' : Doc → Prop} {s' : PassState}
    (hknown : ∀ d, known d → known' d) (hissued : Issued known' s'.session.store)
    (hclean : s'.session.Clean) (hgrows : s.session.Grows s'.session)
    (hcache : s'.cache = s.cache) (hprinted : ∀ c, c ∈ s.printed → c ∈ s'.printed) :
    Sound means known' s' where
  made := ⟨hissued, fun n doc hn => hknown doc (h.made.cached n doc (hcache ▸ hn))⟩
  clean := hclean
  recalled n doc hn := by
    rw [hcache] at hn
    obtain ⟨shown, hmeans, hshown⟩ := h.recalled n doc hn
    refine ⟨shown, ?_, fun c hc => hprinted c (hshown c hc)⟩
    rw [hmeans, hgrows.bare_eq (Issued.has h.made.issued (h.made.cached n doc hn))]

theorem Sound.quiet (h : Sound means known s) {s' : PassState} (hquiet : s.Quiet s') :
    Sound means known s' := by
  refine h.later (fun _ => id) ?_ ?_ hquiet.grows hquiet.cache fun c hc => hquiet.printed ▸ hc
  · rw [hquiet.store]
    exact h.made.issued
  · rw [Session.Clean, hquiet.store, hquiet.marks]
    exact h.clean

theorem Sound.remember (h : Sound means known s) {n : NodeId} {doc bare : Doc}
    (hdoc : Resembles known s.session doc bare) (hmeans : (means n).outcome = .ok bare)
    (hshown : ∀ c ∈ (means n).shown, c ∈ s.printed) :
    Sound means known { s with cache := s.cache.insert n doc } where
  made := by
    refine ⟨h.made.issued, fun m d hm => ?_⟩
    rw [Std.TreeMap.getElem?_insert] at hm
    split at hm
    · obtain rfl := Option.some.inj hm
      exact hdoc.1
    · exact h.made.cached m d hm
  clean := h.clean
  recalled m d hm := by
    rw [Std.TreeMap.getElem?_insert] at hm
    split at hm
    · rename_i hnm
      obtain rfl := compare_eq_iff_eq.mp hnm
      obtain rfl := Option.some.inj hm
      refine ⟨(means n).shown, ?_, hshown⟩
      rw [hdoc.2, ← hmeans]
    · exact h.recalled m d hm

namespace Realizes

theorem ofPure (hs : Sound means known s) {a : α} {b : β}
    (h : P (Resembles known s.session) a b) :
    Realizes means known s (pure a : PassM α) (pure b) P :=
  ⟨known, fun _ => id, .refl _, hs, fun _ => (or_iff_left List.not_mem_nil).symm, .ok h⟩

theorem ofThrow (hs : Sound means known s) (e : Failure) :
    Realizes means known s (throw e : PassM α) ⟨.error e, []⟩ P :=
  ⟨known, fun _ => id, .refl _, hs, fun _ => (or_iff_left List.not_mem_nil).symm, .error e⟩

theorem bind {f : α → PassM α'} {g : β → Account β'} {R : (Doc → Doc → Prop) → α' → β' → Prop}
    (hx : Realizes means known s x y P)
    (hf : ∀ known' s' a b, (∀ d, known d → known' d) →
      s.session.Grows s'.session → Sound means known' s' →
      P (Resembles known' s'.session) a b → Realizes means known' s' (f a) (g b) R) :
    Realizes means known s (x >>= f) (y >>= g) R := by
  obtain ⟨known₁, hknown, hgrows, hs₁, hprinted, hend⟩ := hx
  obtain ⟨outcome, shown⟩ := y
  unfold Realizes
  rw [run_bind_eq]
  generalize x.run.run s = r at hgrows hs₁ hprinted hend
  obtain ⟨result, s₁⟩ := r
  cases hend with
  | error e => exact ⟨known₁, hknown, hgrows, hs₁, hprinted, .error e⟩
  | @ok a b hab =>
    obtain ⟨known₂, hknown', hgrows', hs₂, hprinted', hend⟩ :=
      hf known₁ s₁ a b hknown hgrows hs₁ hab
    refine ⟨known₂, fun d hd => hknown' d (hknown d hd), hgrows.trans hgrows', hs₂, ?_, hend⟩
    intro c
    rw [hprinted', hprinted, or_assoc]
    exact or_congr_right List.mem_append.symm

theorem orElse (hx : Realizes means known s x y P) (strict : Bool) {a : α} {b : β}
    (h : ∀ same, P same a b) :
    Realizes means known s (tryCatch x fun e => if strict then throw e else pure a)
      (y.orElse strict b) P := by
  obtain ⟨known₁, hknown, hgrows, hs₁, hprinted, hend⟩ := hx
  obtain ⟨outcome, shown⟩ := y
  unfold Realizes
  rw [run_tryCatch_eq]
  generalize x.run.run s = r at hgrows hs₁ hprinted hend
  obtain ⟨result, s₁⟩ := r
  cases hend with
  | error e =>
    cases strict with
    | true => exact ⟨known₁, hknown, hgrows, hs₁, hprinted, .error e⟩
    | false => exact ⟨known₁, hknown, hgrows, hs₁, hprinted, .ok (h _)⟩
  | ok hab => exact ⟨known₁, hknown, hgrows, hs₁, hprinted, .ok hab⟩

theorem quiet_bind {x : PassM α'} {f : α' → PassM α} {a : α'} {s' : PassState}
    (hrun : x.run.run s = (.ok a, s')) (hquiet : s.Quiet s')
    (hf : Realizes means known s' (f a) y P) : Realizes means known s (x >>= f) y P := by
  obtain ⟨known', hknown, hgrows, hs, hprinted, hend⟩ := hf
  unfold Realizes
  rw [run_bind_eq, hrun]
  rw [hquiet.printed] at hprinted
  exact ⟨known', hknown, hquiet.grows.trans hgrows, hs, hprinted, hend⟩

theorem note_bind {job : Job} {event : Event} {f : Unit → PassM α} (hs : Sound means known s)
    (hevent : event.marks = fun _ => false)
    (hf : ∀ s', Sound means known s' → s.Quiet s' → Realizes means known s' (f ()) y P) :
    Realizes means known s (PassM.note job event >>= f) y P := by
  have hquiet : s.Quiet ((PassM.note job event).run.run s).2 := by
    refine ⟨rfl, funext fun l => ?_⟩
    change (event.marks l || s.session.marks l) = s.session.marks l
    rw [hevent, Bool.false_or]
  exact .quiet_bind rfl hquiet (hf _ (hs.quiet hquiet) hquiet)

end Realizes

theorem realizes_markPrinted (hs : Sound means known s) (cs : List CommentId) :
    Realizes means known s (PassM.markPrinted cs) ⟨.ok (), cs⟩ fun _ _ _ => True := by
  have hprinted : ∀ c, c ∈ s.printed.insertMany cs ↔ c ∈ s.printed ∨ c ∈ cs := by
    simp [Std.TreeSet.mem_insertMany_list]
  refine ⟨known, fun _ => id, .refl _, ?_, hprinted, .ok trivial⟩
  exact hs.later (fun _ => id) hs.made.issued hs.clean (.refl _) rfl
    fun c hc => (hprinted c).mpr (.inl hc)

theorem realizes_ofDoc (hs : Sound means known s) {x : DocM Doc} {bare : Doc}
    (hmakes : Makes s.session.marks s.session.store x bare) (hissues : IssuesDoc known x) :
    Realizes means known s (PassM.ofDoc x) (pure bare) fun same => same := by
  obtain ⟨known', hknown, hissued, hdoc⟩ := hissues _ hs.made.issued
  have hgrows := Session.Grows.of_store hmakes.grows
  refine ⟨known', hknown, hgrows, ?_, fun _ => (or_iff_left List.not_mem_nil).symm,
    .ok ⟨hdoc, hmakes.looks⟩⟩
  exact hs.later hknown hissued hmakes.clean hgrows rfl fun _ => id

theorem realizes_build [TextWidth] (hs : Sound means known s) (c : Construction (Doc × Doc))
    (h : ∀ p ∈ c.operands, Resembles known s.session p.1 p.2) :
    Realizes means known s (PassM.ofDoc (c.map Prod.fst).build) (pure (c.map Prod.snd).plain)
      fun same => same := by
  have hoperands : ∀ d ∈ (c.map Prod.fst).operands, known d := by
    rw [Construction.operands_map]
    intro d hd
    obtain ⟨p, hp, rfl⟩ := List.mem_map.mp hd
    exact (h p hp).1
  have hbare : (c.map Prod.fst).map (Doc.bare s.session.flags) = c.map Prod.snd := by
    rw [Construction.map_map]
    exact Construction.map_congr fun p hp => (h p hp).2
  rw [← hbare]
  refine realizes_ofDoc hs (Construction.makes_build hs.clean fun d hd => ?_)
    (Construction.issues_build hoperands)
  exact ⟨Issued.has hs.made.issued (hoperands d hd), hs.made.issued.isGraph (hoperands d hd)⟩

/-- Programs with questions that correspond come to what their answers come to. -/
theorem realizes_program {Q : Type} {like : (Doc → Doc → Prop) → Q → Q → Prop}
    {answer : Q → PassM Doc} {answer' : Q → Account Doc}
    (hanswer : ∀ known s q q', Sound means known s → like (Resembles known s.session) q q' →
      Realizes means known s (answer q) (answer' q') fun same => same)
    {p : Program Q α} {p' : Program Q β} (hs : Sound means known s)
    (hp : Program.Alike like P p p' (Resembles known s.session)) :
    Realizes means known s (p.run answer) (p'.run answer') P := by
  induction p generalizing p' known s with
  | done a =>
    cases p' with
    | done b => exact .ofPure hs hp
    | ask q' next' => exact hp.elim
  | ask q next ih =>
    cases p' with
    | done b => exact hp.elim
    | ask q' next' =>
      rw [Program.run_ask, Program.run_ask]
      refine (hanswer known s q q' hs hp.1).bind fun known' s' doc bare hknown hgrows hs' hdoc => ?_
      exact ih doc hs' (hp.2 _ (fun d d' hd => hd.mono hs.made.issued hknown hgrows) doc bare hdoc)

end Realizes

/-- A nested pass comes to a document or a failure, from whatever session. The documents from before
stay as they are. -/
def Delivers (x : SessionM Doc) (y : Except Failure Doc) : Prop :=
  ∀ known session, Issued known session.store → session.Clean →
    ∃ known' : Doc → Prop, (∀ d, known d → known' d) ∧
      session.Grows (x.run.run session).2 ∧
      Issued known' (x.run.run session).2.store ∧ (x.run.run session).2.Clean ∧
      Concur (Resembles known' (x.run.run session).2) (x.run.run session).1 y

namespace Pass

section Print

variable {means : NodeId → Account Doc} {known : Doc → Prop} {s : PassState}
  {nested : Text → Text → Options → SessionM Doc}
  {plain : Text → Text → Options → Except Failure Doc} {job : Job}

theorem realizes_ofSession (hs : Sound means known s) {x : SessionM Doc} {y : Except Failure Doc}
    (hx : Delivers x y) : Realizes means known s (PassM.ofSession x) ⟨y, []⟩ fun same => same := by
  obtain ⟨known', hknown, hgrows, hissued, hclean, hend⟩ :=
    hx known s.session hs.made.issued hs.clean
  refine ⟨known', hknown, hgrows, ?_, fun _ => (or_iff_left List.not_mem_nil).symm, hend⟩
  exact hs.later hknown hissued hclean hgrows rfl fun _ => id

theorem run_recalled (way : Recall) (job : Job) (n : NodeId) (s : PassState) :
    ∃ found s', (recalled way job n).run.run s = (.ok found, s') ∧
      (found = none ∨ found = s.cache[n]?) ∧ s.Quiet s' := by
  have hnotes : ∀ known : Option Doc, ∃ s',
      ((known.forM fun doc => PassM.note job (.printed n doc)) >>= fun _ => pure known :
        PassM (Option Doc)).run.run s = (.ok known, s') ∧ s.Quiet s' := by
    intro known
    cases known with
    | none => exact ⟨s, rfl, rfl, rfl⟩
    | some doc => exact ⟨_, rfl, rfl, rfl⟩
  cases way with
  | reuse => exact ⟨_, s, rfl, .inr rfl, rfl, rfl⟩
  | announce =>
    obtain ⟨s', hrun, hs'⟩ := hnotes s.cache[n]?
    exact ⟨_, s', hrun, .inr rfl, hs'⟩
  | forget => exact ⟨_, s, rfl, .inl rfl, rfl, rfl⟩

/-- Handing out a document again comes to the same as printing the node. -/
theorem realizes_recalled (way : Recall) {n : NodeId} {x : PassM Doc} (hs : Sound means known s)
    (hx : ∀ s, Sound means known s → Realizes means known s x (means n) fun same => same) :
    Realizes means known s (recalled way job n >>= fun
      | some doc => pure doc
      | none => do
        let doc ← x
        PassM.remember n doc
        return doc) (means n) fun same => same := by
  have hafresh : ∀ s, Sound means known s → Realizes means known s (do
      let doc ← x
      PassM.remember n doc
      return doc) (means n) fun same => same := by
    intro s hs
    obtain ⟨known₁, hknown, hgrows, hs₁, hprinted, hend⟩ := hx s hs
    unfold Realizes
    rw [run_bind_eq]
    generalize x.run.run s = r at hgrows hs₁ hprinted hend
    obtain ⟨result, s₁⟩ := r
    generalize hmeans : (means n).outcome = outcome at hend
    cases hend with
    | error e => exact ⟨known₁, hknown, hgrows, hs₁, hprinted, .error e⟩
    | @ok doc bare hdoc =>
      have hs₂ := hs₁.remember hdoc hmeans fun c hc => (hprinted c).mpr (.inr hc)
      exact ⟨known₁, hknown, hgrows, hs₂, hprinted, .ok hdoc⟩
  have hreused : ∀ s doc, Sound means known s → s.cache[n]? = some doc →
      Realizes means known s (pure doc) (means n) fun same => same := by
    intro s doc hs hn
    obtain ⟨shown, hmeans, hshown⟩ := hs.recalled n doc hn
    rw [hmeans]
    refine ⟨known, fun _ => id, .refl _, hs, fun c => ?_, .ok ⟨hs.made.cached n doc hn, rfl⟩⟩
    exact ⟨.inl, fun h => h.elim id (hshown c)⟩
  obtain ⟨found, s', hrun, hfound, hquiet⟩ := run_recalled way job n s
  have hs' := hs.quiet hquiet
  refine .quiet_bind hrun hquiet ?_
  cases found with
  | none => exact hafresh s' hs'
  | some doc =>
    refine hreused s' doc hs' ?_
    rw [hquiet.cache]
    exact (hfound.resolve_left (Option.some_ne_none doc)).symm

variable [TextWidth]

theorem realizes_comment (hs : Sound means known s) (c : CommentId) (content : Text) :
    Realizes means known s (do
      let doc ← PassM.ofDoc (Build.verbatim content)
      PassM.note job (.comment c doc)
      return doc) (pure (.commentOf content)) fun same => same := by
  have hmakes : Makes s.session.marks s.session.store (Build.verbatim content) (.linesOf content) :=
    Build.makes_verbatim hs.clean content
  obtain ⟨known', hknown, hissued, hdoc⟩ := Build.issues_verbatim content _ hs.made.issued
  obtain ⟨known₀, hlabels, hissued₀, hdoc₀⟩ :=
    Build.issues_verbatim content _ (Issued.labels s.session.store)
  have hrun : (do
      let doc ← PassM.ofDoc (Build.verbatim content)
      PassM.note job (.comment c doc)
      return doc : PassM Doc).run.run s =
        (.ok ((Build.verbatim content).run s.session.store).1, { s with session :=
          { store := ((Build.verbatim content).run s.session.store).2
            journal := ⟨job.language,
              .comment c ((Build.verbatim content).run s.session.store).1⟩ ::
              s.session.journal } }) := rfl
  obtain ⟨hgrows, hclean, hhas, hlooks⟩ := hmakes
  unfold Realizes
  rw [hrun]
  generalize (Build.verbatim content).run s.session.store = r at *
  obtain ⟨doc, store⟩ := r
  have hnew : ∀ l < s.session.store.next, (Event.comment c doc).marks l = false := by
    intro l hl
    rw [← Bool.not_eq_true, Event.marks_comment_iff]
    rintro ⟨-, origin, line, hx⟩
    have hle := hissued₀.next_le_label (fun l hl => hlabels _ ⟨l, hl, rfl⟩) hdoc₀ hx rfl
    exact Nat.not_lt_of_le hle hl
  have hgrows' : s.session.Grows
      { store, journal := ⟨job.language, .comment c doc⟩ :: s.session.journal } := by
    refine ⟨hgrows, fun l hl => ?_⟩
    change ((Event.comment c doc).marks l || s.session.marks l) = _
    rw [hnew l hl, Bool.false_or]
  refine ⟨known', hknown, hgrows', ?_, fun _ => (or_iff_left List.not_mem_nil).symm,
    .ok ⟨hdoc, Doc.bare_eq_commentOf hlooks fun l origin line hx => ?_⟩⟩
  · refine hs.later hknown hissued (fun l hl => ?_) hgrows' rfl fun _ => id
    rcases hl with hl | hl
    · exact hclean l (.inl hl)
    · rcases Bool.or_eq_true_iff.mp hl with hl | hl
      · obtain ⟨-, origin, line, hx⟩ := Event.marks_comment_iff.mp hl
        exact hhas _ hx
      · exact hclean l (.inr hl)
  · have hl : (Event.comment c doc).marks l = doc.isLineComment := by
      rw [Bool.eq_iff_iff, Event.marks_comment_iff]
      exact and_iff_left ⟨origin, line, hx⟩
    change ((Event.comment c doc).marks l || s.session.marks l) = _
    rw [hl]

theorem realizes_printComment (hg : job.grammar.Mirrors) (hs : Sound means known s)
    (c : CommentId) :
    Realizes means known s (printComment job c)
      ⟨.ok (.commentOf (job.scene.tree.comment c).text), [c]⟩ fun same => same := by
  unfold printComment
  rw [hg.commentDoc]
  exact (realizes_markPrinted hs [c]).bind (g := fun _ => pure _) fun _ _ _ _ _ _ hs _ =>
    realizes_comment hs c _

theorem realizes_reproduce (hs : Sound means known s) (n : NodeId) :
    Realizes means known s (reproduce job n) (Meaning.reproduced job n) fun same => same := by
  have hshown :
      Meaning.reproduced job n = (⟨.ok (), (Meaning.reproduced job n).shown⟩ : Account Unit) >>=
        fun _ => pure (.linesOf (job.scene.tree.slice (job.scene.tree.node n).span)) := by
    simp [Meaning.reproduced, bind, pure]
  rw [hshown]
  refine .note_bind hs rfl fun s₁ hs₁ _ => ?_
  refine (realizes_markPrinted hs₁ _).bind fun known₂ s₂ _ _ _ _ hs₂ _ => ?_
  exact realizes_build hs₂ (.verbatim _) nofun

variable {ok : Cursor → Prop} {print : Cursor → Option Flags → PassM Doc}
    {print' : Cursor → Account Doc}
  {place place' : Cursor}
  (hg : job.grammar.Mirrors)
  (hnested : ∀ name source options, Delivers (nested name source options) (plain name source options))
  (hprint : ∀ known s place place', Sound means known s → place.Level place' → ok place →
    Realizes means known s (print place none) (print' place') fun same => same)

include hg hnested hprint

theorem realizes_answer (hs : Sound means known s) {q q' : Request}
    (hq : Request.Alike ok (Resembles known s.session) q q') :
    Realizes means known s (answer nested job print q) (Meaning.answer plain job print' q')
      fun same => same := by
  cases hq with
  | build c h => exact realizes_build hs c h
  | print hlevel hok => exact hprint known s _ _ hs hlevel hok
  | comment c => exact realizes_printComment hg hs c
  | format language source options => exact realizes_ofSession hs (hnested language source options)
  | refuse message => exact .ofThrow hs _

theorem realizes_run {α β : Type} {P : (Doc → Doc → Prop) → α → β → Prop} {x : Rule α} {y : Rule β}
    (hs : Sound means known s) {docs : List (Doc × Doc)}
    (hdocs : ∀ p ∈ docs, Resembles known s.session p.1 p.2) (h : Rule.Mirrors ok P docs x y) :
    Realizes means known s (x.run (answer nested job print))
      (y.run (Meaning.answer plain job print')) P :=
  realizes_program (fun _ _ _ _ hs hq => realizes_answer hg hnested hprint hs hq) hs (h _ hdocs)

theorem realizes_runRule (hs : Sound means known s) (hlevel : place.Level place')
    (hok : place.Allows ok) :
    Realizes means known s (runRule nested job print place none)
      (Meaning.rule plain job print' place') fun same => same :=
  .note_bind hs rfl fun _ hs _ =>
    realizes_run hg hnested hprint hs (List.forall_mem_nil _) (hg.rule ok job.scene hlevel hok)

theorem realizes_runEmbed (hs : Sound means known s) (hlevel : place.Level place') :
    Realizes means known s (runEmbed nested job print place)
      (Meaning.embedded plain job print' place')
      fun same doc doc' => (doc = none ∧ doc' = none) ∨
        ∃ d d', doc = some d ∧ doc' = some d' ∧ same d d' := by
  rw [runEmbed_eq, Meaning.embedded]
  split
  · exact .ofPure hs (.inl ⟨rfl, rfl⟩)
  · refine .note_bind hs rfl fun s₁ hs₁ _ => ?_
    have hembed :=
      realizes_run hg hnested hprint hs₁ (List.forall_mem_nil _) (hg.embed ok job.scene hlevel)
    exact hembed.orElse _ fun _ => .inl ⟨rfl, rfl⟩

theorem realizes_printContent (hs : Sound means known s) (hlevel : place.Level place')
    (hok : place.Allows ok) (n : NodeId) :
    Realizes means known s (printContent nested job print place n none)
      (Meaning.content plain job print' place' n) fun same => same := by
  unfold printContent Meaning.content
  rw [hg.isIgnored _ hlevel]
  split
  · exact realizes_reproduce hs n
  · refine (realizes_runEmbed hg hnested hprint hs hlevel).bind
      fun known₁ s₁ doc doc' _ _ hs₁ hdoc => ?_
    rcases hdoc with ⟨rfl, rfl⟩ | ⟨d, d', rfl, rfl, hd⟩
    · exact realizes_runRule hg hnested hprint hs₁ hlevel hok
    · exact .ofPure hs₁ hd

theorem realizes_printNode (hs : Sound means known s) (hlevel : place.Level place')
    (hok : place.Allows ok) (n : NodeId) :
    Realizes means known s (printNode nested job print place n none)
      (Meaning.node plain job print' place' n) fun same => same := by
  rw [printNode_eq, Meaning.node]
  refine (realizes_printContent hg hnested hprint hs hlevel hok n).bind
    fun known₁ s₁ doc bare _ _ hs₁ hdoc => ?_
  have haround : Realizes means known₁ s₁ (printAround nested job print place n doc)
      (Meaning.around plain job print' place' n bare) fun same => same := by
    unfold printAround Meaning.around
    rw [hg.printsOwnComments hlevel]
    split
    · exact .ofPure hs₁ hdoc
    · have hdocs : ∀ p ∈ [(doc, bare)], Resembles known₁ s₁.session p.1 p.2 :=
        List.forall_mem_singleton.mpr hdoc
      exact realizes_run hg hnested hprint hs₁ hdocs
        (Rule.mirrors_surround job.grammar job.scene job.marked n (List.mem_singleton_self _))
  rw [← Account.bind_pure (Meaning.around plain job print' place' n bare)]
  refine haround.bind fun known₂ s₂ commented bare' _ _ hs₂ hcommented => ?_
  exact .note_bind hs₂ rfl fun s₃ hs₃ hquiet => .ofPure hs₃ (hquiet.resembles hcommented)

end Print

end Pass

end SourceLayout
