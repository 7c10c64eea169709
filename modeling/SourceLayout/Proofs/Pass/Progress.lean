import Std.Data.TreeSet.Lemmas
import SourceLayout.Proofs.Pass.Trail

/-! # How a pass moves on

From one state to a later one a pass makes some steps: it prints comments and reproduces nodes.
All comments that are dealt with count as printed, and only nodes of a certain region are
remembered. Rules that only build documents make no steps.
-/

namespace SourceLayout

/-- A step deals with a comment: it prints it, or reproduces a node around it. -/
def Step.Shows (t : Tree) (c : CommentId) : Step → Prop
  | .comment b => c = b
  | .reproduced n => c ∈ t.commentIds ∧ (t.node n).span.contains (t.comment c).span = true

structure Advances (t : Tree) (steps : List Step) (region : NodeId → Prop) (s s' : PassState) :
    Prop where
  trail : s'.trail = s.trail ++ steps
  kept : ∀ c ∈ s.printed, c ∈ s'.printed
  shown : ∀ step ∈ steps, ∀ c, step.Shows t c → c ∈ s'.printed
  cache : ∀ n ∈ s'.cache, n ∈ s.cache ∨ region n

def PassState.ledger (s : PassState) :
    List Step × Std.TreeSet CommentId × Std.TreeMap NodeId Doc :=
  (s.trail, s.printed, s.cache)

/-- A step of a pass succeeds, with a certain result and on a certain way. -/
def Performs {α : Type} (t : Tree) (x : PassM α) (s : PassState) (steps : List Step)
    (region : NodeId → Prop) (P : α → Prop) : Prop :=
  Completes x s fun a s' => P a ∧ Advances t steps region s s'

variable {t : Tree} {steps steps' : List Step} {region region' : NodeId → Prop}
  {s s' s'' : PassState}

namespace Advances

theorem of_session (h : s'.trail = s.trail) (hp : s'.printed = s.printed)
    (hc : s'.cache = s.cache) : Advances t [] region s s' := by
  constructor
  · rw [h, List.append_nil]
  · rw [hp]; exact fun _ hc => hc
  · exact fun _ hstep => (nomatch hstep)
  · rw [hc]; exact fun _ hn => .inl hn

theorem trans (h : Advances t steps region s s') (h' : Advances t steps' region' s' s'') :
    Advances t (steps ++ steps') (fun n => region n ∨ region' n) s s'' := by
  constructor
  · rw [h'.trail, h.trail, List.append_assoc]
  · exact fun c hc => h'.kept c (h.kept c hc)
  · intro step hstep c hc
    rcases List.mem_append.mp hstep with hstep | hstep
    · exact h'.kept c (h.shown step hstep c hc)
    · exact h'.shown step hstep c hc
  · intro n hn
    rcases h'.cache n hn with hn | hn
    · exact (h.cache n hn).imp id .inl
    · exact .inr (.inr hn)

theorem mono (h : Advances t steps region s s') (hr : ∀ n, region n → region' n) :
    Advances t steps region' s s' :=
  { h with cache := fun n hn => (h.cache n hn).imp id (hr n) }

end Advances

namespace Performs

variable {α β : Type} {x : PassM α} {f : α → PassM β} {P : α → Prop} {R : β → Prop}

theorem ofPure {a : α} (h : P a) : Performs t (pure a) s [] region P :=
  Completes.ofPure ⟨h, .of_session rfl rfl rfl⟩

theorem bind_union (hx : Performs t x s steps region P)
    (hf : ∀ a s', P a → Advances t steps region s s' → Performs t (f a) s' steps' region' R) :
    Performs t (x >>= f) s (steps ++ steps') (fun n => region n ∨ region' n) R :=
  Completes.bind hx fun a s' ⟨ha, hs⟩ => (hf a s' ha hs).mono fun _ _ ⟨hb, hs'⟩ =>
    ⟨hb, hs.trans hs'⟩

theorem mono (h : Performs t x s steps region P) (hr : ∀ n, region n → region' n) {P' : α → Prop}
    (hP : ∀ a, P a → P' a) : Performs t x s steps region' P' :=
  Completes.mono h fun a _ ⟨ha, hs⟩ => ⟨hP a ha, hs.mono hr⟩

theorem bind (hx : Performs t x s steps region P)
    (hf : ∀ a s', P a → Advances t steps region s s' → Performs t (f a) s' steps' region R) :
    Performs t (x >>= f) s (steps ++ steps') region R :=
  (hx.bind_union hf).mono (fun _ hn => hn.elim id id) fun _ => id

theorem bind_last (hx : Performs t x s steps region P)
    (hf : ∀ a s', P a → Advances t steps region s s' → Performs t (f a) s' [] region R) :
    Performs t (x >>= f) s steps region R := by
  rw [← List.append_nil steps]
  exact hx.bind hf

theorem bind_quiet (hx : Performs t x s [] (fun _ => False) P)
    (hf : ∀ a s', P a → (∀ n ∈ s'.cache, n ∈ s.cache) → Performs t (f a) s' steps region R) :
    Performs t (x >>= f) s steps region R :=
  (hx.bind_union fun a s' ha hs => hf a s' ha fun n hn => (hs.cache n hn).resolve_right id).mono
    (fun _ hn => hn.resolve_left id) fun _ => id

theorem of_keeps (hx : Keeps PassState.ledger x) {r : Except Failure α × PassState}
    (hr : x.run.run s = r) {a : α} (ha : r.1 = .ok a) : Performs t x s [] region fun _ => True := by
  obtain ⟨_, s'⟩ := r
  obtain rfl : _ = Except.ok a := ha
  have hs := hx s
  rw [hr] at hs
  obtain ⟨htrail, hrest⟩ := Prod.mk.inj hs
  obtain ⟨hprinted, hcache⟩ := Prod.mk.inj hrest
  exact ⟨a, s', hr, trivial, .of_session htrail hprinted hcache⟩

theorem tryCatch_none {x : PassM (Option α)} (hx : Keeps PassState.ledger x) :
    Performs t (tryCatch x fun _ => pure none) s [] region fun _ => True := by
  have hkeeps : Keeps PassState.ledger (tryCatch x fun _ => pure none) :=
    hx.tryCatch fun _ => .ofPure _
  have hrun := run_tryCatch_eq x (fun _ => pure none) s
  rcases h : x.run.run s with ⟨e | a, s'⟩
  · rw [h] at hrun
    exact of_keeps hkeeps hrun rfl
  · rw [h] at hrun
    exact of_keeps hkeeps hrun rfl

theorem ofDoc (x : DocM α) : Performs t (PassM.ofDoc x) s [] region fun _ => True :=
  ⟨_, _, rfl, trivial, .of_session rfl rfl rfl⟩

theorem ofGet : Performs t (get : PassM PassState) s [] region (· = s) :=
  ⟨s, s, rfl, rfl, .of_session rfl rfl rfl⟩

end Performs

namespace Pass

variable {nested : Text → Text → Options → SessionM Doc} {job : Job}

theorem keeps_ledger_ofSession {α : Type} {x : SessionM α} (hx : Keeps Session.trail x) :
    Keeps PassState.ledger (PassM.ofSession x) := fun s =>
  congrArg (·, s.printed, s.cache) (hx s.session)

theorem performs_note {event : Event} (h : Entry.step? ⟨job.language, event⟩ = none) :
    Performs t (PassM.note job event) s [] region fun _ => True :=
  ⟨_, _, rfl, trivial, .of_session (keeps_trail_note h s) rfl rfl⟩

theorem performs_remember (n : NodeId) (doc : Doc) :
    Performs t (PassM.remember n doc) s [] (fun m => m = n) fun _ => True := by
  refine ⟨_, _, rfl, trivial, (List.append_nil _).symm, fun _ => id, fun _ hstep => (nomatch hstep),
    fun m hm => ?_⟩
  rcases Std.TreeMap.mem_insert.mp hm with hm | hm
  · exact .inr (Std.LawfulEqCmp.eq_of_compare hm).symm
  · exact .inl hm

theorem performs_printComment [TextWidth] (hjob : job.language = none) (c : CommentId) :
    Performs t (printComment job c) s [.comment c] region fun _ => True := by
  refine ⟨_, _, rfl, trivial, trail_printComment hjob c s, ?_, ?_, fun _ hn => .inl hn⟩
  · intro b hb
    exact Std.TreeSet.mem_insertMany_list.mpr (.inl hb)
  · intro step hstep b hb
    obtain rfl := List.mem_singleton.mp hstep
    obtain rfl : b = c := hb
    exact Std.TreeSet.mem_insertMany_list.mpr (.inr (by simp))

theorem performs_reproduce [TextWidth] (hjob : job.language = none) (n : NodeId) :
    Performs job.scene.tree (reproduce job n) s [.reproduced n] region fun _ => True := by
  refine ⟨_, _, rfl, trivial, trail_reproduce hjob n s, ?_, ?_, fun _ hn => .inl hn⟩
  · intro b hb
    exact Std.TreeSet.mem_insertMany_list.mpr (.inl hb)
  · intro step hstep b hb
    obtain rfl := List.mem_singleton.mp hstep
    refine Std.TreeSet.mem_insertMany_list.mpr (.inr ?_)
    rw [List.contains_iff_mem, List.mem_filter]
    exact hb

/-- The check at the end passes if all comments count as printed. -/
theorem run_checkComments_eq_ok_iff :
    (checkComments job).run.run s = (.ok (), s') ↔
      s' = s ∧ ∀ c ∈ job.scene.tree.commentIds, c ∈ s.printed := by
  have hall : (∀ c ∈ job.scene.tree.commentIds, c ∈ s.printed) ↔
      job.scene.tree.commentIds.find? (fun c => !s.printed.contains c) = none := by
    simp [List.find?_eq_none]
  have hget : (get : PassM PassState).run.run s = (.ok s, s) := rfl
  rw [hall, checkComments, run_bind_eq, hget]
  dsimp only
  split
  · rename_i c hc
    rw [hc]
    exact ⟨fun h => (nomatch h), fun h => (nomatch h.2)⟩
  · rename_i hnone
    exact ⟨fun h => ⟨(Prod.mk.inj h).2.symm, hnone⟩, fun h => h.1 ▸ rfl⟩

end Pass

/-- A rule that asks for nothing but documents to be built. -/
def Rule.Builds {α : Type} : Rule α → Prop
  | .done _ => True
  | .ask (.build _) next => ∀ doc, Rule.Builds (next doc)
  | .ask _ _ => False

namespace Rule

variable {α β : Type} {x : Rule α} {f : α → Rule β}

theorem Builds.bind (hx : x.Builds) (hf : ∀ a, (f a).Builds) : (x >>= f).Builds := by
  induction x with
  | done a => exact hf a
  | ask q next ih =>
    cases q with
    | build c => exact fun doc => ih doc (hx doc)
    | print | comment | format | refuse => exact hx.elim

theorem builds_pure (a : α) : Builds (pure a : Rule α) := trivial

theorem builds_build (c : Construction Doc) : (build c).Builds := fun _ => trivial

theorem builds_markedIf (marked : Bool) (doc : Doc) : (markedIf marked doc).Builds := by
  unfold markedIf
  split
  · exact fun _ _ _ => trivial
  · exact trivial

end Rule

section Run

variable {α β : Type} {x : Rule α} {f : α → Rule β} {answer : Request → PassM Doc} {P : α → Prop}
  {R : β → Prop}

theorem Performs.run_bind_union (hx : Performs t (x.run answer) s steps region P)
    (hf : ∀ a s', P a → Advances t steps region s s' →
      Performs t ((f a).run answer) s' steps' region' R) :
    Performs t ((x >>= f).run answer) s (steps ++ steps') (fun n => region n ∨ region' n) R := by
  rw [Program.run_bind]
  exact hx.bind_union hf

theorem Performs.run_bind (hx : Performs t (x.run answer) s steps region P)
    (hf : ∀ a s', P a → Advances t steps region s s' →
      Performs t ((f a).run answer) s' steps' region R) :
    Performs t ((x >>= f).run answer) s (steps ++ steps') region R := by
  rw [Program.run_bind]
  exact hx.bind hf

theorem Performs.run_bind_last (hx : Performs t (x.run answer) s steps region P)
    (hf : ∀ a s', P a → Advances t steps region s s' →
      Performs t ((f a).run answer) s' [] region R) :
    Performs t ((x >>= f).run answer) s steps region R := by
  rw [Program.run_bind]
  exact hx.bind_last hf

theorem Rule.Builds.performs [TextWidth] (h : x.Builds)
    (hbuild : ∀ c, answer (.build c) = PassM.ofDoc c.build) :
    Performs t (x.run answer) s [] region fun _ => True := by
  induction x generalizing s with
  | done a => exact .ofPure trivial
  | ask q next ih =>
    cases q with
    | build c =>
      rw [Program.run_ask, hbuild]
      exact (Performs.ofDoc _).bind_last fun doc s' _ _ => ih doc (h doc)
    | print | comment | format | refuse => exact h.elim

theorem Rule.Builds.keeps [TextWidth] (h : x.Builds)
    (hbuild : ∀ c, answer (.build c) = PassM.ofDoc c.build) :
    Keeps PassState.ledger (x.run answer) := by
  induction x with
  | done a => exact .ofPure a
  | ask q next ih =>
    cases q with
    | build c =>
      rw [Program.run_ask, hbuild]
      exact Keeps.bind (fun _ => rfl) fun doc => ih doc (h doc)
    | print | comment | format | refuse => exact h.elim

theorem Performs.run_mapM {γ : Type} {rule : γ → Rule Doc} {walk : γ → List Step} {xs : List γ}
    (h : ∀ x ∈ xs, ∀ s, Performs t ((rule x).run answer) s (walk x) region fun _ => True) :
    Performs t ((xs.mapM rule).run answer) s (xs.flatMap walk) region
      fun docs => docs.length = xs.length := by
  induction xs generalizing s with
  | nil => exact .ofPure rfl
  | cons x xs ih =>
    rw [List.forall_mem_cons] at h
    rw [List.mapM_cons, List.flatMap_cons]
    refine (h.1 s).run_bind fun doc s' _ _ => ?_
    exact (ih h.2).run_bind_last fun docs s'' hdocs _ => .ofPure (congrArg (· + 1) hdocs)

theorem Performs.run_mapM_comment {rule : CommentId → Rule Doc} {cs : List CommentId}
    (h : ∀ {s} c, Performs t ((rule c).run answer) s [.comment c] region fun _ => True) :
    Performs t ((cs.mapM rule).run answer) s (cs.map .comment) region fun _ => True := by
  rw [List.map_eq_flatMap]
  exact (Performs.run_mapM fun c _ s => h c).mono (fun _ => id) fun _ _ => trivial

end Run

namespace Pass

variable [TextWidth] {nested : Text → Text → Options → SessionM Doc} {job : Job}
  {print : Cursor → Option Flags → PassM Doc}

theorem performs_builds {α : Type} {x : Rule α} (h : x.Builds) :
    Performs t (x.run (answer nested job print)) s [] region fun _ => True :=
  h.performs fun _ => rfl

theorem performs_print {place : Cursor}
    (h : Performs t (print place none) s steps region fun _ => True) :
    Performs t ((Rule.print place).run (answer nested job print)) s steps region fun _ => True := by
  exact h.bind_last fun _ _ _ _ => .ofPure trivial

variable (hjob : job.language = none)
include hjob

theorem performs_comment (c : CommentId) :
    Performs t ((Rule.comment c).run (answer nested job print)) s [.comment c] region
      fun _ => True :=
  (performs_printComment hjob c).bind_last fun _ _ _ _ => .ofPure trivial

theorem performs_comment_bind {α : Type} {c : CommentId} {f : Doc → Rule α}
    (hf : ∀ doc, (f doc).Builds) :
    Performs t ((Rule.comment c >>= f).run (answer nested job print)) s [.comment c] region
      fun _ => True := by
  exact (performs_comment hjob c).run_bind_last fun doc s' _ _ => performs_builds (hf doc)

theorem performs_leadingComment (g : Grammar) (scene : Scene) (c : CommentId) :
    Performs t ((Rule.leadingComment g scene c).run (answer nested job print)) s [.comment c] region
      fun _ => True := by
  apply performs_comment_bind hjob
  intro contents
  have hseparator : (Rule.leadingSeparator g scene (scene.tree.comment c)).Builds := by
    unfold Rule.leadingSeparator
    split
    · exact Rule.builds_build _
    · split
      · split
        · exact Rule.builds_build _
        · exact Rule.builds_build _
      · exact Rule.builds_build _
  refine hseparator.bind fun separator => (Rule.builds_build _).bind fun doc => ?_
  split
  · exact (Rule.builds_build _).bind fun _ => Rule.builds_build _
  · exact Rule.builds_pure _

theorem performs_trailingComment (g : Grammar) (scene : Scene) (c : CommentId) :
    Performs t ((Rule.trailingComment g scene c).run (answer nested job print)) s [.comment c] region
      fun _ => True := by
  apply performs_comment_bind hjob
  intro contents
  dsimp only
  split
  · split
    · exact fun _ _ _ _ => trivial
    · exact fun _ _ _ _ => trivial
  · refine fun _ _ => ?_
    dsimp only [Program.bind]
    split
    · exact trivial
    · exact fun _ _ _ => trivial

/-- The comments around a node are printed in order, those before it first. -/
theorem performs_surround (g : Grammar) (scene : Scene) (marked : Option NodeId) (n : NodeId)
    (doc : Doc) :
    Performs t ((Rule.surround g scene marked n doc).run (answer nested job print)) s
      ((scene.attachments.placed n .leading ++ scene.attachments.placed n .trailing).map .comment)
      region fun _ => True := by
  have hamid : Performs t ((Rule.amidComments g scene n doc).run (answer nested job print)) s
      ((scene.attachments.placed n .leading ++ scene.attachments.placed n .trailing).map .comment)
      region fun _ => True := by
    unfold Rule.amidComments
    dsimp only
    split
    · rename_i hempty
      rw [Bool.and_eq_true, List.isEmpty_iff, List.isEmpty_iff] at hempty
      rw [hempty.1, hempty.2]
      exact .ofPure trivial
    · rw [List.map_append]
      refine (Performs.run_mapM_comment (performs_leadingComment hjob g scene)).run_bind
        fun before s' _ _ => ?_
      exact (Performs.run_mapM_comment (performs_trailingComment hjob g scene)).run_bind_last
        fun after s'' _ _ => performs_builds (Rule.builds_build _)
  rw [Rule.surround_eq]
  exact hamid.run_bind_last fun doc s' _ _ => performs_builds (Rule.builds_markedIf _ doc)

theorem performs_printAround {place : Cursor} (hown : job.grammar.printsOwnComments place = false)
    (n : NodeId) (doc : Doc) :
    Performs t (printAround nested job print place n doc) s
      ((job.scene.attachments.placed n .leading ++ job.scene.attachments.placed n .trailing).map .comment)
      region fun _ => True := by
  unfold printAround
  rw [hown, if_neg Bool.false_ne_true]
  exact performs_surround hjob _ _ _ n doc

theorem performs_danglingComments (scene : Scene) (place : Cursor) :
    Performs t ((Rule.danglingComments scene place true fun _ => true).run
      (answer nested job print)) s
      ((scene.attachments.placed place.node .dangling).map .comment) region fun _ => True := by
  unfold Rule.danglingComments
  dsimp only
  rw [List.filter_eq_self.mpr fun _ _ => rfl]
  split
  · rename_i hempty
    rw [List.isEmpty_iff.mp hempty]
    exact performs_builds (Rule.builds_build _)
  · refine (Performs.run_mapM_comment (performs_comment hjob)).run_bind_last fun docs s' _ _ =>
      performs_builds ?_
    exact fun _ _ => trivial

end Pass

end SourceLayout
