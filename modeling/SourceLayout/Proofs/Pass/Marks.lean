import SourceLayout.Proofs.Doc.Tips
import SourceLayout.Proofs.Pass.Comments

/-! # The marks around a node

The comments around a node come to the same documents in all passes over a tree, and none of these
has a mark of the cursor. So a node that holds the cursor is told from others only by the marks
around it and its comments.
-/

namespace SourceLayout

variable [TextWidth]

namespace Doc

theorem unmarked_commentOf (content : Text) : (commentOf content).Unmarked := by
  unfold commentOf
  split
  · unfold Unmarked
    rw [tips_bare]
    exact unmarked_linesOf content
  · exact unmarked_linesOf content

end Doc

def bracketed (marked : Bool) (tips : List Tip) : List Tip :=
  if marked then .cursor :: tips ++ [.cursor] else tips

namespace Meaning

open Account Doc

variable {t : Tree} {a : Attachments} {α β : Type} {P : α → Prop} {R : β → Prop}

/-- In all passes over a tree a rule comes to the same result, and `P` holds of it. -/
def Yields (t : Tree) (x : Rule α) (P : α → Prop) : Prop :=
  ∃ r, P r ∧ ∀ nested job print, job.scene.tree = t →
    (x.run (answer nested job print)).Gives (· = r)

section Yields

theorem yields_pure {r : α} (h : P r) : Yields t (pure r : Rule α) P :=
  ⟨r, h, fun _ _ _ _ => gives_pure rfl⟩

theorem Yields.bind {x : Rule α} {f : α → Rule β} (hx : Yields t x P)
    (hf : ∀ r, P r → Yields t (f r) R) : Yields t (x >>= f) R := by
  obtain ⟨r, hr, hx⟩ := hx
  obtain ⟨r', hr', hf⟩ := hf r hr
  refine ⟨r', hr', fun nested job print htree => gives_run_bind (hx nested job print htree) ?_⟩
  rintro _ rfl
  exact hf nested job print htree

theorem yields_build {P : Doc → Prop} {c : Construction Doc} (h : P c.plain) :
    Yields t (Rule.build c) P :=
  ⟨c.plain, h, fun _ _ _ _ => gives_run_build rfl⟩

theorem yields_build_bind {c : Construction Doc} {f : Doc → Rule β} (h : Yields t (f c.plain) R) :
    Yields t (Rule.build c >>= f) R := by
  have hbuild : Yields t (Rule.build c) (· = c.plain) := yields_build rfl
  refine hbuild.bind ?_
  rintro _ rfl
  exact h

theorem yields_comment (c : CommentId) : Yields t (Rule.comment c) Unmarked := by
  refine ⟨commentOf (t.comment c).text, unmarked_commentOf _, ?_⟩
  rintro nested job print rfl
  exact ⟨_, rfl, rfl⟩

theorem yields_comments {rule : CommentId → Rule Doc} {P : Doc → Prop} {cs : List CommentId}
    (h : ∀ c, Yields t (rule c) P) : Yields t (cs.mapM rule) fun docs => ∀ doc ∈ docs, P doc := by
  induction cs with
  | nil =>
    rw [List.mapM_nil]
    exact yields_pure nofun
  | cons c cs ih =>
    rw [List.mapM_cons]
    refine (h c).bind fun doc hdoc => ih.bind fun docs hdocs => ?_
    exact yields_pure (List.forall_mem_cons.mpr ⟨hdoc, hdocs⟩)

end Yields

section Comments

variable {scene : Scene} (g : Grammar)

theorem yields_leadingComment (c : CommentId) :
    Yields t (Rule.leadingComment g scene c) Unmarked := by
  have hseparator : Yields t (Rule.leadingSeparator g scene (scene.tree.comment c)) Unmarked := by
    have hline : ∀ kind, Yields t (Rule.line kind) Unmarked := fun kind =>
      yields_build (unmarked_line 0 kind)
    unfold Rule.leadingSeparator
    split
    · exact hline .hard
    · split
      · split
        · exact hline .hard
        · exact hline .normal
      · exact yields_build (unmarked_leaf .fixed [' '])
  refine (yields_comment c).bind fun contents hcontents =>
    hseparator.bind fun separator hseparator => yields_build_bind ?_
  have hdoc : (contents.joined separator).Unmarked := hcontents.joined hseparator
  split
  · exact yields_build_bind (yields_build (hdoc.joined (unmarked_line 0 .hard)))
  · exact yields_pure hdoc

theorem yields_heldBack {blank contents : Doc} (hblank : blank.Unmarked)
    (hcontents : contents.Unmarked) : Yields t (Rule.heldBack blank contents) Unmarked := by
  have hheld : (joinedAll [.line 0 .hard, blank, contents]).Unmarked := by
    refine .joinedAll ?_
    simp only [List.forall_mem_cons]
    exact ⟨unmarked_line 0 .hard, hblank, hcontents, nofun⟩
  exact yields_build_bind (yields_build_bind (yields_build hheld.suffixed))

theorem yields_trailingComment (c : CommentId) :
    Yields t (Rule.trailingComment g scene c) Unmarked := by
  refine (yields_comment c).bind fun contents hcontents => ?_
  dsimp only
  split
  · split
    · exact yields_build_bind (yields_heldBack (unmarked_line 0 .hard) hcontents)
    · exact yields_build_bind (yields_heldBack List.not_mem_nil hcontents)
  · have hdoc : (joinedAll [leaf .fixed [' '], contents]).Unmarked := by
      refine .joinedAll ?_
      simp only [List.forall_mem_cons]
      exact ⟨unmarked_leaf _ _, hcontents, nofun⟩
    refine yields_build_bind (yields_build_bind ?_)
    split
    · exact yields_pure hdoc
    · have hbreak : (Doc.breakParent 0).Unmarked := by simp [Unmarked, tips, parts, tip?]
      exact yields_build_bind (yields_build_bind (yields_build (hdoc.suffixed.joined hbreak)))

theorem yields_danglingComments (place : Cursor) :
    Yields t (Rule.danglingComments scene place true fun _ => true) Unmarked := by
  unfold Rule.danglingComments
  dsimp only
  split
  · exact yields_build List.not_mem_nil
  · refine (yields_comments yields_comment).bind fun docs hdocs => yields_build_bind ?_
    exact yields_build_bind (yields_pure (.spaced hdocs (unmarked_line 0 .hard)))

end Comments

theorem gives_markedIf {nested : Text → Text → Options → Except Failure Doc} {job : Job}
    {print : Cursor → Account Doc} (marked : Bool) (doc : Doc) :
    ((Rule.markedIf marked doc).run (answer nested job print)).Gives fun around =>
      around.tips = bracketed marked doc.tips := by
  unfold Rule.markedIf bracketed
  split
  · refine gives_build_bind (gives_build_bind (gives_run_build ?_))
    change (joinedAll [.cursor 0, doc, .cursor 0]).tips = _
    rw [tips_joinedAll]
    rfl
  · exact gives_pure rfl

variable (t a) in
/-- A node has the tips of its comments around it and, if it holds the cursor, the marks around
them. -/
theorem exists_surround (g : Grammar) (n : NodeId) : ∃ before after : List Tip,
    .cursor ∉ before ∧ .cursor ∉ after ∧ ∀ nested options marked language print doc,
      ((Rule.surround g { tree := t, options, attachments := a } marked n doc).run
        (answer nested ⟨g, { tree := t, options, attachments := a }, marked, language⟩ print)).Gives
          fun around => around.tips = bracketed (marked == some n) (before ++ doc.tips ++ after) := by
  have hnone : ∀ {docs : List Doc}, (∀ doc ∈ docs, doc.Unmarked) → .cursor ∉ docs.flatMap tips := by
    intro docs hdocs hmem
    obtain ⟨doc, hdoc, hmem⟩ := List.mem_flatMap.mp hmem
    exact hdocs doc hdoc hmem
  let scene : Scene := { tree := t, options := {}, attachments := a }
  obtain ⟨before, hbefore, hleading⟩ : Yields t ((a.placed n .leading).mapM
      (Rule.leadingComment g scene)) fun docs => ∀ doc ∈ docs, doc.Unmarked :=
    yields_comments (yields_leadingComment g)
  obtain ⟨after, hafter, htrailing⟩ : Yields t ((a.placed n .trailing).mapM
      (Rule.trailingComment g scene)) fun docs => ∀ doc ∈ docs, doc.Unmarked :=
    yields_comments (yields_trailingComment g)
  refine ⟨before.flatMap tips, after.flatMap tips, hnone hbefore, hnone hafter, ?_⟩
  intro nested options marked language print doc
  let job : Job := ⟨g, { tree := t, options, attachments := a }, marked, language⟩
  have hleading := hleading nested job print rfl
  have htrailing := htrailing nested job print rfl
  have hamid : ((Rule.amidComments g job.scene n doc).run (answer nested job print)).Gives
      fun commented => commented.tips = before.flatMap tips ++ doc.tips ++ after.flatMap tips := by
    unfold Rule.amidComments
    dsimp only
    split
    · rename_i hempty
      rw [Bool.and_eq_true, List.isEmpty_iff, List.isEmpty_iff] at hempty
      rw [hempty.1] at hleading
      rw [hempty.2] at htrailing
      obtain ⟨_, ⟨⟩, rfl⟩ := hleading
      obtain ⟨_, ⟨⟩, rfl⟩ := htrailing
      exact gives_pure (List.append_nil _).symm
    · refine gives_run_bind hleading ?_
      rintro _ rfl
      refine gives_run_bind htrailing ?_
      rintro _ rfl
      refine gives_run_build ?_
      change (joinedAll _).tips = _
      rw [tips_joinedAll, List.flatMap_append, List.flatMap_cons, List.append_assoc]
  rw [Rule.surround_eq]
  refine gives_run_bind hamid fun commented htips => ?_
  rw [← htips]
  exact gives_markedIf _ commented

end Meaning

end SourceLayout
