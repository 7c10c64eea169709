import SourceLayout.Proofs.Doc.Pieces
import SourceLayout.Proofs.Pass.Meaning
import SourceLayout.Proofs.Text.Lines

/-! # The pieces that comments come to

The texts of a comment are marked if it is a line comment, and each of its lines but the last ends
a line of the document. What stands around a node never puts a text right behind a line comment: a
leading one ends its line, and a trailing one is held back.
-/

namespace SourceLayout

open Piece

namespace Doc

theorem bare_joined (flags : Doc → Bool) (left right : Doc) :
    (left.joined right).bare flags = (left.bare flags).joined (right.bare flags) := by
  unfold joined
  rw [isNil_bare, isNil_bare]
  split
  · rfl
  · split <;> rfl

theorem bare_spaced (flags : Doc → Bool) (docs : List Doc) (separator : Doc) :
    (spaced docs separator).bare flags = spaced (docs.map (bare flags)) (separator.bare flags) := by
  cases docs with
  | nil => rfl
  | cons first docs =>
    rw [List.map_cons, spaced, spaced, List.foldl_map]
    induction docs generalizing first with
    | nil => rfl
    | cons doc docs ih => rw [List.foldl_cons, ih, bare_joined, bare_joined, List.foldl_cons]

def lineOf [TextWidth] (m : Bool) (line : Text) : Doc :=
  (leaf .owned line).bare fun x => m && x.isText

def inked [TextWidth] (m : Bool) (content : Text) : Doc :=
  spaced (content.lines.map (lineOf m)) (.line 0 .literal)

theorem linesOf_eq_inked [TextWidth] (content : Text) : linesOf content = inked false content := by
  unfold linesOf inked
  congr 2
  funext line
  unfold lineOf leaf
  split
  · rfl
  · split <;> rfl

theorem commentOf_eq_inked [TextWidth] (content : Text) :
    commentOf content = inked (linesOf content).isLineComment content := by
  unfold commentOf
  split
  · rename_i h
    rw [h, linesOf, bare_spaced, List.map_map]
    rfl
  · rename_i h
    rw [Bool.not_eq_true] at h
    rw [h, linesOf_eq_inked]

section Inked

variable [TextWidth] (m : Bool) {content line : Text}

theorem row_lineOf (line : Text) :
    (lineOf m line).row = if line.isEmpty then [] else [.text m] := by
  have hm : ((m && true).toNat == 1) = m := by cases m <;> rfl
  unfold lineOf leaf
  split
  · rfl
  · split
    · exact congrArg (fun b => [Piece.text b]) hm
    · exact congrArg (fun b => [Piece.text b]) hm

theorem strand_lineOf (h : line.getLast? ≠ some '\n') : (lineOf m line).Strand := by
  unfold lineOf leaf
  split
  · exact .nil 0
  · split
    · exact .text _ _ h
    · exact .measured _ _ _ _ _

theorem strand_inked (content : Text) : (inked m content).Strand := by
  refine .spaced (fun doc hdoc => ?_) (.line 0 rfl)
  obtain ⟨line, hline, rfl⟩ := List.mem_map.mp hdoc
  exact strand_lineOf m (Text.getLast?_ne_of_mem_lines hline)

theorem separated_inked (content : Text) : Separated (inked m content).row := by
  rw [inked, separated_spaced rfl]
  intro doc hdoc
  obtain ⟨line, -, rfl⟩ := List.mem_map.mp hdoc
  rw [row_lineOf]
  split
  · exact .nil
  · exact .singleton _

theorem texts_inked (content : Text) :
    texts (inked m content).row = content.lines.flatMap
      fun line => if line.isEmpty then [] else [m] := by
  rw [inked, texts_spaced rfl, List.flatMap_map]
  congr 1
  funext line
  rw [row_lineOf]
  split <;> rfl

theorem eq_of_mem_texts_inked {m' : Bool} (h : m' ∈ texts (inked m content).row) : m' = m := by
  rw [texts_inked] at h
  obtain ⟨line, -, hm⟩ := List.mem_flatMap.mp h
  split at hm
  · cases hm
  · exact List.mem_singleton.mp hm

theorem getLast?_texts_inked {c : Char} (hc : c ∈ content) (hother : Text.isLineBreak c = false) :
    (texts (inked m content).row).getLast? = some m := by
  have hne : texts (inked m content).row ≠ [] := by
    obtain ⟨line, hline, hne⟩ := Text.exists_mem_lines hc hother
    rw [texts_inked]
    have hm : m ∈ if line.isEmpty then [] else [m] := by
      rw [if_neg (by simpa using hne)]
      exact List.mem_singleton_self m
    exact List.ne_nil_of_mem (List.mem_flatMap.mpr ⟨line, hline, hm⟩)
  rw [List.getLast?_eq_some_getLast hne, eq_of_mem_texts_inked m (List.getLast_mem hne)]

theorem settled_inked_iff :
    Settled (inked m content).row ↔ m = false ∨ content.lines.getLast? = some [] := by
  obtain ⟨init, last, hlines⟩ :=
    (List.eq_nil_or_concat' content.lines).resolve_left (Text.lines_ne_nil content)
  rw [inked, hlines, List.getLast?_concat, List.map_append, List.map_singleton, Option.some_inj]
  by_cases hlast : last = []
  · refine iff_of_true ?_ (.inr hlast)
    have hempty : (lineOf m last).row = [] := by rw [row_lineOf, hlast]; rfl
    cases init with
    | nil =>
      change Settled (lineOf m last).row
      rw [hempty]
      simp [Settled]
    | cons first init =>
      rw [spaced_concat (by simp), row_joined, hempty, List.append_nil, row_joined, Settled]
      change (_ ++ [Piece.lineEnd]).getLast? ≠ _
      rw [List.getLast?_concat]
      simp
  · obtain ⟨before, heq⟩ :=
      exists_spaced_concat (init.map (lineOf m)) (lineOf m last) (.line 0 .literal)
    rw [heq, row_joined, row_lineOf, if_neg (by simpa using hlast), Settled, List.getLast?_concat]
    simp [hlast]

end Inked

theorem firstText?_joined {left right : Doc} {content : Text}
    (h : left.firstText? = some content) : (left.joined right).firstText? = some content := by
  unfold joined
  split
  · rename_i hnil
    cases left with
    | nil => cases h
    | _ => cases hnil
  · split
    · exact h
    · unfold firstText? at h ⊢
      rw [parts, List.findSome?_cons, List.findSome?_append, h]
      rfl

theorem firstText?_spaced {first separator : Doc} {content : Text}
    (h : first.firstText? = some content) (docs : List Doc) :
    (spaced (first :: docs) separator).firstText? = some content := by
  rw [spaced]
  induction docs generalizing first with
  | nil => exact h
  | cons doc docs ih => exact ih (firstText?_joined (firstText?_joined h))

theorem firstText?_leaf [TextWidth] {origin : Origin} {content : Text} (h : content ≠ []) :
    (leaf origin content).firstText? = some content := by
  rw [leaf, if_neg (by simpa using h)]
  split <;> rfl

theorem isLineComment_linesOf [TextWidth] {c : Char} (hc : Text.isLineBreak c = false)
    (rest : Text) :
    (linesOf ('/' :: c :: rest)).isLineComment = (c == '/') := by
  obtain ⟨rest', others, hlines⟩ := Text.exists_linesFrom_eq [c, '/'] rest
  have hlines : Text.lines ('/' :: c :: rest) = ('/' :: c :: rest') :: others := by
    rw [Text.lines, Text.linesFrom_cons _ (by decide), Text.linesFrom_cons _ hc, hlines]
    rfl
  have hfirst : (linesOf ('/' :: c :: rest)).firstText? = some ('/' :: c :: rest') := by
    rw [linesOf, hlines, List.map_cons]
    exact firstText?_spaced (firstText?_leaf (List.cons_ne_nil _ _)) _
  rw [isLineComment, hfirst]
  simp [List.isPrefixOf, eq_comm]

end Doc

namespace Account

variable {α β : Type} {x : Account α} {f : α → Account β} {P P' : α → Prop} {R : β → Prop}

def Gives (x : Account α) (P : α → Prop) : Prop := ∃ a, x.outcome = .ok a ∧ P a

theorem Gives.mono (h : x.Gives P) (hP : ∀ a, P a → P' a) : x.Gives P' := by
  obtain ⟨a, hx, ha⟩ := h
  exact ⟨a, hx, hP a ha⟩

theorem gives_pure {a : α} (h : P a) : (pure a : Account α).Gives P := ⟨a, rfl, h⟩

theorem outcome_bind (x : Account α) (f : α → Account β) : (x >>= f).outcome =
    match x.outcome with
    | .ok a => (f a).outcome
    | .error e => .error e := by
  change Account.outcome (match x.outcome with
    | .ok a => ⟨(f a).outcome, x.shown ++ (f a).shown⟩
    | .error e => ⟨.error e, x.shown⟩) = _
  cases x.outcome <;> rfl

theorem gives_bind_iff : (x >>= f).Gives R ↔ x.Gives fun a => (f a).Gives R := by
  unfold Gives
  rw [outcome_bind]
  cases x.outcome with
  | ok a => simp
  | error e => simp

theorem Gives.orElse (h : x.Gives P) (strict : Bool) (b : α) : (x.orElse strict b).Gives P := by
  obtain ⟨a, hx, ha⟩ := h
  refine ⟨a, ?_, ha⟩
  rw [Account.orElse, hx]
  exact hx

theorem gives_orElse_of_error {e : Failure} {b : α} (h : x.outcome = .error e) (hb : P b) :
    (x.orElse false b).Gives P := by
  refine ⟨b, ?_, hb⟩
  rw [Account.orElse, h]
  rfl

end Account

namespace Meaning

open Account

variable {nested : Text → Text → Options → Except Failure Doc} {job : Job}
  {print : Cursor → Account Doc} {α β : Type} {P : α → Prop} {R : β → Prop}

theorem forall_mem_right {as : List α} {bs : List β} (h : List.Forall₂ (fun _ b => R b) as bs) :
    ∀ b ∈ bs, R b := by
  induction h with
  | nil => exact fun _ hb => nomatch hb
  | cons hb _ ih => exact List.forall_mem_cons.mpr ⟨hb, ih⟩

theorem isTrim_suffixed (body : Doc) : body.suffixed.isTrim = true := by
  unfold Doc.suffixed
  split
  · rename_i hnil
    cases body with
    | nil => rfl
    | _ => cases hnil
  · rfl

variable [TextWidth]

theorem gives_run_bind {x : Rule α} {f : α → Rule β}
    (hx : (x.run (answer nested job print)).Gives P)
    (hf : ∀ a, P a → ((f a).run (answer nested job print)).Gives R) :
    ((x >>= f).run (answer nested job print)).Gives R := by
  induction x with
  | done a =>
    obtain ⟨b, hb, ha⟩ := hx
    cases hb
    exact hf a ha
  | ask q next ih =>
    rw [Program.run_ask, gives_bind_iff] at hx
    rw [Program.ask_bind, Program.run_ask, gives_bind_iff]
    exact hx.mono fun doc hdoc => ih doc hdoc

theorem gives_run_build {P : Doc → Prop} {c : Construction Doc} (h : P c.plain) :
    ((Rule.build c).run (answer nested job print)).Gives P :=
  ⟨_, rfl, h⟩

theorem gives_build_bind {c : Construction Doc} {f : Doc → Rule β}
    (h : ((f c.plain).run (answer nested job print)).Gives R) :
    ((Rule.build c >>= f).run (answer nested job print)).Gives R := by
  have hbuild : ((Rule.build c).run (answer nested job print)).Gives (· = c.plain) :=
    gives_run_build rfl
  refine gives_run_bind hbuild ?_
  rintro _ rfl
  exact h

theorem gives_run_mapM {γ δ : Type} {rel : γ → δ → Prop} {rule : γ → Rule Doc} {P : δ → Doc → Prop}
    {as : List γ} {bs : List δ} (hrel : List.Forall₂ rel as bs)
    (h : ∀ a b, b ∈ bs → rel a b → ((rule a).run (answer nested job print)).Gives (P b)) :
    ((as.mapM rule).run (answer nested job print)).Gives (List.Forall₂ P bs) := by
  induction hrel with
  | nil =>
    rw [List.mapM_nil]
    exact gives_pure .nil
  | cons hab _ ih =>
    rw [List.mapM_cons]
    refine gives_run_bind (h _ _ List.mem_cons_self hab) fun doc hdoc => ?_
    refine gives_run_bind (ih fun a b hb => h a b (List.mem_cons_of_mem _ hb)) fun docs hdocs => ?_
    exact gives_pure (.cons hdoc hdocs)

theorem gives_run_comments {rule : CommentId → Rule Doc} {P : CommentId → Doc → Prop}
    {cs : List CommentId}
    (h : ∀ c ∈ cs, ((rule c).run (answer nested job print)).Gives (P c)) :
    ((cs.mapM rule).run (answer nested job print)).Gives (List.Forall₂ P cs) := by
  refine gives_run_mapM (List.forall₂_same.mpr fun c _ => rfl) ?_
  rintro c _ hc rfl
  exact h c hc

section Surround

open Doc

variable {c : CommentId}

/-- Whether a comment is a line comment can be seen from its text. -/
def Tells (job : Job) (c : CommentId) : Prop :=
  (linesOf (job.scene.tree.comment c).text).isLineComment =
    !job.grammar.isBlock (job.scene.tree.comment c)

theorem gives_comment (h : Tells job c) : ((Rule.comment c).run (answer nested job print)).Gives
    (· = inked (!job.grammar.isBlock (job.scene.tree.comment c)) (job.scene.tree.comment c).text) := by
  refine ⟨_, rfl, ?_⟩
  rw [← show _ = _ from h, ← commentOf_eq_inked]

theorem gives_leadingComment (h : Tells job c) :
    ((Rule.leadingComment job.grammar job.scene c).run (answer nested job print)).Gives
      fun doc => Separated doc.row ∧ Settled doc.row := by
  have hseparator : ((Rule.leadingSeparator job.grammar job.scene (job.scene.tree.comment c)).run
      (answer nested job print)).Gives fun doc => doc.row = [.lineEnd] ∨
        job.grammar.isBlock (job.scene.tree.comment c) = true ∧ true ∉ texts doc.row := by
    unfold Rule.leadingSeparator
    split
    · exact gives_run_build (.inl rfl)
    · rename_i hblock
      have hblock : job.grammar.isBlock (job.scene.tree.comment c) = true := by simpa using hblock
      split
      · split
        · exact gives_run_build (.inl rfl)
        · exact gives_run_build (.inr ⟨hblock, nofun⟩)
      · exact gives_run_build (.inr ⟨hblock, nofun⟩)
  refine gives_run_bind (gives_comment h) fun contents hcontents => ?_
  refine gives_run_bind hseparator fun separator hseparator => ?_
  have hdoc :
      Separated (contents.joined separator).row ∧ Settled (contents.joined separator).row := by
    rw [row_joined]
    have hseparated := separated_inked (!job.grammar.isBlock (job.scene.tree.comment c))
      (job.scene.tree.comment c).text
    rw [← hcontents] at hseparated
    rcases hseparator with hend | ⟨hblock, hplain⟩
    · rw [hend, separated_append_lineEnd, Settled, List.getLast?_concat]
      exact ⟨⟨hseparated, .nil⟩, by simp⟩
    · have htexts : true ∉ texts (contents.row ++ separator.row) := by
        rw [texts_append, List.mem_append, not_or]
        refine ⟨fun hmarked => ?_, hplain⟩
        rw [hcontents, hblock] at hmarked
        cases eq_of_mem_texts_inked _ hmarked
      refine ⟨separated_of_texts htexts, settled_of_texts fun hlast => ?_⟩
      exact htexts (List.mem_of_getLast? hlast)
  refine gives_build_bind ?_
  split
  · refine gives_build_bind (gives_run_build ?_)
    change Separated ((contents.joined separator).joined (.line 0 .hard)).row ∧
      Settled ((contents.joined separator).joined (.line 0 .hard)).row
    rw [row_joined]
    exact ⟨separated_append_lineEnd.mpr ⟨hdoc.1, .nil⟩, hdoc.2.append fun hmarked => by cases hmarked⟩
  · exact gives_pure hdoc

theorem gives_heldBack (blank contents : Doc) :
    ((Rule.heldBack blank contents).run (answer nested job print)).Gives
      fun doc => doc.Neat ∧ ∀ m ∈ texts doc.row, m = false := by
  refine gives_build_bind (gives_build_bind
    (gives_run_build ⟨neat_of_isTrim (isTrim_suffixed _), ?_⟩))
  change ∀ m ∈ texts (suffixed _).row, m = false
  rw [row_suffixed]
  exact fun _ hm => nomatch hm

theorem gives_trailingComment (h : Tells job c) :
    ((Rule.trailingComment job.grammar job.scene c).run (answer nested job print)).Gives
      fun doc => doc.Neat ∧ ∀ m ∈ texts doc.row, m = false := by
  refine gives_run_bind (gives_comment h) fun contents hcontents => ?_
  dsimp only
  split
  · split
    · exact gives_build_bind (gives_heldBack _ contents)
    · exact gives_build_bind (gives_heldBack _ contents)
  · refine gives_build_bind (gives_build_bind ?_)
    split
    · rename_i hblock
      rw [hblock] at hcontents
      change (pure ((leaf .fixed [' ']).joined contents) : Account Doc).Gives _
      refine gives_pure ⟨?_, fun m hm => ?_⟩
      · refine (neat_of_isTrim (isTrim_leaf (.inl rfl))).joined ?_
        rw [hcontents]
        exact (strand_inked _ _).neat
      · rw [row_joined, texts_append, List.mem_append] at hm
        rcases hm with hm | hm
        · exact List.mem_singleton.mp hm
        · rw [hcontents] at hm
          exact eq_of_mem_texts_inked _ hm
    · refine gives_build_bind (gives_build_bind (gives_run_build ⟨?_, ?_⟩))
      · exact (neat_of_isTrim (isTrim_suffixed _)).joined (neat_of_isTrim rfl)
      · change ∀ m ∈ texts ((suffixed _).joined (.breakParent 0)).row, m = false
        rw [row_joined, row_suffixed]
        exact fun _ hm => nomatch hm

/-- What stands around a node leaves its row as it is, but for texts that are no line comments. -/
theorem gives_surround {n : NodeId} {doc : Doc} (hmarked : job.marked ≠ some n)
    (h : ∀ placement, ∀ c ∈ job.scene.attachments.placed n placement, Tells job c)
    (hdoc : Closes false doc) :
    ((Rule.surround job.grammar job.scene job.marked n doc).run (answer nested job print)).Gives
      fun around => Closes false around ∧ (Separated around.row ↔ Separated doc.row) := by
  have hbefore : (((job.scene.attachments.placed n .leading).mapM
      (Rule.leadingComment job.grammar job.scene)).run (answer nested job print)).Gives
        (List.Forall₂ (fun _ doc => Separated doc.row ∧ Settled doc.row) _) :=
    gives_run_comments fun c hc => gives_leadingComment (h .leading c hc)
  have hafter : (((job.scene.attachments.placed n .trailing).mapM
      (Rule.trailingComment job.grammar job.scene)).run (answer nested job print)).Gives
        (List.Forall₂ (fun _ doc => doc.Neat ∧ ∀ m ∈ texts doc.row, m = false) _) :=
    gives_run_comments fun c hc => gives_trailingComment (h .trailing c hc)
  have hafters : ∀ {after : List Doc} {first : Doc}, Closes false first →
      (∀ doc ∈ after, doc.Neat ∧ ∀ m ∈ texts doc.row, m = false) →
      Closes false (after.foldl joined first) := by
    intro after
    induction after with
    | nil => exact fun hfirst _ => hfirst
    | cons doc after ih =>
      intro first hfirst hdocs
      rw [List.forall_mem_cons] at hdocs
      exact ih (hfirst.joined_left hdocs.1.1 hdocs.1.2) hdocs.2
  have hunmarked : (job.marked == some n) = false := by simpa using hmarked
  unfold Rule.surround
  dsimp only
  rw [hunmarked]
  split
  · exact gives_pure ⟨hdoc, Iff.rfl⟩
  · refine gives_run_bind hbefore fun before hbefore => ?_
    refine gives_run_bind hafter fun after hafter => gives_build_bind (gives_pure ?_)
    have hbefore : ∀ doc ∈ before, Separated doc.row ∧ Settled doc.row := forall_mem_right hbefore
    have hafter : ∀ doc ∈ after, doc.Neat ∧ ∀ m ∈ texts doc.row, m = false :=
      forall_mem_right hafter
    have hplain : true ∉ texts (after.flatMap row) := by
      intro hm
      obtain ⟨doc, hdoc, hm⟩ := List.mem_flatMap.mp (mem_texts_iff.mp hm)
      cases (hafter doc hdoc).2 true (mem_texts_iff.mpr hm)
    constructor
    · change Closes false (joinedAll (before ++ doc :: after))
      rw [joinedAll, List.foldl_append, List.foldl_cons]
      exact hafters (hdoc.joined_right _) hafter
    · change Separated (joinedAll (before ++ doc :: after)).row ↔ _
      rw [row_joinedAll, List.flatMap_append, List.flatMap_cons,
        separated_append (settled_flatMap fun doc hdoc => (hbefore doc hdoc).2),
        separated_flatMap (fun doc hdoc => (hbefore doc hdoc).2), separated_append hdoc.settled]
      exact ⟨fun h => h.2.1, fun h => ⟨fun doc hdoc => (hbefore doc hdoc).1, h,
        separated_of_texts hplain⟩⟩

theorem run_surround_eq {n : NodeId} {doc : Doc} (hmarked : job.marked ≠ some n)
    (h : ∀ placement ≠ .dangling, job.scene.attachments.placed n placement = []) :
    (Rule.surround job.grammar job.scene job.marked n doc).run (answer nested job print) =
      pure doc := by
  have hunmarked : (job.marked == some n) = false := by simpa using hmarked
  unfold Rule.surround
  dsimp only
  rw [hunmarked, h .leading nofun, h .trailing nofun]
  rfl

def dangling (job : Job) (n : NodeId) : Doc :=
  spaced ((job.scene.attachments.placed n .dangling).map fun c =>
    inked (!job.grammar.isBlock (job.scene.tree.comment c)) (job.scene.tree.comment c).text)
    (.line 0 .hard)

theorem gives_danglingComments {place : Cursor}
    (h : ∀ c ∈ job.scene.attachments.placed place.node .dangling, Tells job c) :
    ((Rule.danglingComments job.scene place true fun _ => true).run
      (answer nested job print)).Gives (· = dangling job place.node) := by
  unfold Rule.danglingComments dangling
  rw [List.filter_true]
  dsimp only
  split
  · rename_i hempty
    rw [List.isEmpty_iff.mp hempty]
    exact gives_run_build rfl
  · refine gives_run_bind (gives_run_comments fun c hc => gives_comment (h c hc))
      fun docs hdocs => ?_
    refine gives_build_bind (gives_build_bind (gives_pure ?_))
    have hdocs : docs = (job.scene.attachments.placed place.node .dangling).map fun c =>
        inked (!job.grammar.isBlock (job.scene.tree.comment c)) (job.scene.tree.comment c).text := by
      rw [← List.forall₂_eq_eq_eq, List.forall₂_map_right_iff]
      exact hdocs.flip
    rw [hdocs]
    rfl

section Dangling

variable {n : NodeId}

theorem strand_dangling (job : Job) (n : NodeId) : (dangling job n).Strand := by
  refine .spaced (fun doc hdoc => ?_) (.line 0 rfl)
  obtain ⟨c, -, rfl⟩ := List.mem_map.mp hdoc
  exact strand_inked _ _

theorem separated_dangling (job : Job) (n : NodeId) : Separated (dangling job n).row := by
  rw [dangling, separated_spaced rfl]
  intro doc hdoc
  obtain ⟨c, -, rfl⟩ := List.mem_map.mp hdoc
  exact separated_inked _ _

theorem exists_dangling_eq (hc : (job.scene.attachments.placed n .dangling).getLast? = some c) :
    ∃ before : Doc, dangling job n = before.joined
      (inked (!job.grammar.isBlock (job.scene.tree.comment c)) (job.scene.tree.comment c).text) := by
  obtain ⟨init, hinit⟩ := List.getLast?_eq_some_iff.mp hc
  rw [dangling, hinit, List.map_append]
  exact exists_spaced_concat _ _ _

end Dangling

end Surround

end Meaning

end SourceLayout
