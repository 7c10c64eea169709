import SourceLayout.Proofs.Comment.Offset
import SourceLayout.Proofs.Toy.Display
import SourceLayout.Proofs.Toy.LineComments

/-! # The marks of the cursor

A pass over a toy text marks the node at the cursor with its comments, and no other: unless there
is none, or it lies in a node that the pass reproduces, its document has two marks. Passes over
embedded code know of no cursor.
-/

namespace SourceLayout.Toy

open Account Doc Meaning

variable {text : Text} {t : Tree} {a : Attachments} {events : List Event} {n : NodeId}
  {options : Options}

open CommentPolicy in
theorem holds_of_nodeAt? (h : Parsed t) {offset : Nat} (hn : policy.nodeAt? t offset = some n) :
    t.Reaches t.root n ∧ (t.node n).kind ≠ "Quasi" := by
  have hway : ∀ {m}, Relation.ReflTransGen (TowardsOffset policy t offset) t.root m →
      t.Reaches t.root m ∧ (t.node m).kind ≠ "Quasi" := by
    intro m hm
    induction hm with
    | refl =>
      rw [h.kind_root]
      exact ⟨t.reaches_self _, by decide⟩
    | tail _ hlast ih =>
      exact ⟨.inr (ih.1.trans_below hlast.1.isBelow), bne_iff_ne.mp hlast.1.canHold⟩
  obtain ⟨way, last, hdescends, hnode⟩ :=
    nodeAt?_eq (p := policy) (fun _ => rfl) h.wellNested offset
  rw [hnode] at hn
  split at hn
  · obtain rfl := Option.some.inj hn
    exact hway (hdescends.towardsOffset (fun _ => rfl) h.wellNested.earlier)
  · cases hn

theorem count_eq_two {α : Type} [DecidableEq α] {c : α} {before own after : List α}
    (h : c ∉ before ++ own ++ after) : (before ++ c :: own ++ c :: after).count c = 2 := by
  simp only [List.mem_append, not_or] at h
  simp [List.count_append, List.count_eq_zero_of_not_mem h.1.1,
    List.count_eq_zero_of_not_mem h.1.2, List.count_eq_zero_of_not_mem h.2]

section Meant

variable {nested : Text → Text → Options → Except Failure Doc} {language : Option Text} {doc : Doc}

def margin (options : Options) : List Tip := if options.shift > 0 then [.line .hard] else []

theorem cursor_notMem_margin : .cursor ∉ margin options := by
  unfold margin
  split <;> simp

variable [TextWidth]

theorem tips_of_ofPass (hassign : assignComments policy t = .ok (a, events))
    (hdoc : ofPass nested language (grammar false) options t = .ok doc) :
    doc.tips = margin options ++ shown t a nested options options.cursor
      (options.cursor.bind (policy.nodeAt? t)) t.root := by
  rw [ofPass_language] at hdoc
  obtain ⟨⟨a', events'⟩, hassign', hdoc⟩ := bind_eq_ok_iff.mp hdoc
  cases hassign.symm.trans hassign'
  obtain ⟨root, hroot, hdoc⟩ := bind_eq_ok_iff.mp hdoc
  obtain ⟨_, -, hdoc⟩ := bind_eq_ok_iff.mp hdoc
  rw [← pure_eq_ok_iff.mp hdoc, tips_hardened]
  obtain ⟨own, hown, shifted, hshifted, rfl⟩ := gives_bind_iff.mp ⟨root, hroot, (rfl : root = root)⟩
  obtain rfl := Except.ok.inj hshifted
  have htips : shown t a nested options options.cursor (options.cursor.bind (policy.nodeAt? t))
      t.root = own.tips := Gives.tips_eq ⟨own, hown, rfl⟩
  rw [htips]
  change (Meaning.shifted options own).tips = _
  unfold Meaning.shifted margin
  split
  · rw [tips_shifted, tips_joined]
    rfl
  · rfl

theorem unmarked_of_ofPass (hparse : parse text = .ok t)
    (hnested : ∀ name source doc, nested name source options.nested = .ok doc → doc.Unmarked)
    (hstrict : options.strict = false) (hcursor : options.cursor = none)
    (hdoc : ofPass nested language (grammar false) options t = .ok doc) : doc.Unmarked := by
  have h := parsed_of_parse hparse
  obtain ⟨a, events, hassign, -, -⟩ := exists_tidy h
  have hplain := cursor_notMem_plain (a := a) h hnested hstrict (t.reaches_self _)
  unfold Unmarked
  rw [tips_of_ofPass hassign hdoc, hcursor, List.mem_append, not_or]
  exact ⟨cursor_notMem_margin, hplain⟩

/-- No text comes to a document with marks without a cursor, however deep it is nested. -/
theorem unmarked_of_ofText {depth : Nat} {name source : Text} (hstrict : options.strict = false)
    (hcursor : options.cursor = none)
    (hdoc : ofText languages depth name source options = .ok doc) : doc.Unmarked := by
  induction depth generalizing name source options doc with
  | zero => cases hdoc
  | succ depth ih =>
    unfold ofText at hdoc
    cases hl : languages.get? name with
    | none =>
      rw [hl] at hdoc
      cases hdoc
    | some l =>
      rw [hl] at hdoc
      obtain ⟨t, htree, hdoc⟩ := bind_eq_ok_iff.mp hdoc
      obtain ⟨hgrammar, hparse⟩ := parse_of_get? hl htree
      rw [hgrammar] at hdoc
      exact unmarked_of_ofPass hparse (fun name source doc => ih hstrict rfl) hstrict hcursor hdoc

end Meant

section Alone

open Pass

variable [TextWidth]

variable (t a options n) in
/-- Prints a node on its own, in a pass without a cursor. -/
def printAlone : Except Failure Doc × PassState :=
  (printAt (formatWithin languages (nestingLimit t.source.text))
    (hostJob t a { options with cursor := none } none) (depthLimit t) (.atNode t n) none).run.run
      { session := {} }

/-- On its own a node shows what it shows in a pass without a cursor. -/
theorem exists_printAlone (h : Parsed t) (hstrict : options.strict = false)
    (hr : t.Reaches t.root n) : ∃ own s, printAlone t a n options = (.ok own, s) ∧
      own.tips = shown t a (ofText languages (nestingLimit t.source.text)) options none none n := by
  have hn : n < t.nodes.size := h.reaches_lt_size hr
  have hdepth : n + 3 ≤ depthLimit t := add_three_le_depthLimit hn
  let plain := ofText languages (nestingLimit t.source.text)
  let job := hostJob t a { options with cursor := none } none
  have hback : job.scene.tree.RefersBack := h.wellNested.earlier
  have hclean : ({} : Session).Clean := by
    intro l hl
    simp [Store.isBroken, Session.marks] at hl
  have hsound : SourceLayout.Sound (ofNode plain job) (fun _ => False) { session := {} } :=
    ⟨⟨Issued.none _, by simp⟩, hclean, by simp⟩
  have hrealizes : Realizes (ofNode plain job) (fun _ => False) { session := {} }
      (printBy .reuse (formatBy .reuse languages (nestingLimit t.source.text)) job (depthLimit t)
        (.atNode t n) none) (ofNode plain job n) fun same => same :=
    realizes_printBy (mirrors_grammar false) (delivers_formatBy mirrors_languages .reuse _) hback
      .reuse (Nat.le_trans (Nat.le_add_left 3 n) hdepth) (fun _ _ => hdepth) hsound rfl rfl
  rw [printBy_reuse, formatBy_reuse] at hrealizes
  obtain ⟨known, -, -, -, -, hend⟩ := hrealizes
  have hnested : ∀ name source doc, plain name source options.nested = .ok doc → doc.Unmarked :=
    fun name source doc => unmarked_of_ofText hstrict rfl
  obtain ⟨bare, hbare, hshown⟩ := (gives_ofNode_true (a := a) h hnested hstrict hn none none).tips
  rw [hbare] at hend
  unfold printAlone
  generalize (printAt (formatWithin languages (nestingLimit t.source.text)) job (depthLimit t)
    (.atNode t n) none).run.run { session := {} } = run at hend ⊢
  obtain ⟨result, s⟩ := run
  cases hend with
  | @ok own _ hown =>
    refine ⟨own, s, rfl, ?_⟩
    rw [← tips_bare, hown.2]
    exact hshown

def Buried (t : Tree) (session : Session) (n : NodeId) : Prop :=
  ∃ k, .reproduced k ∈ session.trail ∧ t.Below k n

theorem unmarked_of_formatWithin (hstrict : options.strict = false) {depth : Nat}
    {name source : Text} {session session' : Session} {doc : Doc} (hsession : session.Clean)
    (hrun : (formatWithin languages depth name source options.nested).run.run session =
      (.ok doc, session')) : doc.Unmarked := by
  obtain ⟨known, -, -, -, -, hend⟩ := delivers_formatBy mirrors_languages .reuse depth name source
    options.nested _ session (Issued.none _) hsession
  rw [formatBy_reuse, hrun] at hend
  generalize hbare : ofText languages depth name source options.nested = result at hend
  cases hend with
  | ok hdoc =>
    unfold Unmarked
    rw [← tips_bare, hdoc.2]
    exact unmarked_of_ofText (show options.nested.strict = false from hstrict) rfl hbare

/-- The document of a pass shows what its root shows, and the pass gets to the nodes that it has
reproduced none above. -/
theorem exists_layout (hparse : parse text = .ok t) (hstrict : options.strict = false) :
    ∃ a events doc session, assignComments policy t = .ok (a, events) ∧
      layoutTree (grammar false) languages options t = (.ok doc, session) ∧
      (doc.tips = margin options ++ shown t a (ofText languages (nestingLimit t.source.text)) options
        options.cursor (options.cursor.bind (policy.nodeAt? t)) t.root) ∧
      ∀ offset n, policy.nodeAt? t offset = some n → t.Reaches t.root n ∧
        (t.node n).kind ≠ "Quasi" ∧ (Displayed t a t.root n ↔ ¬ Buried t session n) := by
  have h := parsed_of_parse hparse
  obtain ⟨a, events, doc, session, hassign, -, hlayout, htrail⟩ :=
    exists_overTree (keeps_formatWithin languages (nestingLimit t.source.text)) hstrict h
  refine ⟨a, events, doc, session, hassign, hlayout, ?_, fun offset n hn => ?_⟩
  · have hlayout : layoutTree (grammar false) languages options t = (.ok doc, session) := hlayout
    have hconcur := concur_ofPass (mirrors_grammar false) mirrors_languages h.wellNested.earlier
      options .reuse
    rw [layoutBy_reuse, hlayout] at hconcur
    generalize hbare : ofPass (ofText languages (nestingLimit t.source.text)) none (grammar false)
      options t = result at hconcur
    cases hconcur with
    | ok hdoc => rw [← tips_of_ofPass hassign hbare, ← hdoc, tips_bare]
  · obtain ⟨hreached, hkind⟩ := holds_of_nodeAt? h hn
    refine ⟨hreached, hkind, ?_⟩
    rw [Buried, htrail]
    exact displayed_root_iff h hreached hkind

/-- The marks of the cursor come as one pair. For every text that the toy parser accepts, in the
document of a pass that is not strict there are two if there is a node at the cursor and the pass
has reproduced none above it, and none otherwise. Between the two stands what the node comes to on
its own with its comments, and none of them is from a nested pass. -/
theorem layoutTree_marks_cursor (hparse : parse text = .ok t) (hstrict : options.strict = false) :
    ∃ a events doc session, assignComments policy t = .ok (a, events) ∧
      layoutTree (grammar false) languages options t = (.ok doc, session) ∧
      (∀ n, options.cursor.bind (policy.nodeAt? t) = some n → ¬ Buried t session n →
        doc.tips.count .cursor = 2 ∧ ∃ before own after s,
          printAlone t a n options = (.ok own, s) ∧ .cursor ∉ before ++ own.tips ++ after ∧
          doc.tips = before ++ .cursor :: own.tips ++ .cursor :: after) ∧
      ((∀ n, options.cursor.bind (policy.nodeAt? t) = some n → Buried t session n) →
        doc.tips.count .cursor = 0) ∧
      ∀ depth name source nested session session', session.Clean →
        (formatWithin languages depth name source options.nested).run.run session =
          (.ok nested, session') → nested.tips.count .cursor = 0 := by
  have h := parsed_of_parse hparse
  have hnested : ∀ name source doc, ofText languages (nestingLimit t.source.text) name source
      options.nested = .ok doc → doc.Unmarked :=
        fun name source doc => unmarked_of_ofText hstrict rfl
  have hroot := t.reaches_self t.root
  obtain ⟨a, events, doc, session, hassign, hlayout, htips, hnode⟩ := exists_layout hparse hstrict
  have hnone := cursor_notMem_plain (a := a) h hnested hstrict hroot
  refine ⟨a, events, doc, session, hassign, hlayout, fun n hcursor hnot => ?_, fun hall => ?_,
    fun depth name source nested session session' hsession hrun => ?_⟩
  · obtain ⟨offset, -, hn⟩ := Option.bind_eq_some_iff.mp hcursor
    obtain ⟨hreached, hkind, hdisplayed⟩ := hnode offset n hn
    obtain ⟨before, after, hplain, hmarked⟩ :=
      shown_marked h hnested hstrict options.cursor hroot (hdisplayed.mpr hnot) hkind
    obtain ⟨own, s, halone, hown⟩ := exists_printAlone (a := a) h hstrict hreached
    rw [hplain, ← hown] at hnone
    rw [hcursor, hmarked, ← hown] at htips
    have hfree : .cursor ∉ margin options ++ before ++ own.tips ++ after := by
      simpa [cursor_notMem_margin] using hnone
    have heq : doc.tips = margin options ++ before ++ .cursor :: own.tips ++ .cursor :: after := by
      rw [htips]
      simp [bracketed]
    refine ⟨?_, margin options ++ before, own, after, s, halone, hfree, heq⟩
    rw [heq]
    exact count_eq_two hfree
  · rw [List.count_eq_zero, htips, List.mem_append, not_or]
    refine ⟨cursor_notMem_margin, ?_⟩
    rw [shown_eq_plain h hnested hstrict hroot fun n hcursor => ?_]
    · exact hnone
    · obtain ⟨offset, -, hn⟩ := Option.bind_eq_some_iff.mp hcursor
      obtain ⟨-, hkind, hdisplayed⟩ := hnode offset n hn
      exact ⟨hkind, fun hshows => hdisplayed.mp hshows (hall n hcursor)⟩
  · exact List.count_eq_zero.mpr (unmarked_of_formatWithin hstrict hsession hrun)

end Alone

section Sample

open Pass

attribute [local instance] TextWidth.perCharacter

def cursorSample : Text := "// toy-ignore\n(a) \"x$\x7b /*d*/ y\x7d\" %toy\x7bb\x7d".toList

theorem layoutTree_marks_cursor_cursorSample :
    ∃ t, parse cursorSample = .ok t ∧
      (∃ doc session before after, layoutTree (grammar false) languages { cursor := some 29 } t =
        (.ok doc, session) ∧ doc.tips.count .cursor = 2 ∧
        doc.tips = before ++ .cursor :: [.text .owned "/*d*/".toList, .text .fixed " ".toList,
          .text .owned "y".toList] ++ .cursor :: after) ∧
      ∃ doc session, layoutTree (grammar false) languages { cursor := some 15 } t =
        (.ok doc, session) ∧ doc.tips.count .cursor = 0 := by
  have hfacts : ((parse cursorSample).map fun t =>
      (policy.nodeAt? t 29, policy.nodeAt? t 15, (t.node 1).children,
        (layoutTree (grammar false) languages { cursor := some 29 } t).2.trail,
        (layoutTree (grammar false) languages { cursor := some 15 } t).2.trail)) =
      .ok (some 3, some 0, [0], [.reproduced 1, .comment 0, .comment 1],
        [.reproduced 1, .comment 0, .comment 1]) := by
    decide +kernel
  have hown : ((parse cursorSample).toOption.bind fun t => (assignComments policy t).toOption.bind
      fun r => (printAlone t r.1 3 { cursor := some 29 }).1.toOption.map Doc.tips) =
        some [.text .owned "/*d*/".toList, .text .fixed " ".toList, .text .owned "y".toList] := by
    decide +kernel
  cases hparse : parse cursorSample with
  | error e =>
    rw [hparse] at hfacts
    cases hfacts
  | ok t =>
    rw [hparse] at hfacts
    have hfacts := Except.ok.inj hfacts
    simp only [Prod.mk.injEq] at hfacts
    obtain ⟨hname, hitem, hchildren, htrail, htrail'⟩ := hfacts
    obtain ⟨a, events, doc, session, hassign, hlayout, hmarks, -, -⟩ :=
      @layoutTree_marks_cursor cursorSample t { cursor := some 29 } _ hparse rfl
    obtain ⟨a', events', doc', session', -, hlayout', -, hnone, -⟩ :=
      @layoutTree_marks_cursor cursorSample t { cursor := some 15 } _ hparse rfl
    rw [hlayout] at htrail
    rw [hlayout'] at htrail'
    have hshown : ¬ Buried t session 3 := by
      rintro ⟨k, hk, hbelow⟩
      rw [htrail] at hk
      obtain rfl : k = 1 := by simpa using hk
      exact absurd ((parsed_of_parse hparse).wellNested.below_lt hbelow) (by decide)
    have hburied : Buried t session' 0 := by
      refine ⟨1, ?_, Tree.below_of_child ?_⟩
      · rw [htrail']
        exact List.mem_cons_self
      · rw [hchildren]
        exact List.mem_singleton_self 0
    obtain ⟨hcount, before, own, after, s, halone, -, heq⟩ := hmarks 3 hname hshown
    simp only [hparse, hassign, halone, Except.toOption, Option.bind_some, Option.map_some,
      Option.some.injEq] at hown
    rw [hown] at heq
    refine ⟨t, rfl, ⟨doc, session, before, after, hlayout, hcount, heq⟩, doc', session', hlayout',
      hnone fun n hn => ?_⟩
    obtain rfl : 0 = n := Option.some.inj (hitem.symm.trans hn)
    exact hburied

end Sample

end SourceLayout.Toy
