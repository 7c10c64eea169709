import SourceLayout.Proofs.Outcomes
import SourceLayout.Proofs.Pass.Documents
import SourceLayout.Toy.Grammar

/-! # The breaks of a pass

Spreading the breaks is the last thing that a pass does with its document, so no group of it that
holds a forced break is left flat. The rules of the toy language are honest.
-/

namespace SourceLayout

section Layout

variable {g : Grammar} {languages : Languages} {options : Options} {tree : Tree} {doc : Doc}
  {session : Session}

namespace Pass

theorem exists_spread_of_printTree [TextWidth] {nested : Text → Text → Options → SessionM Doc}
    {job : Job} {s s' : PassState} (h : (printTree nested job).run.run s = (.ok doc, s')) :
    ∃ store, s'.session.store = ((spreadBreaks doc).run store).2 := by
  have hcheck : Keeps id (checkComments job) := by
    refine Keeps.ofGet.bind fun s => ?_
    dsimp only
    split
    · exact .ofThrow _
    · exact .ofPure _
  rw [printTree_eq] at h
  obtain ⟨printed, s₁, -, h⟩ := run_bind_eq_ok_iff.mp h
  obtain ⟨shifted, s₂, -, h⟩ := run_bind_eq_ok_iff.mp h
  obtain ⟨_, s₃, hspread, h⟩ := run_bind_eq_ok_iff.mp h
  obtain ⟨_, s₄, hrun, h⟩ := run_bind_eq_ok_iff.mp h
  obtain ⟨hdoc, hs⟩ := Prod.mk.inj h
  obtain rfl := Except.ok.inj hdoc
  have hsame : s₄ = s₃ := (congrArg Prod.snd hrun).symm.trans (hcheck s₃)
  have hstore : ((spreadBreaks shifted).run s₂.session.store).2 = s₃.session.store :=
    congrArg (fun r => r.2.session.store) hspread
  exact ⟨s₂.session.store, by rw [← hs, hsame, hstore]⟩

theorem exists_spread_of_overTree [TextWidth] {nested : Text → Text → Options → SessionM Doc}
    {language : Option Text} {session' : Session}
    (h : (overTree nested language g options tree).run.run session = (.ok doc, session')) :
    ∃ store, session'.store = ((spreadBreaks doc).run store).2 := by
  have hassigned : ∀ tree session, (overAssigned nested language g options tree).run.run session =
      (.ok doc, session') → ∃ store, session'.store = ((spreadBreaks doc).run store).2 := by
    intro tree session h
    obtain ⟨⟨attachments, events⟩, s₁, -, h⟩ := run_bind_eq_ok_iff.mp h
    obtain ⟨_, s₂, -, h⟩ := run_bind_eq_ok_iff.mp h
    rcases hprint : (printTree nested
      { grammar := g, scene := { tree, options, attachments }
        marked := options.cursor.bind (g.nodeAt? tree), language }).run.run { session := s₂ } with
      ⟨result, s⟩
    change (((printTree nested _).run.run { session := s₂ }).1,
      ((printTree nested _).run.run { session := s₂ }).2.session) = _ at h
    rw [hprint] at h
    obtain ⟨rfl, rfl⟩ := Prod.mk.inj h
    exact exists_spread_of_printTree hprint
  rw [overTree_eq] at h
  split at h
  · obtain ⟨_, s₁, -, h⟩ := run_bind_eq_ok_iff.mp h
    exact hassigned _ s₁ h
  · exact hassigned tree session h

end Pass

end Layout

namespace Toy

open Rule

variable {docs : List Doc}

theorem uses_printList (place : Cursor) (name : String) : UsesDocs docs (printList place name) :=
  uses_mapM fun _ _ => uses_request nofun

theorem uses_programRule (skipDangling : Bool) (scene : Scene) (place : Cursor) :
    UsesDoc docs (programRule skipDangling scene place) := by
  have hjoin : ∀ body dangling, UsesDoc (dangling :: (body ++ docs)) (do
      let joined ← Rule.build (.intersperse body (← Rule.line .hard))
      Rule.build (.append joined dangling)) := by
    intro body dangling
    refine (uses_line _).bind fun line => (uses_build ?_).bind fun joined => uses_build ?_
    · simp only [Construction.operands, List.mem_cons, List.mem_append]
      exact fun y hy => hy.imp id fun hy => .inr (.inl hy)
    · simp [Construction.operands]
  refine (uses_printList _ _).bind_list fun body => ?_
  dsimp only
  split
  · exact (uses_build (by simp [Construction.operands])).bind fun dangling => hjoin body dangling
  · exact (uses_danglingComments _ _ _ _).bind fun dangling => hjoin body dangling

theorem uses_listRule (scene : Scene) (place : Cursor) : UsesDoc docs (listRule scene place) := by
  refine (uses_printList _ _).bind_list fun items => ?_
  split
  · refine (uses_danglingComments _ _ _ _).bind fun dangling =>
      (uses_fixed _).bind fun opening => ?_
    exact (uses_fixed _).bind fun closing => uses_concat (by simp)
  · refine (uses_line _).bind fun line => (uses_build ?_).bind fun joined => ?_
    · simp only [Construction.operands, List.mem_cons, List.mem_append]
      exact fun y hy => hy.imp id .inl
    refine (uses_line _).bind fun soft => (uses_concat (by simp)).bind fun inner => ?_
    refine (uses_build (by simp [Construction.operands])).bind fun indented => ?_
    refine (uses_fixed _).bind fun opening => (uses_line _).bind fun soft => ?_
    refine (uses_fixed _).bind fun closing => (uses_concat (by simp)).bind fun whole => ?_
    exact uses_build (by simp [Construction.operands])

theorem uses_weave {doc : Doc} {quasis expressions : List Doc} (hdoc : doc ∈ docs)
    (hquasis : ∀ y ∈ quasis, y ∈ docs) (hexpressions : ∀ y ∈ expressions, y ∈ docs) :
    UsesDoc docs (weave doc quasis expressions) := by
  induction quasis generalizing docs doc expressions with
  | nil => exact uses_pure hdoc
  | cons quasi quasis ih =>
    rw [List.forall_mem_cons] at hquasis
    have happend : ∀ y ∈ (Construction.append doc quasi).operands, y ∈ docs := by
      simp [Construction.operands, hdoc, hquasis.1]
    cases expressions with
    | nil =>
      refine (uses_build happend).bind fun doc => ih (by simp) (fun y hy => ?_) (by simp)
      exact List.mem_cons_of_mem _ (hquasis.2 y hy)
    | cons expression expressions =>
      rw [List.forall_mem_cons] at hexpressions
      refine (uses_build happend).bind fun doc => (uses_fixed _).bind fun opening => ?_
      refine (uses_fixed _).bind fun closing => (uses_concat (by simp [hexpressions.1])).bind
        fun hole => ?_
      refine (uses_build (by simp [Construction.operands])).bind fun doc => ih (by simp) ?_ ?_
      · exact fun y hy => by simp [hquasis.2 y hy]
      · exact fun y hy => by simp [hexpressions.2 y hy]

theorem uses_templateRule (place : Cursor) : UsesDoc docs (templateRule place) := by
  refine (uses_printList _ _).bind_list fun quasis => (uses_printList _ _).bind_list
    fun expressions => (uses_fixed _).bind fun opening => ?_
  refine (uses_weave (by simp) ?_ ?_).bind fun doc => (uses_fixed _).bind fun closing => ?_
  · exact fun y hy => by simp [hy]
  · exact fun y hy => by simp [hy]
  · exact uses_build (by simp [Construction.operands])

theorem honest_grammar (skipDangling : Bool) : (grammar skipDangling).Honest where
  rule scene place flags := by
    refine (?_ : UsesDoc [] (rule skipDangling scene place flags)) _ nofun
    unfold rule
    dsimp only
    split
    · exact uses_programRule _ _ _
    · exact uses_request nofun
    · exact uses_listRule _ _
    · exact uses_templateRule _
    · exact uses_request nofun
    · exact uses_build nofun
    · exact uses_request nofun
  embed scene place := by
    refine (?_ : Uses (fun known doc => ∀ x ∈ doc, known x) [] (embed scene place)) _ nofun
    unfold embed
    dsimp only
    split
    · exact fun _ _ _ hx => (nomatch hx)
    · refine Uses.bind ?_ fun code => Uses.bind (uses_build nofun) fun opening => ?_
      · exact Uses.bind (uses_request nofun) fun doc => uses_build (by simp [Construction.operands])
      · refine (uses_fixed _).bind fun closing =>
          (uses_concat (by simp)).bind fun doc known hdocs => ?_
        rintro x ⟨⟩
        exact hdocs _ (.head _)
  commentDoc tree c := ⟨nofun, fun _ _ doc hdoc => hdoc doc doc.mem_parts_self⟩

theorem honest_languages : ∀ l ∈ languages, l.grammar.Honest := by
  simp [languages, Languages.register, language, brokenLanguage, honest_grammar]

end Toy

/-- Spreading breaks a group of a graph if and only if the group was broken or holds a forced
break, wherever they are and however often they occur, and leaves other groups as they are. The
plain recursion breaks the same groups. In the document of a pass, which is a graph if the grammars
are honest, every group that holds a forced break is broken. -/
theorem isBroken_iff_holds_forced [TextWidth] :
    (∀ (d : Doc) (s : Store), d.IsGraph →
      (∀ l body, .group l body ∈ d.parts →
        (((spreadBreaks d).run s).2.isBroken l = true ↔ s.isBroken l = true ∨ s.Forced body)) ∧
      (∀ l, (∀ body, .group l body ∉ d.parts) →
        ((spreadBreaks d).run s).2.isBroken l = s.isBroken l) ∧
      ∀ l, ((spreadBreaks d).run s).2.isBroken l = ((spreadPlainly d).run s).2.isBroken l) ∧
    ∀ (g : Grammar) (languages : Languages) (options : Options) (tree : Tree) (doc : Doc)
      (session : Session), layoutTree g languages options tree = (.ok doc, session) →
      (g.Honest → (∀ l ∈ languages, l.grammar.Honest) → doc.IsGraph) ∧
      (doc.IsGraph → ∀ l body, .group l body ∈ doc.parts → session.store.Forced body →
        session.store.isBroken l = true) := by
  constructor
  · intro d s hd
    refine ⟨fun l body hbody => isBroken_spreadBreaks_group hd hbody s, fun l hl => ?_, fun l => ?_⟩
    · rw [Bool.eq_iff_iff, isBroken_spreadBreaks hd]
      exact or_iff_left fun ⟨body, hbody, _⟩ => hl body hbody
    · rw [Bool.eq_iff_iff, isBroken_spreadBreaks hd, isBroken_spreadPlainly hd]
  · intro g languages options tree doc session h
    refine ⟨fun hg hlanguages => isGraph_of_layoutTree hg hlanguages h, fun hd l body hbody => ?_⟩
    obtain ⟨store, hstore⟩ := Pass.exists_spread_of_overTree h
    rw [hstore]
    exact isBroken_of_forced_spreadBreaks hd hbody

def sharedSample : Doc :=
  let shared := .group 1 (.suffix 2 (.line 3 .hard))
  .append 0 (.group 4 (.fill 5 [.text 6 .fixed ['a'], shared])) (.append 7 shared (.group 8 (.nil 9)))

theorem isGraph_sharedSample : sharedSample.IsGraph := by
  apply Doc.isGraph_of_find
  intro x hx
  simp only [sharedSample, Doc.parts, Doc.partsAll, List.mem_cons, List.mem_append,
    List.not_mem_nil, or_false] at hx
  rcases hx with rfl | (rfl | rfl | rfl | rfl | rfl | rfl) | rfl | (rfl | rfl | rfl) | rfl | rfl <;> rfl

def brokenList : Text := "(a // b\n c)".toList

section Sample

attribute [local instance] TextWidth.perCharacter

theorem isBroken_iff_holds_forced_sharedSample :
    sharedSample.IsGraph ∧
    (((spreadBreaks sharedSample).run {}).2.isBroken 1 = true ∧
      ((spreadBreaks sharedSample).run {}).2.isBroken 4 = true ∧
      ((spreadBreaks sharedSample).run {}).2.isBroken 8 = false) ∧
    ∃ t doc session, Toy.parse brokenList = .ok t ∧
      layoutTree (Toy.grammar false) Toy.languages {} t = (.ok doc, session) ∧
      doc.parts.any session.store.breaks = true ∧ doc.IsGraph ∧
      ∀ l body, .group l body ∈ doc.parts → session.store.Forced body →
        session.store.isBroken l = true := by
  obtain ⟨hspread, hlayout⟩ := isBroken_iff_holds_forced
  have hd := isGraph_sharedSample
  obtain ⟨hgroups, -, -⟩ := hspread sharedSample {} hd
  refine ⟨hd, ⟨?_, ?_, ?_⟩, ?_⟩
  · refine (hgroups 1 (.suffix 2 (.line 3 .hard)) ?_).mpr (.inr ⟨.line 3 .hard, ?_, rfl⟩)
    · simp [sharedSample, Doc.parts, Doc.partsAll]
    · simp [Doc.parts]
  · refine (hgroups 4 (.fill 5 [.text 6 .fixed ['a'], .group 1 (.suffix 2 (.line 3 .hard))]) ?_).mpr
      (.inr ⟨.line 3 .hard, ?_, rfl⟩)
    · simp [sharedSample, Doc.parts]
    · simp [Doc.parts, Doc.partsAll]
  · have hforced : ¬ Store.Forced {} (.nil 9) := by simp [Store.Forced, Store.forces, Doc.parts]
    have hbroken := (hgroups 8 (.nil 9) (by simp [sharedSample, Doc.parts])).mp
    exact Bool.eq_false_iff.mpr fun h => (hbroken h).elim (by decide) hforced
  · have hbreaks : ((Toy.parse brokenList).map fun t =>
        let run := layoutTree (Toy.grammar false) Toy.languages {} t
        run.1.toOption.any fun doc => doc.parts.any run.2.store.breaks) = .ok true := by
      decide +kernel
    cases hparse : Toy.parse brokenList with
    | error e =>
      rw [hparse] at hbreaks
      cases hbreaks
    | ok t =>
      rw [hparse] at hbreaks
      have hbreaks := Except.ok.inj hbreaks
      dsimp only at hbreaks
      rcases hrun : layoutTree (Toy.grammar false) Toy.languages {} t with ⟨_ | doc, session⟩
      · rw [hrun] at hbreaks
        cases hbreaks
      · rw [hrun] at hbreaks
        obtain ⟨hgraph, hbroken⟩ := hlayout _ _ _ _ _ _ hrun
        have hdoc := hgraph (Toy.honest_grammar false) Toy.honest_languages
        exact ⟨t, doc, session, rfl, hrun, hbreaks, hdoc, hbroken hdoc⟩

end Sample

end SourceLayout
