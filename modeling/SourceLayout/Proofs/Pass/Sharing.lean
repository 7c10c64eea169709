import SourceLayout.Proofs.Comment.Assignment
import SourceLayout.Proofs.Pass.Realization
import SourceLayout.Proofs.Syntax.Provenance

/-! # Shared nodes

A node with several parents is asked for several times. In a tree whose nodes refer only to earlier
ones it comes to the same each time, whether its document is handed out again or made afresh. So a
pass that remembers documents and one that does not end alike, nested passes included.
-/

namespace SourceLayout

namespace Cursor

variable {t : Tree} {n : NodeId} {place : Cursor}

theorem level_atNode (htree : place.tree = t) (hvalue : place.value = .node n) :
    place.Level (.atNode t n) := by
  have hnode : ∀ c : Cursor, c.value = .node n → c.node = n := by
    intro c hc
    unfold Cursor.value at hc
    simp [Cursor.node, hc, Value.node?]
  exact ⟨htree, hvalue, (hnode place hvalue).trans (hnode (.atNode t n) rfl).symm⟩

/-- A cursor at a value in the fields of a node. -/
structure Within (t : Tree) (n : NodeId) (place : Cursor) : Prop where
  tree : place.tree = t
  child : ∀ m, place.value = .node m → m ∈ (t.node n).children

theorem enter_eq_push (place : Cursor) (name : String) :
    ∃ key value, place.enter name = place.push key value ∧
      (value = .null ∨ ∃ n, place.value = .node n ∧ (place.tree.node n).field? name = some value) := by
  unfold enter
  split
  · rename_i value hvalue
    obtain ⟨n, hn, hfield⟩ := Option.bind_eq_some_iff.mp hvalue
    refine ⟨_, value, rfl, .inr ⟨n, ?_, hfield⟩⟩
    cases hplace : place.value <;> simp_all [Value.node?]
  · exact ⟨_, .null, rfl, .inl rfl⟩

theorem allows_within (htree : place.tree = t) (hvalue : place.value = .node n) :
    place.Allows (Within t n) := by
  have hfield : ∀ name m, m ∈ (place.enter name).value.nodes → m ∈ (t.node n).children := by
    intro name m hm
    obtain ⟨key, value, heq, hnull | ⟨n', hn', hfield⟩⟩ := place.enter_eq_push name
    · rw [heq] at hm
      subst hnull
      cases hm
    · rw [hvalue] at hn'
      cases hn'
      rw [heq] at hm
      rw [htree] at hfield
      exact Node.mem_children_of_field hfield hm
  have htree' : ∀ name, (place.enter name).tree = t := by
    intro name
    obtain ⟨key, value, heq, -⟩ := place.enter_eq_push name
    rw [heq]
    exact htree
  constructor
  · intro name
    refine ⟨htree' name, fun m hm => hfield name m ?_⟩
    rw [hm]
    exact List.mem_singleton_self m
  · intro name c hc
    obtain ⟨⟨e, i⟩, he, rfl⟩ := List.mem_map.mp hc
    refine ⟨htree' name, fun m hm => hfield name m ?_⟩
    have hmem : e ∈ (place.enter name).value.elements := List.fst_mem_of_mem_zipIdx he
    change e = .node m at hm
    exact Value.mem_nodes_of_element hmem (by rw [hm]; exact List.mem_singleton_self m)

theorem allows_null {items : List Value} (hvalue : place.value = .list items) :
    place.Allows fun c => c.value = .null := by
  have hnull : ∀ name, (place.enter name).value = .null := by
    intro name
    obtain ⟨key, value, heq, hnull | ⟨n, hn, -⟩⟩ := place.enter_eq_push name
    · rw [heq, hnull]
      rfl
    · rw [hvalue] at hn
      cases hn
  constructor
  · exact hnull
  · intro name c hc
    rw [Cursor.elements, hnull] at hc
    cases hc

end Cursor

namespace Pass

variable {known : Doc → Prop} {s : PassState} {nested : Text → Text → Options → SessionM Doc}
  {plain : Text → Text → Options → Except Failure Doc} {job : Job} {place place' : Cursor} {n : NodeId}
  (hg : job.grammar.Mirrors)
  (hnested : ∀ name source options, Delivers (nested name source options) (plain name source options))

theorem realizes_shifted {means : NodeId → Account Doc} (hs : Sound means known s)
    (options : Options) {doc bare : Doc} (hdoc : Resembles known s.session doc bare) :
    Realizes means known s (shifted options doc) (pure (Meaning.shifted options bare))
      fun same => same := by
  unfold shifted Meaning.shifted
  split
  · have hhas := Issued.has hs.made.issued hdoc.1
    apply realizes_ofDoc hs
    · refine (Build.makes_line hs.clean .hard).bind fun line s₁ hgrows₁ hs₁ hline hlooks => ?_
      refine (Build.makes_append hs₁ hline (hgrows₁.has hhas)).bind
        fun joined s₂ _ hs₂ hjoined hlooks' => ?_
      rw [hlooks, hgrows₁.bare_eq hhas, ← Session.flags, hdoc.2] at hlooks'
      rw [← hlooks']
      exact Build.makes_shiftRight hs₂ _ _ hjoined
    · refine (Build.issues_line .hard).bind fun known₁ line hknown hline => ?_
      refine (Build.issues_append hline (hknown doc hdoc.1)).bind fun known₂ joined _ hjoined => ?_
      exact Build.issues_shiftRight _ _ hjoined
  · exact .ofPure hs hdoc

theorem run_checkComments :
    (checkComments job).run.run s = (Meaning.checked job fun c => s.printed.contains c, s) := by
  have hget : (get : PassM PassState).run.run s = (.ok s, s) := rfl
  rw [checkComments, run_bind_eq, hget, Meaning.checked]
  dsimp only
  cases job.scene.tree.commentIds.find? fun c => !s.printed.contains c with
  | some c => rfl
  | none => rfl

theorem Delivers.lift_bind {α : Type} {x : Except Failure α} {f : α → SessionM Doc}
    {g : α → Except Failure Doc} (h : ∀ a, x = .ok a → Delivers (f a) (g a)) :
    Delivers ((liftM x : SessionM α) >>= f) (x >>= g) := by
  cases x with
  | ok a => exact h a rfl
  | error e =>
    exact fun known session hissued hclean =>
      ⟨known, fun _ => id, .refl _, hissued, hclean, .error e⟩

theorem Delivers.notes_bind {language : Option Text} {events : List Event}
    {f : PUnit → SessionM Doc}
    {y : Except Failure Doc} (hevents : ∀ e ∈ events, Assignment.IsQuestion e)
    (h : Delivers (f ()) y) : Delivers (events.forM (noteUnder language) >>= f) y := by
  induction events with
  | nil => exact h
  | cons event events ih =>
    rw [List.forall_mem_cons] at hevents
    intro known session hissued hclean
    have hmarks : Session.marks { session with journal := ⟨language, event⟩ :: session.journal } =
        session.marks := by
      obtain ⟨position, d, isLast, rfl⟩ | ⟨enclosing, rfl⟩ := hevents.1
      · rfl
      · rfl
    have hgrows : session.Grows { session with journal := ⟨language, event⟩ :: session.journal } :=
      ⟨.refl _, fun l _ => by rw [hmarks]⟩
    obtain ⟨known', hknown, hgrows', hissued', hclean', hend⟩ := ih hevents.2 known
      { session with journal := ⟨language, event⟩ :: session.journal } hissued
      (by rw [Session.Clean, hmarks]; exact hclean)
    exact ⟨known', hknown, hgrows.trans hgrows', hissued', hclean', hend⟩

variable [TextWidth]
include hg hnested

theorem realizes_value {way : Recall} {depth : Nat} {means : NodeId → Account Doc}
    {print : NodeId → Account Doc}
    (hprint : ∀ m ∈ (job.scene.tree.node n).children, ∀ known s place, Sound means known s →
      place.tree = job.scene.tree → place.value = .node m →
      Realizes means known s (printBy way nested job (depth + 2) place none) (print m)
        fun same => same)
    (hs : Sound means known s) (hlevel : place.Level place')
    (hplace : place.Within job.scene.tree n) :
    Realizes means known s (printBy way nested job (depth + 2) place none)
      (Meaning.value plain job place' print) fun same => same := by
  unfold Meaning.value
  rw [← hlevel.value_eq]
  cases hvalue : place.value with
  | null =>
    rw [printBy, hvalue]
    exact realizes_build hs .nil nofun
  | str content =>
    rw [printBy, hvalue]
    exact realizes_build hs (.text .owned content) nofun
  | list items =>
    rw [printBy, hvalue]
    refine realizes_runRule hg hnested ?_ hs hlevel (Cursor.allows_null hvalue)
    intro known s place place' hs _ hnull
    rw [printBy, hnull]
    exact realizes_build hs .nil nofun
  | node m => exact hprint m (hplace.child m hvalue) known s place hs hplace.tree hvalue

/-- A node comes to the same wherever it is asked for, and whatever is remembered. -/
theorem realizes_printBy (ht : job.scene.tree.RefersBack) (way : Recall) {depth : Nat}
    (hdepth : 3 ≤ depth) (hn : ∀ m ∈ (job.scene.tree.node n).children, n + 3 ≤ depth)
    (hs : Sound (Meaning.ofNode plain job) known s) (htree : place.tree = job.scene.tree)
    (hvalue : place.value = .node n) :
    Realizes (Meaning.ofNode plain job) known s (printBy way nested job depth place none)
      (Meaning.ofNode plain job n) fun same => same := by
  induction depth generalizing known s place n with
  | zero => omega
  | succ depth ih =>
    obtain ⟨depth, rfl⟩ : ∃ d, depth = d + 2 := ⟨depth - 2, by omega⟩
    have hchild : ∀ m ∈ (job.scene.tree.node n).children, m + 3 ≤ depth + 2 := by
      intro m hm
      have hle : n ≤ depth := Nat.le_of_add_le_add_right (hn m hm)
      exact Nat.add_le_add_right (Nat.lt_of_lt_of_le (ht n m hm) hle) 2
    have hnode : ∀ s, Sound (Meaning.ofNode plain job) known s → Realizes (Meaning.ofNode plain job)
        known s (printNode nested job (printBy way nested job (depth + 2)) place n none)
        (Meaning.ofNode plain job n) fun same => same := by
      intro s hs
      rw [Meaning.ofNode]
      refine realizes_printNode hg hnested ?_ hs (Cursor.level_atNode htree hvalue)
        (Cursor.allows_within htree hvalue) n
      intro known s place place' hs hlevel hplace
      refine realizes_value hg hnested
        (fun m hm known s place hs htree hvalue => ?_) hs hlevel hplace
      rw [if_pos (ht n m hm)]
      exact ih (Nat.le_trans (Nat.le_add_left 3 m) (hchild m hm))
        (fun _ _ => hchild m hm) hs htree hvalue
    rw [printBy, hvalue]
    exact realizes_recalled way hs hnode

theorem realizes_root (ht : job.scene.tree.RefersBack) (way : Recall) {session : Session}
    (hissued : Issued known session.store) (hclean : session.Clean) :
    Realizes (Meaning.ofNode plain job) known { session }
      (printBy way nested job (depthLimit job.scene.tree) (.atRoot job.scene.tree) none >>=
        shifted job.scene.options) (Meaning.ofRoot plain job) fun same => same := by
  have hs : Sound (Meaning.ofNode plain job) known { session } :=
    ⟨⟨hissued, by simp⟩, hclean, by simp⟩
  have hdepth : 3 ≤ depthLimit job.scene.tree := by
    unfold depthLimit
    omega
  have hroot : ∀ m ∈ (job.scene.tree.node job.scene.tree.root).children,
      job.scene.tree.root + 3 ≤ depthLimit job.scene.tree :=
    fun m hm => add_three_le_depthLimit (Tree.lt_size_of_mem_children hm)
  have hprint : Realizes (Meaning.ofNode plain job) known { session }
      (printBy way nested job (depthLimit job.scene.tree) (.atRoot job.scene.tree) none)
      (Meaning.ofNode plain job job.scene.tree.root) fun same => same :=
    realizes_printBy hg hnested ht way hdepth hroot hs rfl rfl
  exact hprint.bind fun known' s' doc bare _ _ hs' hdoc => realizes_shifted hs' _ hdoc

omit hg hnested in
theorem run_perform_printTreeBy (way : Recall) (session : Session) :
    (perform (printTreeBy way nested job)).run.run session =
      match (printBy way nested job (depthLimit job.scene.tree) (.atRoot job.scene.tree) none >>=
          shifted job.scene.options).run.run { session } with
      | (.error e, s) => (.error e, s.session)
      | (.ok doc, s) => ((Meaning.checked job fun c => s.printed.contains c).map fun _ => doc,
          { s.session with store := ((spreadBreaks doc).run s.session.store).2 }) := by
  have htree : printTreeBy way nested job =
      printBy way nested job (depthLimit job.scene.tree) (.atRoot job.scene.tree) none >>=
        shifted job.scene.options >>= fun doc => PassM.ofDoc (spreadBreaks doc) >>= fun _ =>
          checkComments job >>= fun _ => pure doc := by
    rw [bind_assoc]
    rfl
  have hperform : ∀ work : PassM Doc, (perform work).run.run session =
      ((work.run.run { session }).1, (work.run.run { session }).2.session) := fun _ => rfl
  rw [hperform, htree, run_bind_eq]
  rcases (printBy way nested job (depthLimit job.scene.tree) (.atRoot job.scene.tree) none >>=
    shifted job.scene.options).run.run { session } with ⟨e | doc, s⟩
  · rfl
  · have hspread : (PassM.ofDoc (spreadBreaks doc)).run.run s = (.ok (), { s with session :=
        { s.session with store := ((spreadBreaks doc).run s.session.store).2 } }) := rfl
    dsimp only
    rw [run_bind_eq, hspread]
    dsimp only
    rw [run_bind_eq, run_checkComments]
    cases Meaning.checked job fun c => s.printed.contains c with
    | error e => rfl
    | ok u => rfl

/-- A pass delivers what its tree comes to. The groups whose breaks are spread are all new. -/
theorem delivers_printTreeBy (ht : job.scene.tree.RefersBack) (way : Recall) :
    Delivers (perform (printTreeBy way nested job)) (Meaning.ofTree plain job) := by
  intro known session hissued hclean
  have hroot₀ := realizes_root hg hnested ht way (Issued.labels session.store) hclean
  have hroot := realizes_root hg hnested ht way hissued hclean
  rw [run_perform_printTreeBy, Meaning.ofTree]
  obtain ⟨known₀, hlabels, -, hs₀, -, hend₀⟩ := hroot₀
  obtain ⟨known₁, hknown, hgrows, hs₁, hprinted, hend⟩ := hroot
  generalize (printBy way nested job (depthLimit job.scene.tree) (.atRoot job.scene.tree) none >>=
    shifted job.scene.options).run.run { session } = r at *
  obtain ⟨result, s⟩ := r
  generalize (Meaning.ofRoot plain job).outcome = outcome at hend hend₀ ⊢
  cases hend with
  | error e => exact ⟨known₁, hknown, hgrows, hs₁.made.issued, hs₁.clean, .error e⟩
  | @ok doc bare hdoc =>
    cases hend₀ with
    | ok hdoc₀ =>
      have hgraph := hs₁.made.issued.isGraph hdoc.1
      have hnext := next_spreadBreaks hgraph s.session.store
      obtain ⟨hgrows', hclean'⟩ := grows_spreadBreaks hgraph hs₁.clean
        (Issued.has hs₁.made.issued hdoc.1) hgrows.store fun l body hgroup =>
          Issued.next_le_label hs₀.made.issued (fun l hl => hlabels _ ⟨l, hl, rfl⟩) hdoc₀.1 hgroup rfl
      have hsame : (fun c => s.printed.contains c) = fun c => (Meaning.ofRoot plain job).shown.contains c := by
        funext c
        rw [Bool.eq_iff_iff, Std.TreeSet.contains_iff_mem, hprinted, List.contains_iff_mem]
        simp
      refine ⟨known₁, hknown, ⟨hgrows', hgrows.marks⟩, hs₁.made.issued.of_next hnext, hclean', ?_⟩
      dsimp only
      rw [hsame]
      cases Meaning.checked job fun c => (Meaning.ofRoot plain job).shown.contains c with
      | error e => exact .error e
      | ok u =>
        refine .ok ⟨hdoc.1, (Doc.bare_spreadBreaks hgraph).trans ?_⟩
        exact congrArg Doc.hardened hdoc.2

omit hg in
theorem delivers_overTreeBy {g : Grammar} (hg : g.Mirrors) (way : Recall) (language : Option Text)
    (options : Options) {tree : Tree} (ht : tree.RefersBack) :
    Delivers (overTreeBy way nested language g options tree)
      (Meaning.ofPass plain language g options tree) := by
  unfold overTreeBy overAssignedBy Meaning.ofPass
  rw [hg.preprocess]
  refine Delivers.lift_bind fun ⟨attachments, events⟩ hassign =>
    Delivers.notes_bind (Assignment.questions_of_assignComments hassign) ?_
  have hjob : (jobFor language g options tree attachments).grammar.Mirrors := hg
  exact delivers_printTreeBy hjob hnested ht way

omit hg hnested in
theorem delivers_formatBy {languages : Languages}
    (h : ∀ l ∈ languages, l.grammar.Mirrors ∧
      ∀ source tree, l.parse source = .ok tree → tree.RefersBack)
    (way : Recall) (depth : Nat) (name source : Text) (options : Options) :
    Delivers (formatBy way languages depth name source options)
      (Meaning.ofText languages depth name source options) := by
  induction depth generalizing name source options with
  | zero =>
    exact fun known session hissued hclean => ⟨known, fun _ => id, .refl _, hissued, hclean, .error _⟩
  | succ depth ih =>
    unfold formatBy Meaning.ofText
    cases hlanguage : languages.get? name with
    | none =>
      exact fun known session hissued hclean => ⟨known, fun _ => id, .refl _, hissued, hclean, .error _⟩
    | some language =>
      obtain ⟨hg, hparse⟩ := h language (List.mem_of_find?_eq_some hlanguage)
      exact Delivers.lift_bind fun tree htree =>
        delivers_overTreeBy ih hg way _ options (hparse source tree htree)

end Pass

section Layout

variable [TextWidth]

variable {g : Grammar} {languages : Languages} {t : Tree} (hg : g.Mirrors)
  (h : ∀ l ∈ languages, l.grammar.Mirrors ∧
    ∀ source tree, l.parse source = .ok tree → tree.RefersBack)
  (ht : t.RefersBack) (options : Options)
include hg h ht

/-- Each way to pass over a tree whose nodes refer only to earlier ones gives what the tree comes
to. -/
theorem concur_overTreeBy (way : Recall) (depth : Nat) (language : Option Text) :
    let run := (Pass.overTreeBy way (Pass.formatBy way languages depth) language g options
      t).run.run {}
    Concur (fun doc bare => doc.bare run.2.flags = bare) run.1
      (Meaning.ofPass (Meaning.ofText languages depth) language g options t) := by
  have hclean : ({} : Session).Clean := by
    intro l hl
    simp [Store.isBroken, Session.marks] at hl
  have hdelivers := Pass.delivers_overTreeBy (Pass.delivers_formatBy h way depth) hg way language
    options ht
  obtain ⟨known, -, -, -, -, hend⟩ := hdelivers (fun _ => False) {} (Issued.none _) hclean
  exact hend.imp fun doc bare hdoc => hdoc.2

theorem concur_ofPass (way : Recall) :
    Concur (fun doc bare => doc.bare (layoutBy way g languages options t).2.flags = bare)
      (layoutBy way g languages options t).1
      (Meaning.ofPass (Meaning.ofText languages (Pass.nestingLimit t.source.text)) none g options t) :=
  concur_overTreeBy hg h ht options way _ none

/-- All ways to lay out a tree whose nodes refer only to earlier ones end alike: with the same
failure, or with documents of the same outline. -/
theorem concur_layoutBy (way way' : Recall) :
    Concur (fun doc doc' => doc.outline (layoutBy way g languages options t).2.store =
        doc'.outline (layoutBy way' g languages options t).2.store)
      (layoutBy way g languages options t).1 (layoutBy way' g languages options t).1 :=
  (concur_ofPass hg h ht options way).zip (concur_ofPass hg h ht options way')
    fun _ _ _ hdoc hdoc' => Doc.outline_eq_of_bare_eq (hdoc.trans hdoc'.symm)

end Layout

end SourceLayout
