import SourceLayout.Proofs.Pass.Sharing
import SourceLayout.Proofs.Pass.Trail

/-! # What a pass hands out

A pass that tells of every document it hands out for a node tells of one document for each node:
the one that it remembers. What nested passes tell stands under the names of their languages.
-/

namespace SourceLayout

theorem Cursor.Level.refl (c : Cursor) : c.Level c := ⟨rfl, rfl, rfl⟩

theorem Program.Alike.moves {Q α β σ ε : Type} {like : (Doc → Doc → Prop) → Q → Q → Prop}
    {P : (Doc → Doc → Prop) → α → β → Prop} {R : σ → σ → Prop} (refl : ∀ s, R s s)
    (trans : ∀ s s' s'', R s s' → R s' s'' → R s s'') {answer : Q → ExceptT ε (StateM σ) Doc}
    (hanswer : ∀ q q' same, like same q q' → Moves R (answer q)) {x : Program Q α} {y : Program Q β}
    (h : Program.Alike like P x y fun _ _ => True) : Moves R (x.run answer) := by
  induction x generalizing y with
  | done a => exact .ofPure refl a
  | ask q next ih =>
    cases y with
    | done b => exact h.elim
    | ask q' next' =>
      refine (hanswer q q' _ h.1).bind trans fun doc => ?_
      exact ih doc (h.2 _ (fun _ _ => id) doc doc trivial)

def Session.own (s : Session) : List Entry := s.journal.filter fun e => e.language.isNone

namespace Pass

section Steady

variable [TextWidth] {nested : Text → Text → Options → SessionM Doc} {job : Job}
  {R : PassState → PassState → Prop} (h : Steady nested job R)
include h

theorem Steady.recalled (way : Recall) (n : NodeId) : Moves R (recalled way job n) := by
  refine (Moves.ofGet h.refl).bind h.trans fun s => ?_
  dsimp only
  split
  · exact .ofPure h.refl _
  · refine Moves.bind h.trans ?_ fun _ => .ofPure h.refl _
    cases s.cache[n]? with
    | none => exact .ofPure h.refl _
    | some doc => exact h.printed n doc
  · exact .ofPure h.refl _

theorem Steady.printBy (way : Recall) (depth : Nat) (place : Cursor) (flags : Option Flags) :
    Moves R (printBy way nested job depth place flags) := by
  induction depth generalizing place flags with
  | zero => exact .ofThrow h.refl _
  | succ depth ih =>
    unfold Pass.printBy
    split
    · exact h.ofDoc _
    · exact h.ofDoc _
    · exact h.runRule ih place flags
    · split
      · exact h.printNode ih place _ _
      · refine (h.recalled way _).bind h.trans fun known => ?_
        split
        · exact .ofPure h.refl _
        · exact (h.printNode ih place _ _).bind h.trans fun _ =>
            (h.remember _ _).bind h.trans fun _ => .ofPure h.refl _

end Steady

theorem moves_finish {job : Job} {R : PassState → PassState → Prop} (refl : ∀ s, R s s)
    (trans : ∀ s s' s'', R s s' → R s' s'' → R s s'')
    (hdoc : ∀ {α : Type} (x : DocM α), Moves R (PassM.ofDoc x)) (doc : Doc) :
    Moves R (finish job doc) := by
  have hshifted : Moves R (shifted job.scene.options doc) := by
    unfold shifted
    split
    · exact hdoc _
    · exact .ofPure refl _
  have hcheck : Moves R (checkComments job) := by
    intro s
    rw [run_checkComments]
    exact refl s
  exact hshifted.bind trans fun doc => (hdoc _).bind trans fun _ => hcheck.bind trans fun _ =>
    .ofPure refl _

section Own

variable {nested : Text → Text → Options → SessionM Doc} {job : Job} {language : Text}
  (hnested : ∀ name source options, Keeps Session.own (nested name source options))

theorem keeps_own_note (hjob : job.language = some language) (event : Event) :
    Keeps (fun s : PassState => s.session.own) (PassM.note job event) := by
  intro s
  change List.filter _ (⟨job.language, event⟩ :: s.session.journal) = _
  rw [hjob]
  rfl

theorem keeps_own_noteUnder (event : Event) : Keeps Session.own (noteUnder (some language) event) :=
  fun _ => rfl

variable [TextWidth]

include hnested in
theorem steady_own (hjob : job.language = some language) :
    Steady nested job fun s s' => s'.session.own = s.session.own where
  refl _ := rfl
  trans _ _ _ h h' := h'.trans h
  ofDoc _ _ := rfl
  nested name source options s := hnested name source options s.session
  comment _ s := keeps_own_note hjob _ s
  reproduce _ s := keeps_own_note hjob _ s
  rule _ _ _ := keeps_own_note hjob _
  embedding _ := keeps_own_note hjob _
  printed _ _ := keeps_own_note hjob _
  remember _ _ _ := rfl

include hnested in
theorem keeps_own_overTreeBy (way : Recall) (g : Grammar) (options : Options) (tree : Tree) :
    Keeps Session.own (overTreeBy way nested (some language) g options tree) := by
  have hassigned : ∀ tree, Keeps Session.own
      (overAssignedBy way nested (some language) g options tree) := by
    intro tree
    refine (keeps_lift _).bind fun ⟨attachments, events⟩ =>
      (Keeps.forM keeps_own_noteUnder).bind fun _ session => ?_
    have hsteady : Steady nested (jobFor (some language) g options tree attachments)
        fun s s' => s'.session.own = s.session.own := steady_own hnested rfl
    have htree : Moves (fun s s' : PassState => s'.session.own = s.session.own)
        (printTreeBy way nested (jobFor (some language) g options tree attachments)) :=
      (hsteady.printBy way _ _ _).bind hsteady.trans
        (moves_finish hsteady.refl hsteady.trans fun x => hsteady.ofDoc x)
    exact htree { session }
  unfold overTreeBy
  split
  · exact (keeps_own_noteUnder _).bind fun _ => hassigned _
  · exact hassigned _

theorem keeps_own_formatBy (way : Recall) (languages : Languages) (depth : Nat) (name source : Text)
    (options : Options) :
    Keeps Session.own (formatBy way languages depth name source options) := by
  induction depth generalizing name source options with
  | zero => exact .ofThrow _
  | succ depth ih =>
    unfold formatBy
    split
    · exact .ofThrow _
    · exact (keeps_lift _).bind fun tree => keeps_own_overTreeBy ih way _ _ _

end Own

end Pass

/-- What the outermost pass told to be the document of a node is what it remembers for the node. -/
def PassState.Recorded (s : PassState) : Prop :=
  ∀ n doc, ⟨none, .printed n doc⟩ ∈ s.session.journal → s.cache[n]? = some doc

/-- From one state of a pass to a later one all that is told of is remembered, and nothing is
remembered for nodes from a number on. -/
structure PassState.Recording (bound : NodeId) (s s' : PassState) : Prop where
  recorded : s.Recorded → s'.Recorded
  cache : ∀ n, bound ≤ n → s'.cache[n]? = s.cache[n]?

namespace PassState.Recording

variable {bound bound' : NodeId} {s s' s'' : PassState}

theorem refl (s : PassState) : Recording bound s s := ⟨id, fun _ _ => rfl⟩

theorem trans (h : Recording bound s s') (h' : Recording bound s' s'') : Recording bound s s'' :=
  ⟨fun hs => h'.recorded (h.recorded hs), fun n hn => (h'.cache n hn).trans (h.cache n hn)⟩

theorem mono (h : Recording bound s s') (hle : bound ≤ bound') : Recording bound' s s' :=
  ⟨h.recorded, fun n hn => h.cache n (Nat.le_trans hle hn)⟩

theorem of_cache_eq (hcache : s'.cache = s.cache)
    (hjournal : ∀ n doc, ⟨none, .printed n doc⟩ ∈ s'.session.journal →
      ⟨none, .printed n doc⟩ ∈ s.session.journal) : Recording bound s s' where
  recorded hs n doc hn := by
    rw [hcache]
    exact hs n doc (hjournal n doc hn)
  cache n _ := by rw [hcache]

end PassState.Recording

namespace Pass

section Recording

open PassState (Recording)

variable {nested : Text → Text → Options → SessionM Doc} {job : Job} {bound n : NodeId}
  {print : Cursor → Option Flags → PassM Doc} {ok : Cursor → Prop} {place : Cursor}

theorem recording_ofDoc {α : Type} (x : DocM α) : Moves (Recording bound) (PassM.ofDoc x) :=
  fun _ => .of_cache_eq rfl fun _ _ => id

theorem recording_note {event : Event} (h : ∀ n doc, event ≠ .printed n doc) :
    Moves (Recording bound) (PassM.note job event) := by
  refine fun s => .of_cache_eq rfl fun n doc hn => ?_
  refine (List.mem_cons.mp hn).resolve_left fun heq => h n doc ?_
  exact (congrArg Entry.event heq).symm

theorem recording_ofSession {α : Type} {x : SessionM α} (hx : Keeps Session.own x) :
    Moves (Recording bound) (PassM.ofSession x) := by
  refine fun s => .of_cache_eq rfl fun n doc hn => ?_
  have hown : (⟨none, .printed n doc⟩ : Entry) ∈ (x.run.run s.session).2.own :=
    List.mem_filter.mpr ⟨hn, rfl⟩
  rw [hx s.session] at hown
  exact (List.mem_filter.mp hown).1

theorem recording_trans (s s' s'' : PassState) (h : Recording bound s s')
    (h' : Recording bound s' s'') : Recording bound s s'' := h.trans h'

theorem recorded_noted {events : List Event} (h : ∀ e ∈ events, Assignment.IsQuestion e)
    {session : Session} (hsession : PassState.Recorded { session }) :
    PassState.Recorded { session := noted none events session } := by
  intro n doc hn
  rcases List.mem_append.mp hn with hn | hn
  · obtain ⟨e, he, heq⟩ := List.mem_map.mp (List.mem_reverse.mp hn)
    obtain ⟨position, d, isLast, rfl⟩ | ⟨enclosing, rfl⟩ := h e he
    · cases congrArg Entry.event heq
    · cases congrArg Entry.event heq
  · exact hsession n doc hn

variable [TextWidth]

theorem recording_printComment (c : CommentId) : Moves (Recording bound) (printComment job c) := by
  have hmark : Moves (Recording bound) (PassM.markPrinted [c]) :=
    fun _ => .of_cache_eq rfl fun _ _ => id
  exact hmark.bind recording_trans fun _ => (recording_ofDoc _).bind recording_trans fun _ =>
    (recording_note (by simp)).bind recording_trans fun _ => .ofPure .refl _

theorem recording_reproduce (n : NodeId) : Moves (Recording bound) (reproduce job n) := by
  have hmark : ∀ cs, Moves (Recording bound) (PassM.markPrinted cs) :=
    fun _ _ => .of_cache_eq rfl fun _ _ => id
  exact (recording_note (by simp)).bind recording_trans fun _ =>
    (hmark _).bind recording_trans fun _ => recording_ofDoc _

variable (hg : job.grammar.Mirrors)
  (hnested : ∀ name source options, Keeps Session.own (nested name source options))
  (hprint : ∀ place, ok place → Moves (Recording bound) (print place none))
include hnested hprint

theorem recording_run {α : Type} {P : (Doc → Doc → Prop) → α → α → Prop} {x : Rule α}
    {docs : List (Doc × Doc)} (hx : Rule.Mirrors ok P docs x x) :
    Moves (Recording bound) (x.run (answer nested job print)) := by
  refine Program.Alike.moves .refl recording_trans (fun q q' same hq => ?_)
    (hx (fun _ _ => True) fun _ _ => trivial)
  cases hq with
  | build c h => exact recording_ofDoc _
  | print hlevel hok => exact hprint _ hok
  | comment c => exact recording_printComment c
  | format language source options => exact recording_ofSession (hnested language source options)
  | refuse message => exact .ofThrow .refl _

include hg

theorem recording_runRule (hok : place.Allows ok) :
    Moves (Recording bound) (runRule nested job print place none) :=
  (recording_note (by simp)).bind recording_trans fun _ =>
    recording_run hnested hprint (hg.rule ok job.scene (.refl place) hok)

theorem recording_runEmbed (place : Cursor) :
    Moves (Recording bound) (runEmbed nested job print place) := by
  rw [runEmbed_eq]
  split
  · exact .ofPure .refl _
  · refine (recording_note (by simp)).bind recording_trans fun _ =>
      Moves.tryCatch recording_trans ?_ fun e => ?_
    · exact recording_run hnested hprint (hg.embed ok job.scene (.refl place))
    · split
      · exact .ofThrow .refl _
      · exact .ofPure .refl _

theorem recording_node (hok : place.Allows ok) (n : NodeId) :
    Moves (Recording bound) (printContent nested job print place n none >>=
      printAround nested job print place n) := by
  refine Moves.bind recording_trans ?_ fun doc => ?_
  · unfold printContent
    split
    · exact recording_reproduce n
    · refine (recording_runEmbed hg hnested hprint place).bind recording_trans fun doc => ?_
      cases doc with
      | some doc => exact .ofPure .refl _
      | none => exact recording_runRule hg hnested hprint hok
  · unfold printAround
    split
    · exact .ofPure .refl _
    · exact recording_run hnested hprint (Rule.mirrors_surround job.grammar job.scene job.marked n
        (List.mem_singleton_self (doc, doc)))

omit hg hnested hprint in
theorem recording_fresh {s : PassState} (hn : s.cache[n]? = none)
    (hnode : Moves (Recording n) (printContent nested job print place n none >>=
      printAround nested job print place n)) :
    Recording (n + 1) s ((do
      let doc ← printNode nested job print place n none
      PassM.remember n doc
      return doc : PassM Doc).run.run s).2 := by
  have hsteps : (do
      let doc ← printNode nested job print place n none
      PassM.remember n doc
      return doc : PassM Doc) = printContent nested job print place n none >>=
        printAround nested job print place n >>= fun doc => do
          PassM.note job (.printed n doc)
          PassM.remember n doc
          return doc := by
    rw [printNode_eq]
    simp only [bind_assoc, pure_bind]
  have hs := hnode s
  rw [hsteps, run_bind_eq]
  generalize (printContent nested job print place n none >>=
    printAround nested job print place n).run.run s = r at hs ⊢
  obtain ⟨e | doc, s₁⟩ := r
  · exact hs.mono (Nat.le_succ n)
  · have hn₁ : s₁.cache[n]? = none := (hs.cache n (Nat.le_refl n)).trans hn
    constructor
    · intro hrecorded m d hm
      change (s₁.cache.insert n doc)[m]? = some d
      rw [Std.TreeMap.getElem?_insert]
      split
      · rename_i hnm
        obtain rfl := compare_eq_iff_eq.mp hnm
        rcases List.mem_cons.mp hm with heq | hm
        · cases congrArg Entry.event heq
          rfl
        · rw [hs.recorded hrecorded n d hm] at hn₁
          cases hn₁
      · rename_i hnm
        rcases List.mem_cons.mp hm with heq | hm
        · cases congrArg Entry.event heq
          exact absurd (compare_eq_iff_eq.mpr rfl) hnm
        · exact hs.recorded hrecorded m d hm
    · intro m hm
      change (s₁.cache.insert n doc)[m]? = _
      rw [Std.TreeMap.getElem?_insert, if_neg, hs.cache m (Nat.le_of_succ_le hm)]
      exact fun hnm => Nat.ne_of_lt hm (compare_eq_iff_eq.mp hnm)

omit hprint in
/-- A pass that tells of the documents it hands out tells of what it remembers. -/
theorem recording_printBy (ht : job.scene.tree.RefersBack) (depth : Nat)
    (htree : place.tree = job.scene.tree) (hvalue : place.value = .node n) :
    Moves (Recording (n + 1)) (printBy .announce nested job depth place none) := by
  induction depth generalizing place n with
  | zero => exact .ofThrow .refl _
  | succ depth ih =>
    have hvalues : ∀ place, place.Within job.scene.tree n →
        Moves (Recording n) (printBy .announce nested job depth place none) := by
      intro place hplace
      cases depth with
      | zero => exact .ofThrow .refl _
      | succ depth =>
        cases hvalue : place.value with
        | node m =>
          have hm := ht n m (hplace.child m hvalue)
          exact (ih hplace.tree hvalue).mono fun _ _ h => h.mono hm
        | null | str content =>
          rw [printBy, hvalue]
          exact recording_ofDoc _
        | list items =>
          rw [printBy, hvalue]
          refine recording_runRule hg hnested ?_ (Cursor.allows_null hvalue)
          intro place hnull
          cases depth with
          | zero => exact .ofThrow .refl _
          | succ depth =>
            rw [printBy, hnull]
            exact recording_ofDoc _
    rw [printBy, hvalue]
    intro s
    have hrecalled : (recalled .announce job n).run.run s =
        (s.cache[n]?.forM (fun doc => PassM.note job (.printed n doc)) >>=
          fun _ => pure s.cache[n]? : PassM (Option Doc)).run.run s := rfl
    rw [run_bind_eq, hrecalled]
    cases hn : s.cache[n]? with
    | none =>
      exact recording_fresh hn
        (recording_node hg hnested hvalues (Cursor.allows_within htree hvalue) n)
    | some doc =>
      refine ⟨fun hrecorded m d hm => ?_, fun _ _ => rfl⟩
      rcases List.mem_cons.mp hm with heq | hm
      · cases congrArg Entry.event heq
        exact hn
      · exact hrecorded m d hm

omit hg hprint in
theorem exists_recorded_overTreeBy {g : Grammar} (hg : g.Mirrors) (options : Options) {tree : Tree}
    (ht : tree.RefersBack) :
    ∃ s : PassState, s.Recorded ∧
      ((overTreeBy .announce nested none g options tree).run.run {}).2 = s.session := by
  have hempty : PassState.Recorded { session := {} } := fun n doc hn => nomatch hn
  unfold overTreeBy overAssignedBy
  rw [hg.preprocess]
  cases hassign : assignComments g.toCommentPolicy tree with
  | error e => exact ⟨{ session := {} }, hempty, rfl⟩
  | ok r =>
    obtain ⟨attachments, events⟩ := r
    have hsession := recorded_noted (Assignment.questions_of_assignComments hassign) hempty
    have hprint : Moves (Recording (tree.root + 1))
        (printTreeBy .announce nested (jobFor none g options tree attachments)) :=
      (recording_printBy hg hnested ht _ rfl rfl).bind recording_trans
        (moves_finish .refl recording_trans fun x => recording_ofDoc x)
    refine ⟨_, (hprint { session := noted none events {} }).recorded hsession, ?_⟩
    change ((events.forM (noteUnder none) >>= fun _ => perform _ : SessionM Doc).run.run {}).2 = _
    rw [run_bind_eq, run_forM_noteUnder]
    rfl

end Recording

end Pass

section Layout

variable [TextWidth] {g : Grammar} {languages : Languages} {t : Tree} {options : Options}

/-- A pass that tells of the documents it hands out does what one does that does not tell. -/
theorem layoutBy_announce (hg : g.Heedless) (hlanguages : ∀ l ∈ languages, l.grammar.Heedless) :
    (layoutBy .announce g languages options t).1 = (layoutTree g languages options t).1 ∧
      (layoutBy .announce g languages options t).2.store =
        (layoutTree g languages options t).2.store := by
  have hrecall : Recall.announce = .forget ↔ Recall.reuse = .forget := by decide
  have hnested := Pass.follows_formatBy hrecall hlanguages (Pass.nestingLimit t.source.text)
  have hpass :=
    Pass.follows_overTreeBy hrecall (.inl (rfl : options = options)) hnested hg none none t
  rw [← layoutBy_reuse]
  exact hpass.same rfl fun hne => hne rfl

theorem layoutBy_announce_unique (hg : g.Mirrors) (ht : t.RefersBack) {n : NodeId} {doc doc' : Doc}
    (h : ⟨none, .printed n doc⟩ ∈ (layoutBy .announce g languages options t).2.journal)
    (h' : ⟨none, .printed n doc'⟩ ∈ (layoutBy .announce g languages options t).2.journal) :
    doc = doc' := by
  obtain ⟨s, hs, hsession⟩ := Pass.exists_recorded_overTreeBy
    (Pass.keeps_own_formatBy .announce languages (Pass.nestingLimit t.source.text)) hg options ht
  rw [layoutBy, hsession] at h h'
  exact Option.some.inj ((hs n doc h).symm.trans (hs n doc' h'))

end Layout

end SourceLayout
