import SourceLayout.Proofs.Outcomes
import SourceLayout.Proofs.Pass.Lockstep
import SourceLayout.Proofs.Toy.Blocks

/-! # Strict passes over toy trees

Nothing but an embedded block can make a pass over a toy tree fail. So a strict pass comes to the
first failure among the blocks that it gets to, and if there is none, it does what a pass that is
not strict does.
-/

namespace SourceLayout

/-- A step keeps an invariant of the state. It fails just as `outcome` does, and otherwise `P`
holds of its result. -/
def Settles {α : Type} (sound : PassState → Prop) (x : PassM α) (outcome : Except Failure Unit)
    (P : α → Prop) : Prop :=
  ∀ s, sound s → sound (x.run.run s).2 ∧
    ((∃ a, (x.run.run s).1 = .ok a ∧ outcome = .ok () ∧ P a) ∨
      ∃ e, (x.run.run s).1 = .error e ∧ outcome = .error e)

namespace Settles

variable {α β : Type} {sound : PassState → Prop} {x : PassM α}
    {outcome outcome' : Except Failure Unit}
  {P : α → Prop} {R : β → Prop} {f : α → PassM β}

theorem ofPure {a : α} (h : P a) : Settles sound (pure a) (.ok ()) P :=
  fun _ hs => ⟨hs, .inl ⟨a, rfl, rfl, h⟩⟩

theorem mono {P' : α → Prop} (h : Settles sound x outcome P) (hP : ∀ a, P a → P' a) :
    Settles sound x outcome P' := by
  intro s hs
  refine (h s hs).imp id (Or.imp_left ?_)
  rintro ⟨a, ha, ho, hPa⟩
  exact ⟨a, ha, ho, hP a hPa⟩

theorem bind (hx : Settles sound x outcome P) (hf : ∀ a, P a → Settles sound (f a) outcome' R) :
    Settles sound (x >>= f) (outcome >>= fun _ => outcome') R := by
  intro s hs
  obtain ⟨hs', hrun⟩ := hx s hs
  rw [run_bind_eq]
  rcases hxs : x.run.run s with ⟨e | a, s'⟩
  · rw [hxs] at hs' hrun
    obtain ⟨_, ha, -⟩ | ⟨e', he, rfl⟩ := hrun
    · cases ha
    · cases he
      exact ⟨hs', .inr ⟨e, rfl, rfl⟩⟩
  · rw [hxs] at hs' hrun
    obtain ⟨a', ha, rfl, hP⟩ | ⟨e', he, -⟩ := hrun
    · cases ha
      exact hf a hP s' hs'
    · cases he

theorem bind_ok (hx : Settles sound x (.ok ()) P) (hf : ∀ a, P a → Settles sound (f a) outcome R) :
    Settles sound (x >>= f) outcome R := hx.bind hf

theorem bind_last (hx : Settles sound x outcome P)
    (hf : ∀ a, P a → Settles sound (f a) (.ok ()) R) :
    Settles sound (x >>= f) outcome R := by
  have h := hx.bind hf
  cases outcome <;> exact h

theorem mapM {γ δ : Type} {rule : γ → Rule Doc} {verdict : δ → Except Failure Unit}
    {answer : Request → PassM Doc} {xs : List γ} {ns : List δ} {S : γ → δ → Prop}
    (hxs : List.Forall₂ S xs ns)
    (h : ∀ x, ∀ n ∈ ns, S x n → Settles sound ((rule x).run answer) (verdict n) fun _ => True) :
    Settles sound ((xs.mapM rule).run answer) (forM ns verdict) fun _ => True := by
  induction hxs with
  | nil => exact ofPure trivial
  | @cons x n xs ns hx _ ih =>
    rw [List.mapM_cons, List.forM_cons, Program.run_bind]
    refine (h x n List.mem_cons_self hx).bind fun doc _ => ?_
    rw [Program.run_bind]
    have hrest := ih fun x m hm => h x m (List.mem_cons_of_mem _ hm)
    exact hrest.bind_last fun docs _ => ofPure trivial

theorem rethrow (hx : Settles sound x outcome P) :
    Settles sound (tryCatch x fun e => throw e) outcome P := by
  intro s hs
  have hrun : (tryCatch x fun e => throw e).run.run s = x.run.run s := by
    rw [run_tryCatch_eq]
    rcases x.run.run s with ⟨e | a, s'⟩
    · rfl
    · rfl
  rw [hrun]
  exact hx s hs

theorem of_performs {t : Tree} {steps : List Step} {known : NodeId → Prop}
    (h : ∀ s, Performs t x s steps (fun _ => False) P) :
    Settles (fun s => ∀ n ∈ s.cache, known n) x (.ok ()) P := by
  intro s hs
  obtain ⟨a, s', hrun, hP, hadvances⟩ := h s
  rw [hrun]
  exact ⟨fun n hn => hs n ((hadvances.cache n hn).resolve_right id), .inl ⟨a, rfl, rfl, hP⟩⟩

end Settles

namespace Toy

open Pass

theorem heedless_grammar {skipDangling : Bool} : (grammar skipDangling).Heedless where
  preprocess := rfl
  rule _ _ _ _ := rfl
  embed excused scene options place answer answer' hanswer hformat := by
    change Follows excused PassState.substance ((embed scene place).run answer)
      ((embed { scene with options } place).run answer')
    unfold embed
    dsimp only
    split
    · exact .ofPure none
    · rw [Program.run_bind, Program.run_bind]
      refine Follows.bind ?_ fun code => .program hanswer _
      exact (hformat _ _).bind fun doc => .program hanswer _

theorem languages_eq : languages = [language, brokenLanguage] := rfl

theorem heedless_languages : ∀ l ∈ languages, l.grammar.Heedless := by
  rw [languages_eq, List.forall_mem_cons, List.forall_mem_singleton]
  exact ⟨heedless_grammar, heedless_grammar⟩

variable {t : Tree} {a : Attachments} {n : NodeId} {place : Cursor} {options : Options}
  {marked : Option NodeId} {nested : Text → Text → Options → SessionM Doc}
  {print : Cursor → Option Flags → PassM Doc} {judge : Text → Text → Except Failure Unit}

def verdict (t : Tree) (options : Options) (judge : Text → Text → Except Failure Unit)
    (n : NodeId) :
    Except Failure Unit :=
  if options.embedding then judge (blockLanguage t n) (blockCode t n) else .ok ()

/-- No block at or below a node fails. -/
def Passable (t : Tree) (a : Attachments) (options : Options)
    (judge : Text → Text → Except Failure Unit) (n : NodeId) : Prop :=
  forM (blocks t a n) (verdict t options judge) = .ok ()

abbrev Sound (t : Tree) (a : Attachments) (options : Options)
    (judge : Text → Text → Except Failure Unit) (s : PassState) : Prop :=
  ∀ n ∈ s.cache, Passable t a options judge n

/-- Nodes with numbers below `bound` come to the first failure among their blocks. -/
structure Judged (t : Tree) (a : Attachments) (options : Options)
    (judge : Text → Text → Except Failure Unit) (print : Cursor → Option Flags → PassM Doc)
    (bound : NodeId) : Prop where
  node : ∀ n place, n < bound → t.Reaches t.root n → At t place n →
    Settles (Sound t a options judge) (print place none)
      (forM (blocks t a n) (verdict t options judge)) fun _ => True
  text : ∀ place content, place.value = .str content →
    Settles (Sound t a options judge) (print place none) (.ok ()) fun _ => True

theorem forM_flatMap {α β : Type} {f : α → List β} {g : β → Except Failure Unit} {as : List α} :
    forM (as.flatMap f) g = forM as fun a => forM (f a) g := by
  induction as with
  | nil => rfl
  | cons a as ih => rw [List.flatMap_cons, List.forM_append, List.forM_cons, ih]

theorem settles_builds [TextWidth] {α : Type} {x : Rule α} {job : Job} (hx : x.Builds) :
    Settles (Sound t a options judge) (x.run (answer nested job print)) (.ok ()) fun _ => True :=
  .of_performs fun _ => performs_builds (t := t) hx

theorem settles_note {job : Job} {event : Event} (h : Entry.step? ⟨job.language, event⟩ = none) :
    Settles (Sound t a options judge) (PassM.note job event) (.ok ()) fun _ => True :=
  .of_performs fun _ => performs_note (t := t) h

section Node

variable (h : Parsed t) (hr : t.Reaches t.root n) (hp : At t place n)
  (hprint : Judged t a options judge print n)
include h hr hp hprint

theorem settles_printList [TextWidth] {name : String} {ns : List NodeId} {job : Job}
    (hf : (t.node n).field? name = some (.list (ns.map .node)))
    (hns : ∀ m ∈ ns, m ∈ (t.node n).children) :
    Settles (Sound t a options judge) ((Rule.printList place name).run (answer nested job print))
      (forM (ns.flatMap (blocks t a)) (verdict t options judge)) fun _ => True := by
  rw [forM_flatMap]
  refine Settles.mapM (hp.forall₂_elements hf) fun place m hm hplace => ?_
  have hchild := hns m hm
  have hm :=
    hprint.node m place (h.wellNested.earlier n m hchild) (.inr (hr.below_child hchild)) hplace
  exact hm.bind_last fun _ _ => .ofPure trivial

theorem settles_rule [TextWidth] (hk : (t.node n).kind ≠ "Embed") :
    Settles (Sound t a options judge)
      ((rule false { tree := t, options, attachments := a } place none).run
        (answer nested (hostJob t a options marked) print))
      (forM ((t.node n).children.flatMap (blocks t a)) (verdict t options judge))
        fun _ => True := by
  have hleaf : ∀ {name : String} {content : Text}, (t.node n).field? name = some (.str content) →
      Settles (Sound t a options judge) ((Rule.printField place name).run
        (answer nested (hostJob t a options marked) print)) (.ok ()) fun _ => True := by
    intro name content hf
    exact (hprint.text _ content (hp.value_enter hf)).bind_last fun _ _ => .ofPure trivial
  have hdangling : Settles (Sound t a options judge) ((Rule.danglingComments
      { tree := t, options, attachments := a } place true fun _ => true).run
        (answer nested (hostJob t a options marked) print)) (.ok ()) fun _ => True :=
    .of_performs (t := t) fun _ => performs_danglingComments rfl _ place
  cases (h.shaped_of_reaches hr).form with
  | ident kind children field | quasi kind children field =>
    rw [children]
    simp only [rule, hp.nodeHere_eq, kind]
    exact hleaf field
  | embed kind => exact absurd kind hk
  | list kind _ field =>
    simp only [rule, hp.nodeHere_eq, kind]
    unfold listRule
    rw [Program.run_bind]
    refine (settles_printList h hr hp hprint field fun _ => id).bind_last fun items _ => ?_
    split
    · rw [Program.run_bind]
      refine hdangling.bind_ok fun dangling _ => settles_builds ?_
      exact fun _ _ _ => trivial
    · exact settles_builds fun _ _ _ _ _ _ _ _ _ _ => trivial
  | template kind children _ literals holes =>
    simp only [rule, hp.nodeHere_eq, kind]
    unfold templateRule
    rw [children, List.flatMap_append, List.forM_append, Program.run_bind]
    refine (settles_printList h hr hp hprint literals fun q hq => ?_).bind fun quasis _ => ?_
    · exact children ▸ List.mem_append_left _ hq
    rw [Program.run_bind]
    refine (settles_printList h hr hp hprint holes fun e he => ?_).bind_last
      fun expressions _ => settles_builds ?_
    · exact children ▸ List.mem_append_right _ he
    · refine (Rule.builds_build _).bind fun _ => (builds_weave _ _ _).bind fun _ => ?_
      exact fun _ _ => trivial
  | program kind _ field =>
    simp only [rule, hp.nodeHere_eq, kind]
    unfold programRule
    rw [Program.run_bind]
    refine (settles_printList h hr hp hprint field fun _ => id).bind_last fun body _ => ?_
    dsimp only
    rw [if_neg Bool.false_ne_true, Program.run_bind]
    exact hdangling.bind_ok fun dangling _ => settles_builds fun _ _ _ => trivial

end Node

section Embed

variable (hstrict : options.strict = true)
  (hjudge : ∀ name source session,
    (((nested name source options.nested).run.run session).1.map fun _ => ()) = judge name source)
include hstrict hjudge

omit hstrict in
theorem settles_nested (name source : Text) :
    Settles (Sound t a options judge) (PassM.ofSession (nested name source options.nested))
      (judge name source) fun _ => True := by
  intro s hs
  refine ⟨hs, ?_⟩
  change (∃ doc, ((nested name source options.nested).run.run s.session).1 = .ok doc ∧ _ ∧ True) ∨
    ∃ e, ((nested name source options.nested).run.run s.session).1 = .error e ∧ _
  rw [← hjudge name source s.session]
  cases ((nested name source options.nested).run.run s.session).1 with
  | error e => exact .inr ⟨e, rfl, rfl⟩
  | ok doc => exact .inl ⟨doc, rfl, rfl, trivial⟩

variable [TextWidth]

theorem settles_runEmbed (hp : At t place n) :
    Settles (Sound t a options judge) (runEmbed nested (hostJob t a options marked) print place)
      (if (t.node n).kind = "Embed" then verdict t options judge n else .ok ())
      fun doc => doc = none ∨ (t.node n).kind = "Embed" := by
  have hcatch : (fun failure : Failure => if (hostJob t a options marked).scene.options.strict
      then throw failure else pure none : Failure → PassM (Option Doc)) = fun e => throw e := by
    funext failure
    exact if_pos hstrict
  rw [runEmbed_eq, hcatch]
  unfold verdict
  split
  · rename_i hoff
    have hoff : options.embedding = false := by simpa [hostJob] using hoff
    rw [hoff]
    simp only [Bool.false_eq_true, if_false, ite_self]
    exact .ofPure (.inl rfl)
  · rename_i hon
    have hon : options.embedding = true := by simpa [hostJob] using hon
    rw [hon, if_pos rfl]
    refine (settles_note rfl).bind_ok fun _ _ => Settles.rethrow ?_
    change Settles _ ((embed { tree := t, options, attachments := a } place).run _) _ _
    split
    · rename_i hk
      rw [hp.embed_eq hk, Program.run_bind]
      have hcode : Settles (Sound t a options judge)
          ((Rule.embedded { tree := t, options, attachments := a } (blockLanguage t n)
            (blockCode t n)).run (answer nested (hostJob t a options marked) print))
          (judge (blockLanguage t n) (blockCode t n)) fun _ => True :=
        (settles_nested hjudge _ _).bind_last fun doc _ => settles_builds fun _ => trivial
      refine hcode.bind_last fun code _ => (settles_builds ?_).mono fun _ _ => .inr hk
      exact fun _ _ _ => trivial
    · rename_i hk
      rw [hp.embed_eq_none hk]
      exact .ofPure (.inl rfl)

theorem settles_printContent (h : Parsed t) (hr : t.Reaches t.root n) (hp : At t place n)
    (hprint : Judged t a options judge print n) :
    Settles (Sound t a options judge)
      (printContent nested (hostJob t a options marked) print place n none)
      (forM (blocks t a n) (verdict t options judge)) fun _ => True := by
  have hignored : (hostJob t a options marked).grammar.isIgnored
      (hostJob t a options marked).scene.attachments place = isMarked t a n :=
    hp.isIgnored_eq
  have hembed : Settles (Sound t a options judge)
      (runEmbed nested (hostJob t a options marked) print place)
      (if (t.node n).kind = "Embed" then verdict t options judge n else .ok ())
      fun doc => doc = none ∨ (t.node n).kind = "Embed" := settles_runEmbed hstrict hjudge hp
  unfold printContent
  rw [hignored, blocks_eq h.wellNested]
  split
  · exact .of_performs fun _ => performs_reproduce rfl n
  · by_cases hk : (t.node n).kind = "Embed"
    · rw [if_pos hk] at hembed ⊢
      have hone : forM [n] (verdict t options judge) = verdict t options judge n := by
        rw [List.forM_cons, List.forM_nil]
        cases verdict t options judge n <;> rfl
      rw [hone]
      refine hembed.bind_last fun doc _ => ?_
      cases doc with
      | some doc => exact .ofPure trivial
      | none =>
        refine (settles_note rfl).bind_ok fun _ _ => ?_
        change Settles _ ((rule false _ place none).run _) _ _
        simp only [rule, hp.nodeHere_eq, hk]
        exact settles_builds (Rule.builds_build _)
    · rw [if_neg hk] at hembed ⊢
      refine hembed.bind_ok fun doc hdoc => ?_
      obtain rfl := hdoc.resolve_right hk
      exact (settles_note rfl).bind_ok fun _ _ => settles_rule h hr hp hprint hk

/-- A node comes to the first failure among its blocks. -/
theorem settles_printNode (h : Parsed t) (hr : t.Reaches t.root n) (hp : At t place n)
    (hprint : Judged t a options judge print n) :
    Settles (Sound t a options judge)
      (printNode nested (hostJob t a options marked) print place n none)
      (forM (blocks t a n) (verdict t options judge)) fun _ => True := by
  have haround : ∀ doc, Settles (Sound t a options judge)
      (printAround nested (hostJob t a options marked) print place n doc) (.ok ()) fun _ => True :=
    fun doc => .of_performs fun _ => performs_printAround (t := t) rfl rfl n doc
  rw [printNode_eq]
  refine (settles_printContent hstrict hjudge h hr hp hprint).bind_last fun doc _ =>
    (haround doc).bind_ok fun commented _ => ?_
  exact (settles_note rfl).bind_ok fun _ _ => .ofPure trivial

theorem judged_printAt (h : Parsed t) (depth : Nat) (hdepth : n < depth) :
    Judged t a options judge (printAt nested (hostJob t a options marked) depth) n := by
  induction depth generalizing n with
  | zero => cases hdepth
  | succ depth ih =>
    constructor
    · intro m place hm hr hp s hs
      unfold printAt
      rw [hp.value]
      dsimp only
      have hget : ∀ f : PassState → PassM Doc, (get >>= f).run.run s = (f s).run.run s :=
        fun _ => rfl
      rw [hget]
      split
      · rename_i doc hdoc
        have hmem : m ∈ s.cache := Std.TreeMap.mem_iff_isSome_getElem?.mpr (by rw [hdoc]; rfl)
        exact ⟨hs, .inl ⟨doc, rfl, hs m hmem, trivial⟩⟩
      · have hchildren := ih (Nat.lt_of_lt_of_le hm (Nat.le_of_lt_succ hdepth))
        have hnode :
            Settles (Sound t a options judge) (printNode nested (hostJob t a options marked)
                (printAt nested (hostJob t a options marked) depth) place m none)
              (forM (blocks t a m) (verdict t options judge)) fun _ => True :=
          settles_printNode hstrict hjudge h hr hp hchildren
        obtain ⟨hs', hrun⟩ := hnode s hs
        rw [run_bind_eq]
        rcases hx : (printNode nested (hostJob t a options marked)
          (printAt nested (hostJob t a options marked) depth) place m none).run.run s with ⟨e | doc, s'⟩
        · rw [hx] at hs' hrun
          exact ⟨hs', hrun.imp_left fun ⟨_, hdoc, _⟩ => (nomatch hdoc)⟩
        · rw [hx] at hs' hrun
          obtain ⟨_, -, hpassable, -⟩ | ⟨e, he, -⟩ := hrun
          · refine ⟨fun k hk => ?_, .inl ⟨doc, rfl, hpassable, trivial⟩⟩
            rcases Std.TreeMap.mem_insert.mp hk with hk | hk
            · rw [← Std.LawfulEqCmp.eq_of_compare hk]
              exact hpassable
            · exact hs' k hk
          · cases he
    · intro place content hvalue
      unfold printAt
      rw [hvalue]
      exact .of_performs fun _ => Performs.ofDoc (t := t) _

end Embed

def ending {σ α : Type} (x : ExceptT Failure (StateM σ) α) (s : σ) : Except Failure Unit :=
  (x.run.run s).1.map fun _ => ()

/-- The nested passes of toy languages. -/
structure Nests (nested : Text → Text → Options → SessionM Doc) : Prop where
  keeps : ∀ name source options, Keeps Session.trail (nested name source options)
  follows : ∀ name source o o', o.Tightens o' →
    Follows (o ≠ o') Session.store (nested name source o) (nested name source o')

theorem nests_formatWithin [TextWidth] (depth : Nat) : Nests (formatWithin languages depth) where
  keeps := keeps_formatWithin languages depth
  follows := by
    rw [← formatBy_reuse]
    exact follows_formatBy Iff.rfl heedless_languages depth

/-- A pass over a toy tree gives the same under any name, and if it is strict, unless it fails. -/
theorem follows_overTree [TextWidth] {o o' : Options}
    (hnested : ∀ name source o o', o.Tightens o' →
      Follows (o ≠ o') Session.store (nested name source o) (nested name source o'))
    (ho : o.Tightens o') (name name' : Option Text) (t : Tree) :
    Follows (o ≠ o') Session.store (overTree nested name (grammar false) o t)
      (overTree nested name' (grammar false) o' t) := by
  rw [← overTreeBy_reuse]
  exact follows_overTreeBy Iff.rfl ho hnested heedless_grammar name name' t

theorem Options.tightens_of_strict {o : Options} (h : o.strict = true) :
    o.Tightens { o with strict := false } := .inr (by rw [← h])

theorem ending_printTree [TextWidth] (marked : Option NodeId) (hnested : Nests nested)
    (h : Parsed t) (ha : Tidy t a)
    (hstrict : options.strict = true)
    (hjudge : ∀ name source session, ending (nested name source options.nested) session =
      judge name source) (session : Session) :
    ending (printTree nested (hostJob t a options marked)) { session } =
      forM (blocks t a t.root) (verdict t options judge) := by
  have hlimit : t.root + 1 < depthLimit t := Nat.lt_of_succ_lt (add_three_le_depthLimit h.root_lt)
  have hprints :
      Judged t a options judge (printAt nested (hostJob t a options marked) (depthLimit t))
        (t.root + 1) :=
    judged_printAt hstrict hjudge h (depthLimit t) hlimit
  obtain ⟨-, hroot⟩ := hprints.node t.root (.atRoot t) (Nat.lt_succ_self _) (t.reaches_self _)
    ⟨rfl, rfl⟩ { session } fun n hn => by simp at hn
  have htightens := Options.tightens_of_strict hstrict
  obtain ⟨doc, s, hloose, -, -⟩ :
      Performs t (printTree nested (hostJob t a { options with strict := false } marked)) { session }
        (walk t a t.root) (t.Reaches t.root) fun _ => True :=
    performs_printTree hnested.keeps rfl h ha session
  have hprinted :
      Follows ((hostJob t a options marked).scene.options ≠ { options with strict := false })
        PassState.substance
        (printBy .reuse nested (hostJob t a options marked) (depthLimit t) (.atRoot t) none)
        (printBy .reuse nested ((hostJob t a options marked).beside none
          { options with strict := false }) (depthLimit t) (.atRoot t) none) :=
    follows_printBy htightens heedless_grammar hnested.follows Iff.rfl _ _ _
  rw [printBy_reuse, printBy_reuse] at hprinted
  rw [← printTreeBy_reuse, printTreeBy, printBy_reuse] at hloose ⊢
  obtain ⟨doc₁, s₁, hprint, hfinish⟩ := run_bind_eq_ok_iff.mp hloose
  rw [ending, run_bind_eq, show (hostJob t a options marked).scene.tree = t from rfl]
  rcases hrun : (printAt nested (hostJob t a options marked) (depthLimit t) (.atRoot t) none).run.run
    { session } with ⟨e | doc₂, s₂⟩
  · rw [hrun] at hroot
    obtain ⟨_, hdoc, -⟩ | ⟨e', he, houtcome⟩ := hroot
    · cases hdoc
    · cases he
      exact houtcome.symm
  · rw [hrun] at hroot
    obtain ⟨_, -, houtcome, -⟩ | ⟨e, he, -⟩ := hroot
    · obtain ⟨s₁', hprint', hview⟩ :=
        hprinted.of_ok (Eq.refl (PassState.substance { session })) hrun
      cases hprint.symm.trans hprint'
      have hrest : Follows False PassState.substance (finish (hostJob t a options marked) doc₁)
          (finish ((hostJob t a options marked).beside none { options with strict := false }) doc₁) :=
        follows_finish htightens doc₁
      have hfinish' : ((finish ((hostJob t a options marked).beside none
        { options with strict := false }) doc₁).run.run s₁).1 = .ok doc := congrArg Prod.fst hfinish
      rw [houtcome, (hrest.same hview id).1, hfinish']
      rfl
    · cases he

/-- A strict pass over a tree comes to the first failure among the blocks that it gets to. -/
theorem ending_overTree [TextWidth] (hnested : Nests nested) (h : Parsed t)
    (hstrict : options.strict = true)
    (hjudge : ∀ name source session, ending (nested name source options.nested) session =
      judge name source) {events : List Event} (ha : Tidy t a)
    (hassign : assignComments (grammar false).toCommentPolicy t = .ok (a, events))
    (language : Option Text) (session : Session) :
    ending (overTree nested language (grammar false) options t) session =
      forM (blocks t a t.root) (verdict t options judge) := by
  have hhost : ending (overTree nested none (grammar false) options t) session =
      forM (blocks t a t.root) (verdict t options judge) := by
    have hprint := ending_printTree (options.cursor.bind ((grammar false).nodeAt? t)) hnested h ha
      hstrict hjudge (noted none events session)
    rw [← hprint, ending, run_overTree nested rfl rfl hassign (Prod.eta _).symm]
    rfl
  have hfollows :=
    follows_overTree hnested.follows (.inl rfl : options.Tightens options) language none t
  rw [← hhost, ending, (hfollows.same (Eq.refl session.store) fun hne => hne rfl).1, ending]

theorem parse_of_get? {name source : Text} {l : Language} {tree : Tree}
    (hl : languages.get? name = some l) (hparse : l.parse source = .ok tree) :
    l.grammar = grammar false ∧ parse source = .ok tree := by
  have hmem := List.mem_of_find?_eq_some hl
  rw [languages_eq, List.mem_cons, List.mem_singleton] at hmem
  rcases hmem with rfl | rfl
  · refine ⟨rfl, ?_⟩
    change ((parse source).mapError SyntaxError.message).mapError _ = _ at hparse
    cases hsource : parse source with
    | error e =>
      rw [hsource] at hparse
      cases hparse
    | ok t =>
      rw [hsource] at hparse
      cases hparse
      rfl
  · cases hparse

/-- How strict formatting ends depends on nothing but the language and the text. -/
theorem exists_judge [TextWidth] (depth : Nat) (hstrict : options.strict = true) :
    ∃ judge : Text → Text → Except Failure Unit, ∀ name source session,
      ending (formatWithin languages depth name source options) session = judge name source := by
  have hsame : ∀ name source, ∃ outcome, ∀ session,
      ending (formatWithin languages depth name source options) session = outcome := by
    induction depth generalizing options with
    | zero => exact fun _ _ => ⟨.error .unbounded, fun _ => rfl⟩
    | succ depth ih =>
      intro name source
      have hnested : options.nested.strict = true := hstrict
      choose judge hjudge using ih hnested
      cases hlanguage : languages.get? name with
      | none =>
        refine ⟨.error (.unknownLanguage name), fun session => ?_⟩
        rw [ending, formatWithin, hlanguage]
        rfl
      | some language =>
        cases hparse : language.parse source with
        | error e =>
          refine ⟨.error e, fun session => ?_⟩
          rw [ending, formatWithin, hlanguage]
          dsimp only
          rw [hparse]
          rfl
        | ok tree =>
          obtain ⟨hg, hsource⟩ := parse_of_get? hlanguage hparse
          have htree := parsed_of_parse hsource
          obtain ⟨a, events, hassign, ha, -⟩ := exists_tidy htree
          refine ⟨forM (blocks tree a tree.root) (verdict tree options judge), fun session => ?_⟩
          rw [← ending_overTree (nests_formatWithin depth) htree hstrict hjudge ha hassign
            (some language.name) session, ending, formatWithin, hlanguage]
          dsimp only
          rw [hparse, hg]
          rfl
  choose judge hjudge using hsame
  exact ⟨judge, hjudge⟩

/-- Formats the code of an embedded block by the language that it names, as a pass over the tree
does. -/
def formatBlock [TextWidth] (t : Tree) (options : Options) (n : NodeId) : SessionM Doc :=
  formatWithin languages (nestingLimit t.source.text) (blockLanguage t n) (blockCode t n)
    options.nested

/-- The first block that fails among those that a pass gets to. -/
structure FailsFirst [TextWidth] (t : Tree) (a : Attachments) (options : Options) (n : NodeId)
    (e : Failure) :
    Prop where
  kind : (t.node n).kind = "Embed"
  visible : Visible t a t.root n
  fails : ∀ session, ((formatBlock t options n).run.run session).1 = .error e
  first : ∀ m, (t.node m).kind = "Embed" → Visible t a t.root m →
    (t.node m).span.start < (t.node n).span.start →
    ∀ session, ∃ doc, ((formatBlock t options m).run.run session).1 = .ok doc

theorem ending_eq_error_iff {σ α : Type} {x : ExceptT Failure (StateM σ) α} {s : σ} {e : Failure} :
    ending x s = .error e ↔ (x.run.run s).1 = .error e := by
  unfold ending
  cases (x.run.run s).1 with
  | error e' => exact ⟨fun he => by cases he; rfl, fun he => by cases he; rfl⟩
  | ok a => exact iff_of_false nofun nofun

theorem ending_eq_ok_iff {σ α : Type} {x : ExceptT Failure (StateM σ) α} {s : σ} :
    ending x s = .ok () ↔ ∃ a, (x.run.run s).1 = .ok a := by
  unfold ending
  cases (x.run.run s).1 with
  | error e' => exact iff_of_false nofun nofun
  | ok a => exact iff_of_true rfl ⟨a, rfl⟩

theorem forM_blocks_eq_error_iff [TextWidth] (h : Parsed t) {e : Failure}
    (hjudge : ∀ m session, ending (formatBlock t options m) session =
      judge (blockLanguage t m) (blockCode t m)) :
    forM (blocks t a t.root) (verdict t options judge) = .error e ↔
      options.embedding = true ∧ ∃ n, FailsFirst t a options n e := by
  have hroot := t.reaches_self t.root
  have hpairwise := pairwise_blocks (a := a) h hroot
  have hmem : ∀ {m}, m ∈ blocks t a t.root ↔ (t.node m).kind = "Embed" ∧ Visible t a t.root m :=
    mem_blocks_iff h hroot
  rw [forM_eq_error_iff]
  constructor
  · rintro ⟨before, n, after, hblocks, hbefore, hn⟩
    have hon : options.embedding = true := by
      by_contra hoff
      rw [verdict, if_neg hoff] at hn
      cases hn
    rw [verdict, if_pos hon] at hn
    obtain ⟨hkind, hvisible⟩ := hmem.mp (by rw [hblocks]; simp : n ∈ blocks t a t.root)
    refine ⟨hon, n, hkind, hvisible, fun session => ?_, fun m hm hvisible hlt session => ?_⟩
    · rw [← ending_eq_error_iff, hjudge, hn]
    · have hm : m ∈ before := by
        have hm := hmem.mpr ⟨hm, hvisible⟩
        rw [hblocks] at hm hpairwise
        rcases List.mem_append.mp hm with hm | hm
        · exact hm
        · exfalso
          rcases List.mem_cons.mp hm with rfl | hm
          · exact Nat.lt_irrefl _ hlt
          · have hle := (List.pairwise_cons.mp (List.pairwise_append.mp hpairwise).2.1).1 m hm
            have hforward := h.wellNested.forward n
            omega
      rw [← ending_eq_ok_iff, hjudge]
      have hok := hbefore m hm
      rw [verdict, if_pos hon] at hok
      exact hok
  · rintro ⟨hon, n, hn⟩
    obtain ⟨before, after, hblocks⟩ := List.append_of_mem (hmem.mpr ⟨hn.kind, hn.visible⟩)
    refine ⟨before, n, after, hblocks, fun m hm => ?_, ?_⟩
    · have hshown := hmem.mp (by rw [hblocks]; simp [hm] : m ∈ blocks t a t.root)
      have hlt := (h.shaped_of_reaches hshown.2.reached).start_lt_stop (by rw [hshown.1]; decide)
      rw [hblocks] at hpairwise
      have hle := (List.pairwise_append.mp hpairwise).2.2 m hm n List.mem_cons_self
      rw [verdict, if_pos hon, ← hjudge m {}, ending_eq_ok_iff]
      exact hn.first m hshown.1 hshown.2 (Nat.lt_of_lt_of_le hlt hle) {}
    · rw [verdict, if_pos hon, ← hjudge n {}, ending_eq_error_iff]
      exact hn.fails {}

/-- For every text that the toy parser accepts, a strict pass that succeeds gives the same document
with the same broken groups as one that is not strict. It fails just if there is a block that it
gets to and whose code cannot be formatted, and with the failure of the first such block in the
order of the source. -/
theorem layoutTree_strict [TextWidth] {text : Text} {t : Tree} (hparse : parse text = .ok t)
    (options : Options) :
    ∃ a events, assignComments (grammar false).toCommentPolicy t = .ok (a, events) ∧
      (∀ doc session,
        layoutTree (grammar false) languages { options with strict := true } t = (.ok doc, session) →
        ∃ session', layoutTree (grammar false) languages { options with strict := false } t =
          (.ok doc, session') ∧ session'.store = session.store) ∧
      ∀ e, (layoutTree (grammar false) languages { options with strict := true } t).1 = .error e ↔
        options.embedding = true ∧ ∃ n, FailsFirst t a { options with strict := true } n e := by
  have h := parsed_of_parse hparse
  have hnested := nests_formatWithin (nestingLimit t.source.text)
  obtain ⟨a, events, hassign, ha, -⟩ := exists_tidy h
  refine ⟨a, events, hassign, fun doc session hstrict => ?_, fun e => ?_⟩
  · have hfollows := follows_overTree hnested.follows
      (.inr rfl : { options with strict := true }.Tightens { options with strict := false }) none none t
    obtain ⟨session', hloose, hstore⟩ := hfollows.of_ok (Eq.refl (Session.store {})) hstrict
    exact ⟨session', hloose, hstore.symm⟩
  · have hnested' : { options with strict := true }.nested.strict = true := rfl
    obtain ⟨judge, hjudge⟩ := exists_judge (nestingLimit t.source.text) hnested'
    rw [← forM_blocks_eq_error_iff h fun m => hjudge _ _, ← ending_overTree hnested h rfl hjudge ha
      hassign none {}, ending_eq_error_iff]
    rfl

def failingBlocks : Text :=
  "// toy-ignore\n%nope\x7ba\x7d (%toy\x7bb\x7d %broken\x7bc\x7d) %none\x7bd\x7d".toList

section Sample

attribute [local instance] TextWidth.perCharacter

theorem layoutTree_strict_failingBlocks :
    ∃ t, parse failingBlocks = .ok t ∧
      (layoutTree (grammar false) languages { strict := true } t).1 =
        .error (.unparsed "broken".toList "nothing parses here".toList) ∧
      ∃ a n, FailsFirst t a { strict := true } n
        (.unparsed "broken".toList "nothing parses here".toList) := by
  have hfails : ((parse failingBlocks).map fun t =>
      (layoutTree (grammar false) languages { strict := true } t).1.map fun _ => ()) =
      .ok (.error (.unparsed "broken".toList "nothing parses here".toList)) := by
    decide +kernel
  cases hparse : parse failingBlocks with
  | error e =>
    rw [hparse] at hfails
    cases hfails
  | ok t =>
    rw [hparse] at hfails
    have hfails : (layoutTree (grammar false) languages { strict := true } t).1 = .error
        (.unparsed "broken".toList "nothing parses here".toList) :=
      ending_eq_error_iff.mp (Except.ok.inj hfails)
    obtain ⟨a, events, -, -, hiff⟩ := layoutTree_strict hparse {}
    obtain ⟨-, n, hn⟩ := (hiff _).mp hfails
    exact ⟨t, rfl, hfails, a, n, hn⟩

end Sample

end Toy

end SourceLayout
