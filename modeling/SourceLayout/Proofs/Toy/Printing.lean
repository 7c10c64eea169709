import SourceLayout.Proofs.Pass.Progress
import SourceLayout.Proofs.Toy.Reading
import SourceLayout.Proofs.Toy.Walk

/-! # Printing a toy tree

Printing a toy tree succeeds and takes the way through the tree. A node is asked for once only,
because the nodes below two children of a node are different, and the documents that are handed
out again are those of literal parts, which have no comments. So each comment is printed once, or
it is reproduced with a node around it.
-/

namespace SourceLayout

theorem Cursor.forall₂_elements {place : Cursor} {ns : List NodeId}
    (h : place.value = .list (ns.map .node)) :
    List.Forall₂ (fun c n => c.tree = place.tree ∧ c.value = .node n) place.elements ns := by
  have hvalues : place.value.elements = ns.map .node := by
    rw [h]
    rfl
  rw [Cursor.elements, hvalues, List.forall₂_iff_get]
  refine ⟨by simp, fun i hi hi' => ?_⟩
  simp [Cursor.push, Cursor.value]

namespace Toy

open Pass

def hostJob (t : Tree) (a : Attachments) (options : Options) (marked : Option NodeId) : Job where
  grammar := grammar false
  scene := { tree := t, options, attachments := a }
  marked := marked
  language := none

structure At (t : Tree) (place : Cursor) (n : NodeId) : Prop where
  tree : place.tree = t
  value : place.value = .node n

def blockLanguage (t : Tree) (n : NodeId) : Text := ((t.node n).text? "lang").getD []

def blockCode (t : Tree) (n : NodeId) : Text := ((t.node n).text? "code").getD []

/-- Of the nodes at and below a node, only literal parts have been printed. -/
def Fresh (t : Tree) (s : PassState) (n : NodeId) : Prop :=
  ∀ m ∈ s.cache, t.Reaches n m → (t.node m).kind = "Quasi"

variable {t : Tree} {a : Attachments} {n m k : NodeId} {place : Cursor} {s s' : PassState}
  {steps : List Step} {region : NodeId → Prop} {c : CommentId}

section Place

theorem At.node_eq (h : At t place n) : place.node = n := by
  have hvalue := h.value
  unfold Cursor.value at hvalue
  simp [Cursor.node, hvalue, Value.node?]

theorem At.nodeHere_eq (h : At t place n) : place.nodeHere = t.node n := by
  rw [Cursor.nodeHere, h.node_eq, h.tree]

theorem At.isIgnored_eq (h : At t place n) : isIgnored a place = isMarked t a n := by
  rw [isIgnored, h.value, isMarked, h.tree]

theorem At.value_enter (h : At t place n) {name : String} {value : Value}
    (hf : (t.node n).field? name = some value) : (place.enter name).value = value := by
  have hbind : (place.value.node?.bind fun n => (place.tree.node n).field? name) = some value := by
    rw [h.value, h.tree]
    exact hf
  rw [Cursor.enter, hbind]
  rfl

theorem At.tree_enter (h : At t place n) (name : String) : (place.enter name).tree = t := by
  rw [Cursor.enter]
  split <;> exact h.tree

theorem At.forall₂_elements (h : At t place n) {name : String} {ns : List NodeId}
    (hf : (t.node n).field? name = some (.list (ns.map .node))) :
    List.Forall₂ (At t) (place.enter name).elements ns :=
  (Cursor.forall₂_elements (h.value_enter hf)).imp fun _ _ ⟨htree, hvalue⟩ =>
    ⟨htree.trans (h.tree_enter name), hvalue⟩

theorem At.embed_eq_none (h : At t place n) (hk : (t.node n).kind ≠ "Embed") {scene : Scene} :
    embed scene place = return none := by
  unfold embed
  dsimp only
  rw [h.nodeHere_eq, if_pos (bne_iff_ne.mpr hk)]

theorem At.embed_eq (h : At t place n) (hk : (t.node n).kind = "Embed") {scene : Scene} :
    embed scene place = do
      let code ← Rule.embedded scene (blockLanguage t n) (blockCode t n)
      let opening ← Rule.owned ('%' :: blockLanguage t n ++ ['\x7b'])
      return some (← Rule.concat [opening, code, ← Rule.fixed ['\x7d']]) := by
  unfold embed
  dsimp only
  rw [h.nodeHere_eq, if_neg (by simp [hk])]
  rfl

end Place

theorem quasi_of_reaches (h : Parsed t) (hn : t.Below t.root n)
    (hapart : (t.node n).span.Apart (t.node k).span) (hm : t.Reaches n m) (hm' : t.Reaches k m) :
    (t.node m).kind = "Quasi" := by
  have hw := h.wellNested
  have hb : t.Below t.root m := hm.elim (fun heq => heq ▸ hn) hn.trans
  apply (h.kind_of_below h.root_lt hb).resolve_left
  intro hk
  exact Span.not_apart_of_contains (hw.reaches_inside hm) (hw.reaches_inside hm')
    ((h.shaped_of_reaches (.inr hb)).start_lt_stop hk) hapart

theorem Fresh.advance (hf : Fresh t s k) (hs : Advances t steps region s s')
    (hr : ∀ m, region m → t.Reaches k m → (t.node m).kind = "Quasi") : Fresh t s' k := by
  intro m hm hreach
  rcases hs.cache m hm with hm | hm
  · exact hf m hm hreach
  · exact hr m hm hreach

theorem Fresh.child (hf : Fresh t s n) (hk : k ∈ (t.node n).children) : Fresh t s k :=
  fun m hm hreach => hf m hm (.inr (hreach.below hk))

/-- Nodes with numbers below `bound` are printed along the way through them. -/
structure Prints (t : Tree) (a : Attachments) (print : Cursor → Option Flags → PassM Doc)
    (bound : NodeId) : Prop where
  node : ∀ n place s, n < bound → t.Reaches t.root n → At t place n → Fresh t s n →
    Performs t (print place none) s (walk t a n) (t.Reaches n) fun _ => True
  text : ∀ place content s, place.value = .str content →
    Performs t (print place none) s [] (fun _ => False) fun _ => True

variable {nested : Text → Text → Options → SessionM Doc} {job : Job}
  {print : Cursor → Option Flags → PassM Doc} {options : Options} {marked : Option NodeId}

theorem performs_elements [TextWidth] (h : Parsed t) (hprint : Prints t a print n)
    {places : List Cursor} {ns : List NodeId} (hplaces : List.Forall₂ (At t) places ns)
    (hns : ∀ m ∈ ns, m < n ∧ t.Below t.root m)
    (hapart : ns.Pairwise fun m k => (t.node m).span.Apart (t.node k).span)
    (hfresh : ∀ m ∈ ns, Fresh t s m) :
    Performs t ((places.mapM Rule.print).run (answer nested job print)) s (ns.flatMap (walk t a))
      (fun m => ∃ k ∈ ns, t.Reaches k m) fun docs => docs.length = ns.length := by
  induction hplaces generalizing s with
  | nil => exact .ofPure rfl
  | @cons place m places ns hplace _ ih =>
    rw [List.forall_mem_cons] at hns hfresh
    rw [List.pairwise_cons] at hapart
    rw [List.mapM_cons, List.flatMap_cons]
    have hfirst := hprint.node m place s hns.1.1 (.inr hns.1.2) hplace hfresh.1
    refine Performs.mono (?_ : Performs t _ s _ (fun j => t.Reaches m j ∨ ∃ k ∈ ns, t.Reaches k j)
      fun docs => docs.length = (m :: ns).length) ?_ fun _ => id
    · refine (performs_print hfirst).run_bind_union fun doc s' _ hs => ?_
      have hfresh' : ∀ k ∈ ns, Fresh t s' k := fun k hk =>
        (hfresh.2 k hk).advance hs fun j hj hj' =>
          quasi_of_reaches h hns.1.2 (hapart.1 k hk) hj hj'
      exact (ih hns.2 hapart.2 hfresh').run_bind_last fun docs s'' hdocs _ =>
        .ofPure (congrArg (· + 1) hdocs)
    · rintro j (hj | ⟨k, hk, hj⟩)
      · exact ⟨m, List.mem_cons_self, hj⟩
      · exact ⟨k, List.mem_cons_of_mem _ hk, hj⟩

theorem builds_weave (doc : Doc) (quasis expressions : List Doc) :
    (weave doc quasis expressions).Builds := by
  induction quasis generalizing doc expressions with
  | nil => exact trivial
  | cons quasi quasis ih =>
    cases expressions with
    | nil => exact fun _ => ih _ _
    | cons expression expressions => exact fun _ _ _ _ _ => ih _ _

section Node

variable (h : Parsed t) (hr : t.Reaches t.root n) (hp : At t place n) (hprint : Prints t a print n)
include h hr hp hprint

variable [TextWidth]

theorem performs_printList {name : String} {ns : List NodeId}
    (hf : (t.node n).field? name = some (.list (ns.map .node)))
    (hns : ∀ m ∈ ns, m ∈ (t.node n).children)
    (hapart : ns.Pairwise fun m k => (t.node m).span.Apart (t.node k).span)
    (hfresh : ∀ m ∈ ns, Fresh t s m) :
    Performs t ((Rule.printList place name).run (answer nested job print)) s
      (ns.flatMap (walk t a)) (fun m => ∃ k ∈ ns, t.Reaches k m)
        fun docs => docs.length = ns.length := by
  refine performs_elements h hprint (hp.forall₂_elements hf) (fun m hm => ?_) hapart hfresh
  exact ⟨h.wellNested.earlier n m (hns m hm), hr.below_child (hns m hm)⟩

theorem performs_row {name : String}
    (hf : (t.node n).field? name = some (.list ((t.node n).children.map .node)))
    (hfresh : Fresh t s n) :
    Performs t ((Rule.printList place name).run (answer nested job print)) s
      ((t.node n).children.flatMap (walk t a)) (t.Below n)
      fun docs => docs.length = (t.node n).children.length :=
  (performs_printList h hr hp hprint hf (fun _ => id) (h.wellNested.apart n) fun _ hm =>
    hfresh.child hm).mono (fun _ ⟨_, hk, hm⟩ => hm.below hk) fun _ => id

theorem performs_programRule (hkind : (t.node n).kind = "Program")
    (hf : (t.node n).field? "body" = some (.list ((t.node n).children.map .node)))
    (hfresh : Fresh t s n) :
    Performs t ((programRule false { tree := t, options, attachments := a } place).run
      (answer nested (hostJob t a options marked) print)) s
      ((t.node n).children.flatMap (walk t a) ++ inner t a n) (t.Below n) fun _ => True := by
  have hinner : inner t a n = (a.placed place.node .dangling).map .comment := by
    rw [inner, hp.node_eq, if_pos (by simp [printsDangling, hkind])]
  rw [hinner]
  refine (performs_row h hr hp hprint hf hfresh).run_bind fun body s' _ _ => ?_
  refine (performs_danglingComments rfl { tree := t, options, attachments := a } place).run_bind_last
    fun dangling s'' _ _ => performs_builds ?_
  exact fun _ _ _ => trivial

theorem performs_listRule (hkind : (t.node n).kind = "List")
    (hf : (t.node n).field? "items" = some (.list ((t.node n).children.map .node)))
    (hfresh : Fresh t s n) :
    Performs t ((listRule { tree := t, options, attachments := a } place).run
      (answer nested (hostJob t a options marked) print)) s
      ((t.node n).children.flatMap (walk t a) ++ inner t a n) (t.Below n) fun _ => True := by
  refine (performs_row h hr hp hprint hf hfresh).run_bind fun docs s' hdocs _ => ?_
  have hprints : printsDangling (t.node n) = docs.isEmpty := by
    have hempty : docs.isEmpty = (t.node n).children.isEmpty := by
      rw [Bool.eq_iff_iff, List.isEmpty_iff_length_eq_zero, List.isEmpty_iff_length_eq_zero, hdocs]
    simp [printsDangling, hempty, hkind]
  rw [inner, hprints, ← hp.node_eq]
  split
  · refine (performs_danglingComments rfl { tree := t, options, attachments := a } place).run_bind_last
      fun dangling s'' _ _ => performs_builds ?_
    exact fun _ _ _ => trivial
  · apply performs_builds
    exact fun _ _ _ _ _ _ _ _ _ _ => trivial

theorem performs_templateRule {qs es : List NodeId} (hkind : (t.node n).kind = "Template")
    (hchildren : (t.node n).children = qs ++ es)
    (hqf : (t.node n).field? "quasis" = some (.list (qs.map .node)))
    (hef : (t.node n).field? "expressions" = some (.list (es.map .node)))
    (hfresh : Fresh t s n) :
    Performs t ((templateRule place).run (answer nested (hostJob t a options marked) print)) s
      ((t.node n).children.flatMap (walk t a) ++ inner t a n) (t.Below n) fun _ => True := by
  have hinner : inner t a n = [] := inner_eq_nil (.inr hkind)
  have hapart := h.wellNested.apart n
  rw [hchildren] at hapart
  obtain ⟨hqs, hes, hboth⟩ := List.pairwise_append.mp hapart
  have hqmem : ∀ q ∈ qs, q ∈ (t.node n).children :=
    fun q hq => hchildren ▸ List.mem_append_left _ hq
  have hemem : ∀ e ∈ es, e ∈ (t.node n).children :=
    fun e he => hchildren ▸ List.mem_append_right _ he
  rw [hchildren, hinner, List.append_nil, List.flatMap_append]
  refine Performs.mono (?_ : Performs t _ s _
    (fun m => (∃ k ∈ qs, t.Reaches k m) ∨ ∃ k ∈ es, t.Reaches k m) _) (fun m hm => ?_) fun _ => id
  · refine (performs_printList h hr hp hprint hqf hqmem hqs fun q hq =>
      hfresh.child (hqmem q hq)).run_bind_union fun quasis s' _ hs => ?_
    have hfresh' : ∀ e ∈ es, Fresh t s' e := by
      intro e he
      apply (hfresh.child (hemem e he)).advance hs
      rintro m ⟨q, hq, hm⟩ hm'
      exact quasi_of_reaches h (hr.below_child (hqmem q hq)) (hboth q hq e he) hm hm'
    refine (performs_printList h hr hp hprint hef hemem hes hfresh').run_bind_last
      fun expressions s'' _ _ => performs_builds ?_
    refine (Rule.builds_build _).bind fun _ => (builds_weave _ _ _).bind fun _ => ?_
    exact fun _ _ => trivial
  · rcases hm with ⟨k, hk, hm⟩ | ⟨k, hk, hm⟩
    · exact hm.below (hqmem k hk)
    · exact hm.below (hemem k hk)

omit h hr in
theorem performs_leaf {name : String} {content : Text}
    (hf : (t.node n).field? name = some (.str content)) :
    Performs t ((Rule.printField place name).run (answer nested job print)) s [] region
      fun _ => True :=
  performs_print ((hprint.text _ content s (hp.value_enter hf)).mono (fun _ => False.elim) fun _ => id)

/-- The rule of a node makes the steps of its children and then those of the comments inside it. -/
theorem performs_rule (hfresh : Fresh t s n) :
    Performs t ((rule false { tree := t, options, attachments := a } place none).run
      (answer nested (hostJob t a options marked) print)) s
      ((t.node n).children.flatMap (walk t a) ++ inner t a n) (t.Below n) fun _ => True := by
  have hleaf : (t.node n).children = [] → (t.node n).kind ∈ leafKinds →
      (t.node n).children.flatMap (walk t a) ++ inner t a n = [] := by
    intro hchildren hk
    rw [hchildren, inner_eq_nil (.inl hk)]
    rfl
  cases (h.shaped_of_reaches hr).form with
  | ident kind children field | quasi kind children field =>
    rw [hleaf children (by rw [kind]; decide)]
    simp only [rule, hp.nodeHere_eq, kind]
    exact performs_leaf hp hprint field
  | embed kind children =>
    rw [hleaf children (by rw [kind]; decide)]
    simp only [rule, hp.nodeHere_eq, kind]
    exact performs_builds (Rule.builds_build _)
  | list kind _ field =>
    simp only [rule, hp.nodeHere_eq, kind]
    exact performs_listRule h hr hp hprint kind field hfresh
  | template kind children _ literals holes =>
    simp only [rule, hp.nodeHere_eq, kind]
    exact performs_templateRule h hr hp hprint kind children literals holes hfresh
  | program kind _ field =>
    simp only [rule, hp.nodeHere_eq, kind]
    exact performs_programRule h hr hp hprint kind field hfresh

end Node

section Embed

variable (hnested : ∀ name source options, Keeps Session.trail (nested name source options))
  (hstrict : options.strict = false)
include hnested hstrict

variable [TextWidth]

theorem performs_runEmbed (hp : At t place n) :
    Performs t (runEmbed nested (hostJob t a options marked) print place) s [] region
      fun doc => doc = none ∨ (t.node n).kind = "Embed" := by
  rw [runEmbed_eq]
  split
  · exact .ofPure (.inl rfl)
  · refine (performs_note rfl).bind_last fun _ s' _ _ => ?_
    have hcatch : (fun failure : Failure => if (hostJob t a options marked).scene.options.strict
        then throw failure else pure none : Failure → PassM (Option Doc)) = fun _ => pure none := by
      funext failure
      have hloose : (hostJob t a options marked).scene.options.strict = false := hstrict
      exact if_neg (by rw [hloose]; decide)
    rw [hcatch]
    change Performs t (tryCatch ((embed _ place).run _) _) _ _ _ _
    by_cases hk : (t.node n).kind = "Embed"
    · rw [hp.embed_eq hk]
      refine (Performs.tryCatch_none ?_).mono (fun _ => id) fun _ _ => .inr hk
      refine (keeps_ledger_ofSession (hnested _ _ _)).bind fun doc =>
        Rule.Builds.keeps ?_ fun _ => rfl
      exact fun _ _ _ _ => trivial
    · rw [hp.embed_eq_none hk]
      exact .ofPure (.inl rfl)

theorem performs_printContent (h : Parsed t) (hr : t.Reaches t.root n) (hp : At t place n)
    (hprint : Prints t a print n) (hfresh : Fresh t s n) :
    Performs t (printContent nested (hostJob t a options marked) print place n none) s
      (if isMarked t a n then [.reproduced n]
        else (t.node n).children.flatMap (walk t a) ++ inner t a n) (t.Below n) fun _ => True := by
  have hignored : (hostJob t a options marked).grammar.isIgnored
      (hostJob t a options marked).scene.attachments place = isMarked t a n := hp.isIgnored_eq
  unfold printContent
  rw [hignored]
  split
  · exact performs_reproduce rfl n
  · refine (performs_runEmbed hnested hstrict hp).bind_quiet fun doc s' hdoc hs => ?_
    cases doc with
    | some doc =>
      have hleaf : (t.node n).kind ∈ leafKinds := by
        rw [hdoc.resolve_left (Option.some_ne_none doc)]
        decide
      rw [(h.shaped_of_reaches hr).children_eq_nil hleaf, inner_eq_nil (.inl hleaf)]
      exact .ofPure trivial
    | none =>
      refine (performs_note rfl).bind_quiet fun _ s'' _ hs' => ?_
      exact performs_rule h hr hp hprint fun m hm => hfresh m (hs m (hs' m hm))

/-- A node is printed along the way through it. -/
theorem performs_printNode (h : Parsed t) (hr : t.Reaches t.root n) (hp : At t place n)
    (hprint : Prints t a print n) (hfresh : Fresh t s n) :
    Performs t (printNode nested (hostJob t a options marked) print place n none) s (walk t a n)
      (t.Below n) fun _ => True := by
  rw [printNode_eq, walk_eq h.wellNested]
  refine (performs_printContent hnested hstrict h hr hp hprint hfresh).bind fun doc s' _ _ => ?_
  have haround : Performs t (printAround nested (hostJob t a options marked) print place n doc) s'
      (fringe a n) (t.Below n) fun _ => True := performs_printAround rfl rfl n doc
  exact haround.bind_last fun commented s'' _ _ => (performs_note rfl).bind_quiet fun _ _ _ _ =>
    .ofPure trivial

theorem prints_printAt (h : Parsed t) (ha : Tidy t a) (depth : Nat) (hdepth : n < depth) :
    Prints t a (printAt nested (hostJob t a options marked) depth) n := by
  induction depth generalizing n with
  | zero => cases hdepth
  | succ depth ih =>
    constructor
    · intro m place s hm hr hp hfresh
      unfold printAt
      rw [hp.value]
      dsimp only
      refine Performs.ofGet.bind_quiet fun s' s'' hs' hcache => ?_
      subst hs'
      split
      · rename_i doc hdoc
        have hmem : m ∈ s'.cache := Std.TreeMap.mem_iff_isSome_getElem?.mpr (by rw [hdoc]; rfl)
        rw [walk_quasi h ha (h.reaches_lt_size hr) (hfresh m hmem (t.reaches_self m))]
        exact .ofPure trivial
      · have hchildren := ih (Nat.lt_of_lt_of_le hm (Nat.le_of_lt_succ hdepth))
        have hfresh' : Fresh t s'' m := fun j hj => hfresh j (hcache j hj)
        refine ((performs_printNode hnested hstrict h hr hp hchildren hfresh').mono (fun _ => .inr)
          fun _ => id).bind_last fun doc s₁ _ _ => ?_
        exact ((performs_remember m doc).mono (fun _ => .inl) fun _ => id).bind_last
          fun _ _ _ _ => .ofPure trivial
    · intro place content s hvalue
      unfold printAt
      rw [hvalue]
      exact .ofDoc _

end Embed

theorem Once.exists_shows (h : Once t steps c) (hc : c ∈ t.commentIds) :
    ∃ step ∈ steps, step.Shows t c := by
  rcases h with ⟨⟨n, hn, hin⟩, -⟩ | ⟨-, hcount⟩
  · exact ⟨.reproduced n, hn, hc, hin⟩
  · refine ⟨.comment c, List.count_pos_iff.mp ?_, rfl⟩
    rw [hcount]
    exact Nat.one_pos

theorem once_walk_root (h : Parsed t) (ha : Tidy t a) (hc : c ∈ t.commentIds) :
    Once t (walk t a t.root) c := by
  obtain ⟨scope, hin, hh⟩ := ha.housed c hc
  exact once_walk h ha hc hin hh (t.reaches_self _) hin.reaches

theorem performs_checkComments (hs : ∀ c ∈ job.scene.tree.commentIds, c ∈ s.printed) :
    Performs t (checkComments job) s [] region fun _ => True :=
  ⟨(), s, run_checkComments_eq_ok_iff.mpr ⟨rfl, hs⟩, trivial, .of_session rfl rfl rfl⟩

section Tree

variable [TextWidth]

theorem performs_printTree_of_root {job : Job} {s : PassState} {steps : List Step}
    {region : NodeId → Prop}
    (hprint : Performs job.scene.tree (printAt nested job (depthLimit job.scene.tree)
      (.atRoot job.scene.tree) none) s steps region fun _ => True)
    (hshown : ∀ c ∈ job.scene.tree.commentIds, ∃ step ∈ steps, step.Shows job.scene.tree c) :
    Performs job.scene.tree (printTree nested job) s steps region fun _ => True := by
  rw [printTree_eq]
  refine hprint.bind_last fun doc s _ hs => ?_
  have hshifted : Performs job.scene.tree (shifted job.scene.options doc) s [] region
      fun _ => True := by
    unfold shifted
    split
    · exact .ofDoc _
    · exact .ofPure trivial
  refine hshifted.bind_last fun doc s' _ hs' => ?_
  refine (Performs.ofDoc _).bind_last fun _ s'' _ hs'' => ?_
  refine (performs_checkComments fun c hc => ?_).bind_last fun _ _ _ _ => .ofPure trivial
  obtain ⟨step, hstep, hshows⟩ := hshown c hc
  exact hs''.kept c (hs'.kept c (hs.shown step hstep c hshows))

/-- Printing a toy tree takes the way from its root, and no comment is missing at the end. -/
theorem performs_printTree
    (hnested : ∀ name source options, Keeps Session.trail (nested name source options))
    (hstrict : options.strict = false) (h : Parsed t) (ha : Tidy t a) (session : Session) :
    Performs t (printTree nested (hostJob t a options marked)) { session } (walk t a t.root)
      (t.Reaches t.root) fun _ => True := by
  have hlimit : t.root + 1 < depthLimit t := Nat.lt_of_succ_lt (add_three_le_depthLimit h.root_lt)
  have hprints :
      Prints t a (printAt nested (hostJob t a options marked) (depthLimit t)) (t.root + 1) :=
    prints_printAt hnested hstrict h ha (depthLimit t) hlimit
  have hprint := hprints.node t.root (.atRoot t) { session } (Nat.lt_succ_self _) (t.reaches_self _)
    ⟨rfl, rfl⟩ fun m hm => by simp at hm
  exact performs_printTree_of_root hprint fun c hc => (once_walk_root h ha hc).exists_shows hc

/-- A pass over a parsed toy tree that is not strict succeeds, and it takes the way through the
tree. -/
theorem exists_overTree
    (hnested : ∀ name source options, Keeps Session.trail (nested name source options))
    (hstrict : options.strict = false) (h : Parsed t) :
    ∃ a events doc session, assignComments policy t = .ok (a, events) ∧ Tidy t a ∧
      (overTree nested none (grammar false) options t).run.run {} = (.ok doc, session) ∧
      session.trail = walk t a t.root := by
  obtain ⟨a, events, hassign, ha, hevents⟩ := exists_tidy h
  have hprint : Performs t (printTree nested
      (hostJob t a options (options.cursor.bind ((grammar false).nodeAt? t))))
      { session := noted none events {} } (walk t a t.root) (t.Reaches t.root) fun _ => True :=
    performs_printTree hnested hstrict h ha _
  obtain ⟨doc, s, hrun, -, hs⟩ := hprint
  refine ⟨a, events, doc, s.session, hassign, ha, ?_, ?_⟩
  · exact run_overTree nested rfl rfl hassign hrun
  · calc s.session.trail = (noted none events {}).trail ++ walk t a t.root := hs.trail
      _ = walk t a t.root := by rw [trail_noted hevents]; rfl

end Tree

/-- For every text that the toy parser accepts, a pass that is not strict succeeds, whatever else
its options say. It prints each comment once, except those in a node that it reproduces as
written, which it does not print. -/
theorem layoutTree_prints_once [TextWidth] {text : Text} {t : Tree} {options : Options}
    (hparse : parse text = .ok t) (hstrict : options.strict = false) :
    ∃ doc session, layoutTree (grammar false) languages options t = (.ok doc, session) ∧
      ∀ c ∈ t.commentIds,
        (Covered t session.trail c → session.trail.count (.comment c) = 0) ∧
        (¬ Covered t session.trail c → session.trail.count (.comment c) = 1) := by
  have h := parsed_of_parse hparse
  have hnested := keeps_formatWithin languages (nestingLimit t.source.text)
  obtain ⟨a, events, doc, session, -, ha, hlayout, htrail⟩ := exists_overTree hnested hstrict h
  refine ⟨doc, session, hlayout, fun c hc => ?_⟩
  rw [htrail]
  rcases once_walk_root h ha hc with ⟨hcovered, hcount⟩ | ⟨hnot, hcount⟩
  · exact ⟨fun _ => hcount, fun hnot => absurd hcovered hnot⟩
  · exact ⟨fun hcovered => absurd hcovered hnot, fun _ => hcount⟩

def markedSample : Text :=
  "// toy-ignore\n(b /*c*/) \"x$\x7b /*d*/ y\x7d\" %nope\x7bz\x7d // e".toList

section Sample

attribute [local instance] TextWidth.perCharacter

theorem layoutTree_prints_once_markedSample :
    ∃ t, parse markedSample = .ok t ∧ ∃ doc session,
      layoutTree (grammar false) languages {} t = (.ok doc, session) ∧
      session.trail = [.reproduced 1, .comment 0, .comment 2, .comment 3] ∧
      ∀ c ∈ t.commentIds,
        (Covered t session.trail c → session.trail.count (.comment c) = 0) ∧
        (¬ Covered t session.trail c → session.trail.count (.comment c) = 1) := by
  have htrail : ((parse markedSample).map fun t =>
      (layoutTree (grammar false) languages {} t).2.trail) =
      .ok [.reproduced 1, .comment 0, .comment 2, .comment 3] := by
    decide +kernel
  cases hparse : parse markedSample with
  | error e =>
    rw [hparse] at htrail
    cases htrail
  | ok t =>
    have hstrict : ({} : Options).strict = false := rfl
    obtain ⟨doc, session, hlayout, hcount⟩ := layoutTree_prints_once hparse hstrict
    rw [hparse] at htrail
    have htrail := Except.ok.inj htrail
    dsimp only at htrail
    rw [hlayout] at htrail
    exact ⟨t, rfl, doc, session, hlayout, htrail, hcount⟩

end Sample

end Toy

end SourceLayout
