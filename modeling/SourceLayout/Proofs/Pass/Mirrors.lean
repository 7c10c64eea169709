import Mathlib.Data.List.Forall2
import SourceLayout.Proofs.Doc.Plain
import SourceLayout.Proofs.Pass.Parts
import SourceLayout.Toy.Grammar

/-! # Rules that do not look at documents

A rule gets documents and hands them on. If it never looks into them, then two runs of it that get
different answers put the same questions, about documents that correspond to each other. Nor does
such a rule depend on the way to the value that it is run for, as long as it is the same value below
the same node.
-/

namespace SourceLayout

namespace Cursor

/-- Two cursors stand at the same value below the same node, on whichever ways. -/
structure Level (c c' : Cursor) : Prop where
  tree_eq : c.tree = c'.tree
  value_eq : c.value = c'.value
  node_eq : c.node = c'.node

variable {c c' : Cursor}

theorem node_push (c : Cursor) (key : Option Key) (value : Value) :
    (c.push key value).node = value.node?.getD c.node := by
  rw [node_eq_headD, node_eq_headD, path_push]
  cases value.node? <;> rfl

theorem Level.push (h : c.Level c') (key : Option Key) (value : Value) :
    (c.push key value).Level (c'.push key value) where
  tree_eq := h.tree_eq
  value_eq := rfl
  node_eq := by rw [node_push, node_push, h.node_eq]

theorem Level.enter (h : c.Level c') (name : String) : (c.enter name).Level (c'.enter name) := by
  unfold Cursor.enter
  rw [h.value_eq, h.tree_eq]
  split
  · exact h.push _ _
  · exact h.push _ _

theorem Level.elements (h : c.Level c') : List.Forall₂ Level c.elements c'.elements := by
  unfold Cursor.elements
  rw [h.value_eq, List.forall₂_map_left_iff, List.forall₂_map_right_iff, List.forall₂_same]
  rintro ⟨value, i⟩ _
  exact h.push _ _

theorem Level.nodeHere_eq (h : c.Level c') : c.nodeHere = c'.nodeHere := by
  rw [nodeHere, nodeHere, h.tree_eq, h.node_eq]

structure Allows (ok : Cursor → Prop) (place : Cursor) : Prop where
  field : ∀ name, ok (place.enter name)
  element : ∀ name, ∀ c ∈ (place.enter name).elements, ok c

end Cursor

/-- Two programs put corresponding questions as long as they get corresponding answers, and end in
values that `P` holds of. What corresponds may become more. -/
def Program.Alike {Q α β : Type} (like : (Doc → Doc → Prop) → Q → Q → Prop)
    (P : (Doc → Doc → Prop) → α → β → Prop) :
    Program Q α → Program Q β → (Doc → Doc → Prop) → Prop
  | .done a, .done b, same => P same a b
  | .ask q next, .ask q' next', same => like same q q' ∧
    ∀ same' : Doc → Doc → Prop, (∀ d d', same d d' → same' d d') → ∀ doc doc', same' doc doc' →
      Alike like P (next doc) (next' doc') same'
  | _, _, _ => False

theorem Program.Alike.bind {Q α α' β β' : Type} {like : (Doc → Doc → Prop) → Q → Q → Prop}
    {P : (Doc → Doc → Prop) → α → α' → Prop} {R : (Doc → Doc → Prop) → β → β' → Prop}
    {x : Program Q α} {y : Program Q α'} {f : α → Program Q β} {g : α' → Program Q β'}
    {same : Doc → Doc → Prop} (hx : Alike like P x y same)
    (hf : ∀ same' a b, (∀ d d', same d d' → same' d d') → P same' a b →
      Alike like R (f a) (g b) same') :
    Alike like R (x >>= f) (y >>= g) same := by
  induction x generalizing y same with
  | done a =>
    cases y with
    | done b => exact hf same a b (fun _ _ => id) hx
    | ask q' next' => exact hx.elim
  | ask q next ih =>
    cases y with
    | done b => exact hx.elim
    | ask q' next' =>
      refine ⟨hx.1, fun same' hgrows doc doc' hdoc => ih doc (hx.2 same' hgrows doc doc' hdoc) ?_⟩
      exact fun same'' a b hgrows' => hf same'' a b fun d d' hd => hgrows' d d' (hgrows d d' hd)

/-- Two requests are the same but for documents that correspond and ways to a value. -/
inductive Request.Alike (ok : Cursor → Prop) (same : Doc → Doc → Prop) : Request → Request → Prop
  | build (c : Construction (Doc × Doc)) (h : ∀ p ∈ c.operands, same p.1 p.2) :
    Alike ok same (.build (c.map Prod.fst)) (.build (c.map Prod.snd))
  | print {place place' : Cursor} (hlevel : place.Level place') (hok : ok place) :
    Alike ok same (.print place none) (.print place' none)
  | comment (c : CommentId) : Alike ok same (.comment c) (.comment c)
  | format (language source : Text) (options : Options) :
    Alike ok same (.format language source options) (.format language source options)
  | refuse (message : Text) : Alike ok same (.refuse message) (.refuse message)

namespace Rule

variable {α α' β β' γ γ' : Type} {P : (Doc → Doc → Prop) → α → α' → Prop}
  {R : (Doc → Doc → Prop) → β → β' → Prop} {ok : Cursor → Prop} {known : List (Doc × Doc)}

/-- Two rules put the same questions, the documents of which correspond if the given ones and the
answers do. They ask for values only where `ok` allows it. -/
def Mirrors (ok : Cursor → Prop) (P : (Doc → Doc → Prop) → α → α' → Prop)
    (known : List (Doc × Doc)) (x : Rule α) (y : Rule α') : Prop :=
  ∀ same : Doc → Doc → Prop, (∀ p ∈ known, same p.1 p.2) →
    Program.Alike (Request.Alike ok) P x y same

abbrev MirrorsDoc (ok : Cursor → Prop) (known : List (Doc × Doc)) (x y : Rule Doc) : Prop :=
  Mirrors ok (fun same => same) known x y

abbrev MirrorsDocs (ok : Cursor → Prop) (known : List (Doc × Doc)) (x y : Rule (List Doc)) : Prop :=
  Mirrors ok (fun same docs docs' => ∃ ps : List (Doc × Doc), docs = ps.map Prod.fst ∧
    docs' = ps.map Prod.snd ∧ ∀ p ∈ ps, same p.1 p.2) known x y

theorem mirrors_pure {p : Doc × Doc} (h : p ∈ known) : MirrorsDoc ok known (pure p.1) (pure p.2) :=
  fun _ hknown => hknown p h

theorem mirrors_request {q q' : Request}
    (h : ∀ same : Doc → Doc → Prop, (∀ p ∈ known, same p.1 p.2) → Request.Alike ok same q q') :
    MirrorsDoc ok known (request q) (request q') :=
  fun same hknown => ⟨h same hknown, fun _ _ _ _ hdoc => hdoc⟩

theorem mirrors_build (c : Construction (Doc × Doc)) (h : ∀ p ∈ c.operands, p ∈ known) :
    MirrorsDoc ok known (build (c.map Prod.fst)) (build (c.map Prod.snd)) :=
  mirrors_request fun _ hknown => .build c fun p hp => hknown p (h p hp)

theorem mirrors_line (kind : LineKind) : MirrorsDoc ok known (line kind) (line kind) :=
  mirrors_build (.line kind) nofun

theorem mirrors_fixed (content : Text) : MirrorsDoc ok known (fixed content) (fixed content) :=
  mirrors_build (.text .fixed content) nofun

theorem mirrors_concat (ps : List (Doc × Doc)) (h : ∀ p ∈ ps, p ∈ known) :
    MirrorsDoc ok known (concat (ps.map Prod.fst)) (concat (ps.map Prod.snd)) :=
  mirrors_build (.concat ps) h

theorem Mirrors.bind {x y : Rule Doc} {f : Doc → Rule β} {g : Doc → Rule β'}
    (hx : MirrorsDoc ok known x y)
    (hf : ∀ p : Doc × Doc, Mirrors ok R (p :: known) (f p.1) (g p.2)) :
    Mirrors ok R known (x >>= f) (y >>= g) := by
  intro same hknown
  refine (hx same hknown).bind fun same' doc doc' hgrows hdoc => hf (doc, doc') same' ?_
  exact List.forall_mem_cons.mpr ⟨hdoc, fun p hp => hgrows _ _ (hknown p hp)⟩

theorem Mirrors.bind_list {x y : Rule (List Doc)} {f : List Doc → Rule β} {g : List Doc → Rule β'}
    (hx : MirrorsDocs ok known x y)
    (hf : ∀ ps : List (Doc × Doc),
      Mirrors ok R (ps ++ known) (f (ps.map Prod.fst)) (g (ps.map Prod.snd))) :
    Mirrors ok R known (x >>= f) (y >>= g) := by
  intro same hknown
  refine (hx same hknown).bind fun same' docs docs' hgrows hdocs => ?_
  obtain ⟨ps, rfl, rfl, hps⟩ := hdocs
  exact hf ps same' (List.forall_mem_append.mpr ⟨hps, fun p hp => hgrows _ _ (hknown p hp)⟩)

theorem mirrors_mapM {S : γ → γ' → Prop} {rule : γ → Rule Doc} {rule' : γ' → Rule Doc}
    {xs : List γ} {ys : List γ'} (hxs : List.Forall₂ S xs ys)
    (h : ∀ x y known, S x y → MirrorsDoc ok known (rule x) (rule' y)) :
    MirrorsDocs ok known (xs.mapM rule) (ys.mapM rule') := by
  induction hxs generalizing known with
  | nil => exact fun _ _ => ⟨[], rfl, rfl, nofun⟩
  | cons hx _ ih =>
    rw [List.mapM_cons, List.mapM_cons]
    refine (h _ _ known hx).bind fun p => ih.bind_list fun ps same hknown => ?_
    refine ⟨p :: ps, rfl, rfl, fun q hq => hknown q ?_⟩
    rcases List.mem_cons.mp hq with rfl | hq
    · simp
    · simp [hq]

theorem mirrors_mapM_same {rule : γ → Rule Doc} {xs : List γ}
    (h : ∀ x known, MirrorsDoc ok known (rule x) (rule x)) :
    MirrorsDocs ok known (xs.mapM rule) (xs.mapM rule) :=
  mirrors_mapM (List.forall₂_same.mpr fun _ _ => rfl) fun x _ known heq => heq ▸ h x known

variable (g : Grammar) (scene : Scene)

theorem mirrors_leadingComment (c : CommentId) :
    MirrorsDoc ok known (leadingComment g scene c) (leadingComment g scene c) := by
  have hseparator : ∀ known, MirrorsDoc ok known (leadingSeparator g scene (scene.tree.comment c))
      (leadingSeparator g scene (scene.tree.comment c)) := by
    intro known
    unfold leadingSeparator
    split
    · exact mirrors_line _
    · split
      · split
        · exact mirrors_line _
        · exact mirrors_line _
      · exact mirrors_fixed _
  refine Mirrors.bind (mirrors_request fun _ _ => .comment c) fun contents => ?_
  refine (hseparator _).bind fun separator => ?_
  refine (mirrors_build (.append contents separator) (by simp [Construction.operands])).bind
    fun doc => ?_
  split
  · exact (mirrors_line _).bind fun blank =>
      mirrors_build (.append doc blank) (by simp [Construction.operands])
  · exact mirrors_pure (by simp)

theorem mirrors_heldBack {blank contents : Doc × Doc} (hblank : blank ∈ known)
    (hcontents : contents ∈ known) :
    MirrorsDoc ok known (heldBack blank.1 contents.1) (heldBack blank.2 contents.2) := by
  refine (mirrors_line _).bind fun first => ?_
  refine (mirrors_concat [first, blank, contents] (by simp [hblank, hcontents])).bind fun doc => ?_
  exact mirrors_build (.suffix doc) (by simp [Construction.operands])

theorem mirrors_trailingComment (c : CommentId) :
    MirrorsDoc ok known (trailingComment g scene c) (trailingComment g scene c) := by
  refine Mirrors.bind (mirrors_request fun _ _ => .comment c) fun contents => ?_
  dsimp only
  split
  · split
    · exact (mirrors_line _).bind fun blank => mirrors_heldBack (by simp) (by simp)
    · exact (mirrors_build .nil (by simp [Construction.operands])).bind fun blank =>
        mirrors_heldBack (by simp) (by simp)
  · refine (mirrors_fixed _).bind fun space => ?_
    refine (mirrors_concat [space, contents] (by simp)).bind fun doc => ?_
    split
    · exact mirrors_pure (by simp)
    · refine (mirrors_build (.suffix doc) (by simp [Construction.operands])).bind fun suffix => ?_
      refine (mirrors_build .breakParent (by simp [Construction.operands])).bind fun stop => ?_
      exact mirrors_build (.append suffix stop) (by simp [Construction.operands])

theorem mirrors_danglingComments {place place' : Cursor} (hlevel : place.Level place')
    (sameIndent : Bool) (keep : Comment → Bool) :
    MirrorsDoc ok known (danglingComments scene place sameIndent keep)
      (danglingComments scene place' sameIndent keep) := by
  unfold danglingComments
  rw [hlevel.node_eq]
  dsimp only
  split
  · exact mirrors_build .nil nofun
  · refine (mirrors_mapM_same fun c _ => mirrors_request fun _ _ => .comment c).bind_list
      fun docs => ?_
    refine (mirrors_line _).bind fun separator => ?_
    refine (mirrors_build (.intersperse docs separator) ?_).bind fun joined => ?_
    · simp only [Construction.operands, List.mem_cons, List.mem_append]
      exact fun p hp => hp.imp id .inl
    · split
      · exact mirrors_pure (by simp)
      · refine (mirrors_line _).bind fun first => ?_
        refine (mirrors_concat [first, joined] (by simp)).bind fun doc => ?_
        exact mirrors_build (.indent doc) (by simp [Construction.operands])

theorem mirrors_amidComments (n : NodeId) {doc : Doc × Doc} (hdoc : doc ∈ known) :
    MirrorsDoc ok known (amidComments g scene n doc.1) (amidComments g scene n doc.2) := by
  unfold amidComments
  dsimp only
  split
  · exact mirrors_pure hdoc
  · refine (mirrors_mapM_same fun c _ => mirrors_leadingComment g scene c).bind_list
      fun before => ?_
    refine (mirrors_mapM_same fun c _ => mirrors_trailingComment g scene c).bind_list
      fun after => ?_
    have hconcat : MirrorsDoc ok (after ++ (before ++ known))
        (concat ((before ++ doc :: after).map Prod.fst))
        (concat ((before ++ doc :: after).map Prod.snd)) := by
      apply mirrors_concat
      simp only [List.mem_append, List.mem_cons]
      rintro p (hp | rfl | hp)
      · exact .inr (.inl hp)
      · exact .inr (.inr hdoc)
      · exact .inl hp
    simpa only [List.map_append, List.map_cons] using hconcat

theorem mirrors_markedIf (marked : Bool) {doc : Doc × Doc} (hdoc : doc ∈ known) :
    MirrorsDoc ok known (markedIf marked doc.1) (markedIf marked doc.2) := by
  unfold markedIf
  split
  · refine (mirrors_build .cursor nofun).bind fun first => ?_
    refine (mirrors_build .cursor nofun).bind fun second => ?_
    exact mirrors_concat [first, doc, second] (by simp [hdoc])
  · exact mirrors_pure hdoc

theorem mirrors_surround (marked : Option NodeId) (n : NodeId) {doc : Doc × Doc}
    (hdoc : doc ∈ known) :
    MirrorsDoc ok known (surround g scene marked n doc.1) (surround g scene marked n doc.2) := by
  rw [surround_eq, surround_eq]
  exact (mirrors_amidComments g scene n hdoc).bind fun commented => mirrors_markedIf _ (by simp)

end Rule

/-- The rules of a grammar neither look at documents nor at the way to a value. They have values of
the fields printed, and comments are printed as written. -/
structure Grammar.Mirrors (g : Grammar) : Prop where
  preprocess : g.preprocess = none
  commentDoc : ∀ tree c, g.commentDoc tree c = Sketch.build (.verbatim c.text)
  isIgnored : ∀ (attachments : Attachments) {place place' : Cursor}, place.Level place' →
    g.isIgnored attachments place = g.isIgnored attachments place'
  printsOwnComments : ∀ {place place' : Cursor}, place.Level place' →
    g.printsOwnComments place = g.printsOwnComments place'
  rule : ∀ (ok : Cursor → Prop) scene {place place' : Cursor}, place.Level place' →
    place.Allows ok → Rule.MirrorsDoc ok [] (g.rule scene place none) (g.rule scene place' none)
  embed : ∀ (ok : Cursor → Prop) scene {place place' : Cursor}, place.Level place' →
    Rule.Mirrors ok (fun same doc doc' => (doc = none ∧ doc' = none) ∨
      ∃ d d', doc = some d ∧ doc' = some d' ∧ same d d') [] (g.embed scene place)
      (g.embed scene place')

namespace Toy

open Rule

variable {ok : Cursor → Prop} {known : List (Doc × Doc)} {scene : Scene} {place place' : Cursor}

variable (hlevel : place.Level place') (hok : place.Allows ok)
include hlevel hok

theorem mirrors_printList (name : String) :
    MirrorsDocs ok known (printList place name) (printList place' name) := by
  have hplaces : List.Forall₂ (fun c c' => ok c ∧ c.Level c') (place.enter name).elements
      (place'.enter name).elements :=
    (List.forall₂_and_left _ _).mpr ⟨hok.element name, (hlevel.enter name).elements⟩
  exact mirrors_mapM hplaces fun _ _ _ ⟨hok, hlevel⟩ => mirrors_request fun _ _ => .print hlevel hok

theorem mirrors_printField (name : String) :
    MirrorsDoc ok known (printField place name) (printField place' name) :=
  mirrors_request fun _ _ => .print (hlevel.enter name) (hok.field name)

theorem mirrors_programRule (skipDangling : Bool) :
    MirrorsDoc ok known (programRule skipDangling scene place)
      (programRule skipDangling scene place') := by
  have hjoin : ∀ (body : List (Doc × Doc)) (dangling : Doc × Doc),
      MirrorsDoc ok (dangling :: (body ++ known))
        (do build (.append (← build (.intersperse (body.map Prod.fst) (← line .hard))) dangling.1))
        (do build (.append (← build (.intersperse (body.map Prod.snd) (← line .hard))) dangling.2)) := by
    intro body dangling
    refine (mirrors_line _).bind fun separator => ?_
    refine (mirrors_build (.intersperse body separator) ?_).bind fun joined => ?_
    · simp only [Construction.operands, List.mem_cons, List.mem_append]
      exact fun p hp => hp.imp id fun hp => .inr (.inl hp)
    · exact mirrors_build (.append joined dangling) (by simp [Construction.operands])
  refine (mirrors_printList hlevel hok "body").bind_list fun body => ?_
  dsimp only
  split
  · exact (mirrors_build .nil (by simp [Construction.operands])).bind (hjoin body)
  · exact (mirrors_danglingComments scene hlevel _ _).bind (hjoin body)

theorem mirrors_listRule : MirrorsDoc ok known (listRule scene place) (listRule scene place') := by
  refine (mirrors_printList hlevel hok "items").bind_list fun items => ?_
  rw [List.isEmpty_map, List.isEmpty_map]
  split
  · refine (mirrors_danglingComments scene hlevel _ _).bind fun dangling => ?_
    refine (mirrors_fixed _).bind fun opening => (mirrors_fixed _).bind fun closing => ?_
    exact mirrors_concat [opening, dangling, closing] (by simp)
  · refine (mirrors_line _).bind fun separator => ?_
    refine (mirrors_build (.intersperse items separator) ?_).bind fun joined => ?_
    · simp only [Construction.operands, List.mem_cons, List.mem_append]
      exact fun p hp => hp.imp id .inl
    refine (mirrors_line _).bind fun first => ?_
    refine (mirrors_concat [first, joined] (by simp)).bind fun whole => ?_
    refine (mirrors_build (.indent whole) (by simp [Construction.operands])).bind fun inner => ?_
    refine (mirrors_fixed _).bind fun opening => (mirrors_line _).bind fun last => ?_
    refine (mirrors_fixed _).bind fun closing => ?_
    refine (mirrors_concat [opening, inner, last, closing] (by simp)).bind fun whole => ?_
    exact mirrors_build (.group whole) (by simp [Construction.operands])

omit hlevel hok in
theorem mirrors_weave {doc : Doc × Doc} {quasis expressions : List (Doc × Doc)} (hdoc : doc ∈ known)
    (hquasis : ∀ p ∈ quasis, p ∈ known) (hexpressions : ∀ p ∈ expressions, p ∈ known) :
    MirrorsDoc ok known (weave doc.1 (quasis.map Prod.fst) (expressions.map Prod.fst))
      (weave doc.2 (quasis.map Prod.snd) (expressions.map Prod.snd)) := by
  induction quasis generalizing known doc expressions with
  | nil => exact mirrors_pure hdoc
  | cons quasi quasis ih =>
    rw [List.forall_mem_cons] at hquasis
    have happend : ∀ p ∈ (Construction.append doc quasi).operands, p ∈ known := by
      simp [Construction.operands, hdoc, hquasis.1]
    cases expressions with
    | nil =>
      refine (mirrors_build (.append doc quasi) happend).bind fun doc => ?_
      have hnone : ∀ p ∈ ([] : List (Doc × Doc)), p ∈ doc :: known := by simp
      exact ih List.mem_cons_self (fun p hp => List.mem_cons_of_mem doc (hquasis.2 p hp)) hnone
    | cons expression expressions =>
      rw [List.forall_mem_cons] at hexpressions
      refine (mirrors_build (.append doc quasi) happend).bind fun doc => ?_
      refine (mirrors_fixed _).bind fun opening => (mirrors_fixed _).bind fun closing => ?_
      refine (mirrors_concat [opening, expression, closing] (by simp [hexpressions.1])).bind
        fun hole => ?_
      refine (mirrors_build (.append doc hole) (by simp [Construction.operands])).bind fun doc => ?_
      refine ih (by simp) (fun p hp => ?_) fun p hp => ?_
      · simp [hquasis.2 p hp]
      · simp [hexpressions.2 p hp]

theorem mirrors_templateRule : MirrorsDoc ok known (templateRule place) (templateRule place') := by
  refine (mirrors_printList hlevel hok "quasis").bind_list fun quasis => ?_
  refine (mirrors_printList hlevel hok "expressions").bind_list fun expressions => ?_
  refine (mirrors_fixed _).bind fun opening => ?_
  refine (mirrors_weave (by simp) (fun p hp => ?_) fun p hp => ?_).bind fun doc => ?_
  · simp [hp]
  · simp [hp]
  · refine (mirrors_fixed _).bind fun closing => ?_
    exact mirrors_build (.append doc closing) (by simp [Construction.operands])

/-- The rules of the toy language do not look at documents, nor at the way to a value. -/
theorem mirrors_rule (skipDangling : Bool) (flags : Option Flags) :
    MirrorsDoc ok known (rule skipDangling scene place flags)
      (rule skipDangling scene place' flags) := by
  unfold rule
  rw [hlevel.nodeHere_eq]
  dsimp only
  split
  · exact mirrors_programRule hlevel hok skipDangling
  · exact mirrors_printField hlevel hok "name"
  · exact mirrors_listRule hlevel hok
  · exact mirrors_templateRule hlevel hok
  · exact mirrors_printField hlevel hok "raw"
  · exact mirrors_build (.verbatim _) nofun
  · exact mirrors_request fun _ _ => .refuse _

omit hok in
theorem mirrors_embed :
    Mirrors ok (fun same doc doc' => (doc = none ∧ doc' = none) ∨
      ∃ d d', doc = some d ∧ doc' = some d' ∧ same d d') known (embed scene place)
      (embed scene place') := by
  unfold embed
  rw [hlevel.nodeHere_eq]
  dsimp only
  split
  · exact fun _ _ => .inl ⟨rfl, rfl⟩
  · have hcode : MirrorsDoc ok known
        (embedded scene ((place'.nodeHere.text? "lang").getD [])
          ((place'.nodeHere.text? "code").getD []))
        (embedded scene ((place'.nodeHere.text? "lang").getD [])
          ((place'.nodeHere.text? "code").getD [])) :=
      Mirrors.bind (mirrors_request fun _ _ => .format _ _ _) fun doc =>
        mirrors_build (.trimEnd doc) (by simp [Construction.operands])
    refine hcode.bind fun code => ?_
    refine (mirrors_build (.text .owned _) (by simp [Construction.operands])).bind fun opening => ?_
    refine (mirrors_fixed _).bind fun closing => ?_
    refine (mirrors_concat [opening, code, closing] (by simp)).bind fun doc same hknown => ?_
    exact .inr ⟨doc.1, doc.2, rfl, rfl, hknown doc (by simp)⟩

omit hlevel hok in
theorem mirrors_grammar (skipDangling : Bool) : (grammar skipDangling).Mirrors where
  preprocess := rfl
  commentDoc _ _ := rfl
  isIgnored attachments _ _ hlevel := by
    change isIgnored attachments _ = isIgnored attachments _
    rw [isIgnored, isIgnored, hlevel.value_eq, hlevel.tree_eq]
  printsOwnComments _ := rfl
  rule _ _ _ _ hlevel hok := mirrors_rule hlevel hok skipDangling none
  embed _ _ _ _ hlevel := mirrors_embed hlevel

end Toy

end SourceLayout
