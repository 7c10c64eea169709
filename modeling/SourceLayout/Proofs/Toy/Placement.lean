import SourceLayout.Proofs.Comment.Templates
import SourceLayout.Proofs.Comment.Ties
import SourceLayout.Proofs.Toy.Shape

/-! # Where the comments of a toy tree go

A comment of a toy tree lies directly in a program, a list or an interpolation of a template. It
is attached before or after an item there, or, where there is none, to the empty program or list
itself.
-/

namespace SourceLayout

namespace Toy

open CommentPolicy

abbrev policy : CommentPolicy := (grammar false).toCommentPolicy

theorem inert_policy : Assignment.Inert policy := ⟨fun _ => rfl, fun _ => rfl, rfl⟩

section Hole

variable {look : NodeId → Node} {qs : List NodeId} {i j : Nat}
  (hforward : ∀ n, (look n).span.start ≤ (look n).span.stop)
  (hqs : qs.Pairwise fun q q' => (look q).span.stop ≤ (look q').span.start)
include hforward hqs

theorem start_le_stop_of_le {q q' : NodeId} (hij : i ≤ j) (hq : qs[i]? = some q)
    (hq' : qs[j]? = some q') : (look q).span.start ≤ (look q').span.stop := by
  obtain ⟨hi, rfl⟩ := List.getElem?_eq_some_iff.mp hq
  obtain ⟨hj, rfl⟩ := List.getElem?_eq_some_iff.mp hq'
  rcases Nat.eq_or_lt_of_le hij with rfl | hlt
  · exact hforward _
  · have hle := List.pairwise_iff_getElem.mp hqs i j hi hj hlt
    exact Nat.le_trans (hforward _) (Nat.le_trans hle (hforward _))

theorem Hole.lt {place place' : Span} (h : Hole look qs i place) (h' : Hole look qs j place')
    (hij : i < j) : place.stop < place'.start := by
  obtain ⟨-, q, -, hq, -, hstop⟩ := h
  obtain ⟨q', -, hq', -, hstart, -⟩ := h'
  have hle := start_le_stop_of_le hforward hqs hij hq hq'
  omega

omit hforward hqs in
theorem Hole.inInterpolation {place : Span} (h : Hole look qs i place)
    (hplace : place.start < place.stop) :
    InInterpolation (qs.map fun q => (look q).span) i place.start := by
  obtain ⟨q, q', hq, hq', hstart, hstop⟩ := h
  refine ⟨(look q).span, (look q').span, by simp [hq], by simp [hq'], ?_, ?_⟩ <;> omega

theorem parted_quasis : Parted (qs.map fun q => (look q).span) where
  forward := List.forall_mem_map.mpr fun q _ => hforward q
  inOrder := (List.isChain_map _).mpr hqs.isChain

end Hole

variable {t : Tree} {n m scope : NodeId} {c : CommentId} {before after : Option NodeId}

theorem handed_iff (h : Parsed t) (hn : n < t.nodes.size) :
    Handed policy t n m ↔ m ∈ (t.node n).children ∧ (t.node m).kind ∈ itemKinds := by
  constructor
  · intro hm
    cases hm with
    | child hm hhold =>
      refine ⟨hm, ((h.shaped n hn).kind_of_child hm).resolve_right fun hk => ?_⟩
      exact absurd hk (bne_iff_ne.mp hhold)
    | @through _ u _ hu hnot hm =>
      have hk : (t.node u).kind = "Quasi" := by
        by_contra hne
        rw [show policy.canHold (t.node u) = true from bne_iff_ne.mpr hne] at hnot
        cases hnot
      obtain ⟨v, hv, -⟩ := hm.isBelow.exists_child
      rw [(h.shaped u (Nat.lt_trans (h.earlier n hn u hu) hn)).children_eq_nil (hk ▸ by decide)] at hv
      cases hv
  · rintro ⟨hm, hk⟩
    refine .child hm (bne_iff_ne.mpr fun hq => ?_)
    rw [hq] at hk
    exact absurd hk (by decide)

section Policy

variable {p : CommentPolicy}

theorem not_overlaps (h : Parsed t) (hc : c ∈ t.commentIds) (n : NodeId) : ¬ Overlaps p t c n := by
  rintro ⟨hb, -, hnot, hbefore, hafter⟩
  rcases h.clear n (h.below_lt_size hb) c hc with hapart | ⟨hin, -⟩
  · exact hapart.elim hbefore hafter
  · exact hnot hin

variable (hoff : ∀ n, p.offspring t n = none)
include hoff

theorem neighbours_eq_ok (h : Parsed t) (hc : c ∈ t.commentIds) : ∃ scope before after,
    Located p t c scope before after ∧
      (p.frontiers t).neighbours c = .ok (neighboursIn p t c scope before after) := by
  obtain ⟨n, hn, -⟩ | ⟨-, hlocated⟩ :=
    (p.frontiers t).neighbours_cases hoff h.wellNested (h.nonempty c hc)
  · exact absurd hn (not_overlaps h hc n)
  · exact hlocated

theorem exists_allNeighbours (h : Parsed t) : ∃ all, p.allNeighbours t = .ok all :=
  exists_mapM_eq_ok fun c hc => by
    obtain ⟨_, _, _, -, hok⟩ := neighbours_eq_ok hoff h hc
    exact ⟨_, hok⟩

theorem exists_located (h : Parsed t) {all : List Neighbours} (hall : p.allNeighbours t = .ok all)
    {d : Neighbours} (hd : d ∈ all) : ∃ scope before after,
      Located p t d.comment scope before after ∧
        d = neighboursIn p t d.comment scope before after := by
  obtain ⟨hc, hneighbours⟩ := neighbours_of_mem hall hd
  obtain ⟨scope, before, after, hl, hok⟩ := neighbours_eq_ok hoff h hc
  exact ⟨scope, before, after, hl, Except.ok.inj (hneighbours.symm.trans hok)⟩

end Policy

theorem scope_lt_size (h : Parsed t) {place : Span} (hs : Innermost policy t place t.root scope) :
    scope < t.nodes.size := h.reaches_lt_size hs.reaches

theorem open_scope (h : Parsed t) (hc : c ∈ t.commentIds)
    (hs : Innermost policy t (t.comment c).span t.root scope) :
    Open t.node (t.node scope) (t.comment c).span := by
  rcases hs.around with rfl | ⟨hb, -, hin⟩
  · exact .inl h.kind_root
  · rcases h.clear scope (h.below_lt_size hb) c hc with hapart | ⟨-, hopen⟩
    · have hlt := h.nonempty c hc
      rw [Span.contains_iff] at hin
      unfold Span.Apart at hapart
      omega
    · exact hopen

theorem withinTemplate_of_kind_ne {neighbour : Option NodeId} {start : Nat}
    (hk : (t.node scope).kind ≠ "Template") :
    policy.withinTemplate t (if scope == t.root then none else some scope) start neighbour =
      neighbour := by
  have hquasis : policy.quasis (t.node scope) = none := if_pos (bne_iff_ne.mpr hk)
  unfold withinTemplate
  split
  · rename_i qs hqs
    split at hqs
    · cases hqs
    · rw [Option.bind_some, hquasis] at hqs
      cases hqs
  · rfl

/-- In a template the node next to a comment, on the side of the expression of its interpolation,
is in the same interpolation. -/
theorem hole_of_next (h : Parsed t) {qs es : List NodeId} {i : Nat} {e : NodeId} {span place : Span}
    (hw : Woven t.node span qs es) (hplace : Hole t.node qs i place) (hlt : place.start < place.stop)
    (he : es[i]? = some e) (hm : m ∈ es)
    (hnext : (t.node m).span.stop ≤ place.start ∧
        (e = m ∨ (t.node e).span.stop ≤ (t.node m).span.start) ∨
      place.stop ≤ (t.node m).span.start ∧
        (e = m ∨ (t.node m).span.stop ≤ (t.node e).span.start)) :
    Hole t.node qs i (t.node m).span := by
  have hforward := h.wellNested.forward
  obtain ⟨j, hj⟩ := List.getElem?_of_mem hm
  have hhole := hw.hole j m hj
  have hhole' := hw.hole i e he
  have hm' := hforward m
  have he' := hforward e
  rcases Nat.lt_trichotomy i j with hij | rfl | hij
  · have hafter := hplace.lt hforward hw.inOrder hhole hij
    have hbehind := hhole'.lt hforward hw.inOrder hhole hij
    rcases hnext with ⟨hnext, -⟩ | ⟨-, rfl | hnext⟩ <;> omega
  · exact hhole
  · have hbefore := hhole.lt hforward hw.inOrder hplace hij
    have hahead := hhole.lt hforward hw.inOrder hhole' hij
    rcases hnext with ⟨-, rfl | hnext⟩ | ⟨hnext, -⟩ <;> omega

theorem withinTemplate_eq_some_iff_of_hole (h : Parsed t) {qs : List NodeId} {i j : Nat}
    (hqs : quasis (t.node scope) = some qs)
    (hord : qs.Pairwise fun q q' => (t.node q).span.stop ≤ (t.node q').span.start) {place : Span}
    (hplace : Hole t.node qs i place) (hlt : place.start < place.stop)
    (hm : Hole t.node qs j (t.node m).span) (hlt' : (t.node m).span.start < (t.node m).span.stop)
    {neighbour : Option NodeId} :
    policy.withinTemplate t (some scope) place.start neighbour = some m ↔
      neighbour = some m ∧ j = i :=
  withinTemplate_eq_some_iff_of_inInterpolation hqs (parted_quasis h.wellNested.forward hord)
    (hplace.inInterpolation hlt) (hm.inInterpolation hlt')

theorem mem_frontier_template (h : Parsed t) (hsize : scope < t.nodes.size) {qs es : List NodeId}
    {span : Span} (hchildren : (t.node scope).children = qs ++ es) (hw : Woven t.node span qs es) :
    m ∈ policy.frontier t scope ↔ m ∈ es := by
  rw [mem_frontier_iff (fun _ => rfl) h.wellNested.earlier, handed_iff h hsize, hchildren]
  constructor
  · rintro ⟨hm, hk⟩
    apply (List.mem_append.mp hm).resolve_left
    intro hq
    rw [hw.isQuasi m hq] at hk
    exact absurd hk (by decide)
  · exact fun hm => ⟨List.mem_append_right _ hm, hw.isItem m hm⟩

/-- A comment that lies directly in a template lies in one of its interpolations. -/
theorem exists_hole (h : Parsed t) (hc : c ∈ t.commentIds)
    (hs : Innermost policy t (t.comment c).span t.root scope)
    (hk : (t.node scope).kind = "Template") {qs : List NodeId}
    (hqs : quasis (t.node scope) = some qs) : ∃ i, Hole t.node qs i (t.comment c).span := by
  rcases open_scope h hc hs with hp | ⟨hp, -⟩ | ⟨-, hp⟩
  · rw [hk] at hp
    exact absurd hp (by decide)
  · rw [hk] at hp
    exact absurd hp (by decide)
  · exact hp qs hqs

theorem Woven.exists_expression {look : NodeId → Node} {qs es : List NodeId} {i : Nat}
    {span place : Span} (hw : Woven look span qs es) (h : Hole look qs i place) :
    ∃ e, es[i]? = some e := by
  obtain ⟨-, q, -, hq, -⟩ := h
  obtain ⟨hi, -⟩ := List.getElem?_eq_some_iff.mp hq
  rw [hw.length_eq] at hi
  exact ⟨_, List.getElem?_eq_getElem (Nat.lt_of_succ_lt_succ hi)⟩

theorem neighboursIn_of_template (h : Parsed t) (hk : (t.node scope).kind = "Template") :
    neighboursIn policy t c scope before after = ⟨c, some scope,
      policy.withinTemplate t (some scope) (t.comment c).span.start before,
      policy.withinTemplate t (some scope) (t.comment c).span.start after⟩ := by
  have hne : scope ≠ t.root := by
    rintro rfl
    rw [h.kind_root] at hk
    exact absurd hk (by decide)
  simp [neighboursIn, hne]

section Expression

variable (h : Parsed t) (hsize : scope < t.nodes.size) {qs es : List NodeId} {i : Nat} {e : NodeId}
  {span place : Span} (hqs : quasis (t.node scope) = some qs)
  (hchildren : (t.node scope).children = qs ++ es) (hw : Woven t.node span qs es)
  (hhole : Hole t.node qs i place) (hlt : place.start < place.stop) (he : es[i]? = some e)
include h hsize hchildren hw

theorem expression_start_lt_stop (hm : m ∈ es) : (t.node m).span.start < (t.node m).span.stop := by
  have hchild : m ∈ (t.node scope).children := hchildren ▸ List.mem_append_right _ hm
  exact (h.shaped m (Nat.lt_trans (h.earlier scope hsize m hchild) hsize)).start_lt_stop
    (hw.isItem m hm)

include hqs hhole hlt he

theorem withinTemplate_eq_some_iff_of_expression (hm : m ∈ es) {neighbour : Option NodeId} :
    policy.withinTemplate t (some scope) place.start neighbour = some m ↔
      neighbour = some m ∧ m = e := by
  obtain ⟨j, hj⟩ := List.getElem?_of_mem hm
  have hspan := expression_start_lt_stop h hsize hchildren hw hm
  constructor
  · intro hkept
    obtain ⟨hm, rfl⟩ := (withinTemplate_eq_some_iff_of_hole h hqs hw.inOrder hhole hlt
      (hw.hole j m hj) hspan).mp hkept
    exact ⟨hm, Option.some.inj (hj.symm.trans he)⟩
  · rintro ⟨rfl, rfl⟩
    exact (withinTemplate_eq_some_iff_of_hole h hqs hw.inOrder hhole hlt (hw.hole i m he)
      hspan).mpr ⟨rfl, rfl⟩

theorem eq_expression_of_hole (hm : m ∈ es) (hmhole : Hole t.node qs i (t.node m).span) :
    m = e := by
  have hspan := expression_start_lt_stop h hsize hchildren hw hm
  have hkept : policy.withinTemplate t (some scope) place.start (some m) = some m :=
    (withinTemplate_eq_some_iff_of_hole h hqs hw.inOrder hhole hlt hmhole hspan).mpr ⟨rfl, rfl⟩
  exact ((withinTemplate_eq_some_iff_of_expression h hsize hqs hchildren hw hhole hlt he hm).mp
    hkept).2

end Expression

/-- The only neighbour of a comment in a template is the expression of its interpolation. -/
theorem neighbours_of_template (h : Parsed t) (hc : c ∈ t.commentIds)
    (hl : Located policy t c scope before after) (hk : (t.node scope).kind = "Template")
    {qs es : List NodeId} {i : Nat} {span : Span} (hqs : quasis (t.node scope) = some qs)
    (hchildren : (t.node scope).children = qs ++ es) (hw : Woven t.node span qs es)
    (hhole : Hole t.node qs i (t.comment c).span) : ∃ e, es[i]? = some e ∧
      ((t.comment c).span.stop ≤ (t.node e).span.start ∧
          neighboursIn policy t c scope before after = ⟨c, some scope, none, some e⟩ ∨
        (t.node e).span.stop ≤ (t.comment c).span.start ∧
          neighboursIn policy t c scope before after = ⟨c, some scope, some e, none⟩) := by
  have hsize := scope_lt_size h hl.innermost
  have hlt := h.nonempty c hc
  have hmem : ∀ {m}, m ∈ policy.frontier t scope ↔ m ∈ es :=
    mem_frontier_template h hsize hchildren hw
  obtain ⟨e, he⟩ := hw.exists_expression hhole
  have hee := List.mem_of_getElem? he
  have hspan := expression_start_lt_stop h hsize hchildren hw hee
  have hkept : ∀ {m}, m ∈ es → ∀ {neighbour}, policy.withinTemplate t (some scope)
      (t.comment c).span.start neighbour = some m ↔ neighbour = some m ∧ m = e :=
    withinTemplate_eq_some_iff_of_expression h hsize hqs hchildren hw hhole hlt he
  refine ⟨e, he, ?_⟩
  rw [neighboursIn_of_template h hk]
  rcases hl.beside h.wellNested (not_overlaps h hc)
    ((mem_frontier_iff (fun _ => rfl) h.wellNested.earlier).mp (hmem.mpr hee)) with hside | hside
  · right
    obtain ⟨m, hm, rfl, hnext⟩ := hl.exists_before (fun _ => rfl) h.wellNested (hmem.mpr hee) hside
    obtain rfl := eq_expression_of_hole h hsize hqs hchildren hw hhole hlt he (hmem.mp hm)
      (hole_of_next h hw hhole hlt he (hmem.mp hm) (.inl hnext))
    have hafter : policy.withinTemplate t (some scope) (t.comment c).span.start after = none := by
      rw [Option.eq_none_iff_forall_ne_some]
      intro m' hm'
      obtain rfl := withinTemplate_eq_some hm'
      obtain ⟨hfront, hside'⟩ := hl.mem_after
      obtain ⟨-, rfl⟩ := (hkept (hmem.mp hfront)).mp hm'
      omega
    rw [(hkept hee).mpr ⟨rfl, rfl⟩, hafter]
    exact ⟨hside, rfl⟩
  · left
    obtain ⟨m, hm, rfl, hnext⟩ := hl.exists_after (fun _ => rfl) h.wellNested (hmem.mpr hee) hside
    obtain rfl := eq_expression_of_hole h hsize hqs hchildren hw hhole hlt he (hmem.mp hm)
      (hole_of_next h hw hhole hlt he (hmem.mp hm) (.inr hnext))
    have hbefore : policy.withinTemplate t (some scope) (t.comment c).span.start before = none := by
      rw [Option.eq_none_iff_forall_ne_some]
      intro m' hm'
      obtain rfl := withinTemplate_eq_some hm'
      obtain ⟨hfront, hside'⟩ := hl.mem_before
      obtain ⟨-, rfl⟩ := (hkept (hmem.mp hfront)).mp hm'
      omega
    rw [(hkept hee).mpr ⟨rfl, rfl⟩, hbefore]
    exact ⟨hside, rfl⟩

theorem exists_neighbour_of_template (h : Parsed t) (hc : c ∈ t.commentIds)
    (hl : Located policy t c scope before after) (hk : (t.node scope).kind = "Template") :
    ∃ e, neighboursIn policy t c scope before after = ⟨c, some scope, none, some e⟩ ∨
      neighboursIn policy t c scope before after = ⟨c, some scope, some e, none⟩ := by
  obtain ⟨qs, es, hqs, hchildren, hw⟩ :=
    (h.shaped scope (scope_lt_size h hl.innermost)).exists_woven hk
  obtain ⟨i, hhole⟩ := exists_hole h hc hl.innermost hk hqs
  obtain ⟨e, -, hneighbours⟩ := neighbours_of_template h hc hl hk hqs hchildren hw hhole
  exact ⟨e, hneighbours.imp And.right And.right⟩

/-- What the neighbours of a comment of a toy tree are. -/
structure Home (t : Tree) (scope : NodeId) (d : Neighbours) : Prop where
  innermost : Innermost policy t (t.comment d.comment).span t.root scope
  item : ∀ n, d.preceding = some n ∨ d.following = some n → n ∈ (t.node scope).children ∧
    (t.node n).kind ∈ itemKinds ∧ (t.node n).span.Apart (t.comment d.comment).span
  alone : d.preceding = none → d.following = none → d.enclosing.getD t.root = scope ∧
    (t.node scope).children = [] ∧ (t.node scope).kind ∈ ["Program", "List"]

theorem home_of_located (h : Parsed t) (hc : c ∈ t.commentIds)
    (hl : Located policy t c scope before after) :
    Home t scope (neighboursIn policy t c scope before after) := by
  have hsize := scope_lt_size h hl.innermost
  have hhanded : ∀ n, n ∈ policy.frontier t scope ↔
      n ∈ (t.node scope).children ∧ (t.node n).kind ∈ itemKinds := fun n => by
    rw [mem_frontier_iff (fun _ => rfl) h.wellNested.earlier, handed_iff h hsize]
  refine ⟨hl.innermost, fun n hn => ?_, fun hp hf => ?_⟩
  · rcases hn with hn | hn
    · obtain rfl := withinTemplate_eq_some hn
      obtain ⟨hmem, hside⟩ := hl.mem_before
      exact ⟨((hhanded n).mp hmem).1, ((hhanded n).mp hmem).2, .inl hside⟩
    · obtain rfl := withinTemplate_eq_some hn
      obtain ⟨hmem, hside⟩ := hl.mem_after
      exact ⟨((hhanded n).mp hmem).1, ((hhanded n).mp hmem).2, .inr hside⟩
  · have hk : (t.node scope).kind = "Program" ∨ (t.node scope).kind = "List" := by
      rcases open_scope h hc hl.innermost with hk | ⟨hk, -⟩ | ⟨hk, -⟩
      · exact .inl hk
      · exact .inr hk
      · obtain ⟨e, hd | hd⟩ := exists_neighbour_of_template h hc hl hk
        · rw [hd] at hf
          cases hf
        · rw [hd] at hp
          cases hp
    have hnot : (t.node scope).kind ≠ "Template" := by
      rcases hk with hk | hk <;> rw [hk] <;> decide
    have hwithin : ∀ neighbour, policy.withinTemplate t
        (if scope == t.root then none else some scope) (t.comment c).span.start neighbour =
          neighbour := fun neighbour => withinTemplate_of_kind_ne hnot
    have hbefore := (hwithin before).symm.trans hp
    have hafter := (hwithin after).symm.trans hf
    rw [hl.before_eq, List.getLast?_eq_none_iff, List.filter_eq_nil_iff] at hbefore
    rw [hl.after_eq, List.head?_eq_none_iff, List.filter_eq_nil_iff] at hafter
    refine ⟨?_, List.eq_nil_iff_forall_not_mem.mpr fun n hn => ?_, by simpa using hk⟩
    · unfold neighboursIn at hp hf ⊢
      dsimp only at hp hf ⊢
      rw [hp, hf]
      by_cases hroot : scope = t.root <;> simp [hroot]
    · have hmem := (hhanded n).mpr ⟨hn, (h.shaped scope hsize).isItem_of_child hnot hn⟩
      rcases hl.beside h.wellNested (not_overlaps h hc)
        ((mem_frontier_iff (fun _ => rfl) h.wellNested.earlier).mp hmem) with hside | hside
      · exact hbefore n hmem (decide_eq_true hside)
      · exact hafter n hmem (decide_eq_true hside)

/-- Where a comment that lies directly in `scope` is attached. -/
inductive Housed (t : Tree) (a : Attachments) (c : CommentId) (scope : NodeId) : Prop where
  | beside {owner : NodeId} {placement : Placement} (get : a.get? c = some ⟨owner, placement⟩)
    (ne : placement ≠ .dangling) (child : owner ∈ (t.node scope).children)
    (item : (t.node owner).kind ∈ itemKinds)
    (apart : (t.node owner).span.Apart (t.comment c).span)
  | inside (get : a.get? c = some ⟨scope, .dangling⟩) (children : (t.node scope).children = [])
    (kind : (t.node scope).kind ∈ ["Program", "List"])

/-- The comments of a toy tree are attached where the rules print them. -/
structure Tidy (t : Tree) (a : Attachments) : Prop where
  coherent : a.Coherent
  inOrder : ∀ n, a.InOrder n
  known : ∀ c, a.get? c ≠ none → c ∈ t.commentIds
  housed : ∀ c ∈ t.commentIds, ∃ scope,
    Innermost policy t (t.comment c).span t.root scope ∧ Housed t a c scope

theorem Housed.of_beside {a : Attachments} {placement : Placement} (h : Housed t a c scope)
    (hx : a.get? c = some ⟨n, placement⟩) (hp : placement ≠ .dangling) :
    n ∈ (t.node scope).children ∧ (t.node n).kind ∈ itemKinds := by
  cases h with
  | beside get ne child item apart =>
    obtain ⟨rfl, -⟩ := Attachment.mk.inj (Option.some.inj (get.symm.trans hx))
    exact ⟨child, item⟩
  | inside get children kind =>
    exact absurd (Attachment.mk.inj (Option.some.inj (get.symm.trans hx))).2.symm hp

theorem Housed.of_dangling {a : Attachments} (h : Housed t a c scope)
    (hx : a.get? c = some ⟨n, .dangling⟩) : n = scope ∧ (t.node n).children = [] := by
  cases h with
  | beside get ne child item apart =>
    exact absurd (Attachment.mk.inj (Option.some.inj (get.symm.trans hx))).2 ne
  | inside get children kind =>
    obtain ⟨rfl, -⟩ := Attachment.mk.inj (Option.some.inj (get.symm.trans hx))
    exact ⟨rfl, children⟩

theorem exists_home (h : Parsed t) (hc : c ∈ t.commentIds) :
    ∃ d scope, (policy.frontiers t).neighbours c = .ok d ∧ d.comment = c ∧ Home t scope d := by
  have hoff : ∀ n, policy.offspring t n = none := fun _ => rfl
  obtain ⟨scope, before, after, hl, hd⟩ := neighbours_eq_ok hoff h hc
  exact ⟨_, scope, hd, rfl, home_of_located h hc hl⟩

theorem Home.housed {d : Neighbours} {scope : NodeId} {a : Attachments} {x : Attachment}
    (h : Home t scope d) (hget : a.get? d.comment = some x) (hx : Assignment.Beside t d x) :
    Housed t a d.comment scope := by
  cases hx with
  | leads hn =>
    obtain ⟨hchild, hk, hapart⟩ := h.item _ (.inr hn)
    exact .beside hget (by decide) hchild hk hapart
  | trails hn =>
    obtain ⟨hchild, hk, hapart⟩ := h.item _ (.inl hn)
    exact .beside hget (by decide) hchild hk hapart
  | dangles hp hf =>
    obtain ⟨hscope, hchildren, hk⟩ := h.alone hp hf
    rw [hscope] at hget
    exact .inside hget hchildren hk

/-- Placing the comments of a toy tree succeeds. -/
theorem exists_tidy (h : Parsed t) :
    ∃ a events, assignComments policy t = .ok (a, events) ∧ Tidy t a ∧
      ∀ e ∈ events, Assignment.IsQuestion e := by
  obtain ⟨all, hall⟩ : ∃ all, policy.allNeighbours t = .ok all :=
    exists_allNeighbours (fun _ => rfl) h
  obtain ⟨hsound, -⟩ := Assignment.sound_outcome hall
  refine ⟨_, _, Assignment.assignComments_eq hall, ⟨hsound.coherent, hsound.inOrder, fun c hc => ?_,
    fun c hc => ?_⟩, fun e he => Assignment.questions_outcome e (List.mem_reverse.mp he)⟩
  · exact List.mem_range.mpr (hsound.attached_lt c hc)
  · rw [← map_comment_allNeighbours hall, List.mem_map] at hc
    obtain ⟨d, hd, rfl⟩ := hc
    obtain ⟨hc, hneighbours⟩ := neighbours_of_mem hall hd
    obtain ⟨d', scope, hd', -, hhome⟩ := exists_home h hc
    obtain rfl : d = d' := Except.ok.inj (hneighbours.symm.trans hd')
    obtain ⟨x, hget, hx⟩ := Assignment.beside_outcome inert_policy hall hd
    exact ⟨scope, hhome.innermost, hhome.housed hget hx⟩

end Toy

end SourceLayout
