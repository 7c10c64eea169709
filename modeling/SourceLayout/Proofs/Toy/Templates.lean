import SourceLayout.Proofs.Comment.Lines
import SourceLayout.Proofs.Toy.Parents
import SourceLayout.Proofs.Toy.Placement
import SourceLayout.Proofs.Toy.Reading

/-! # Comments in interpolations

An interpolation of a toy template holds one expression. A comment beside the expression, and not
in it, has no other neighbour, so it is attached to the expression: before it or behind it, as it
stands in the source.
-/

namespace SourceLayout

namespace Toy

open CommentPolicy Assignment

variable {text : Text} {t : Tree} {n scope : NodeId} {k : Nat} {c : CommentId}

/-- A comment stands in the interpolation of a template that has the number `k`, and not in a
child of the template. -/
structure DirectlyIn (t : Tree) (n : NodeId) (k : Nat) (c : CommentId) : Prop where
  below : t.Below t.root n
  kind : (t.node n).kind = "Template"
  starts : ∃ qs, quasis (t.node n) = some qs ∧
    InInterpolation (qs.map fun q => (t.node q).span) k (t.comment c).span.start
  outside : ∀ m ∈ (t.node n).children, ¬ (t.node m).span.contains (t.comment c).span = true

/-- A comment has a single neighbour, and leads or trails it as it stands before or behind it. -/
inductive AttachedBeside (t : Tree) (a : Attachments) (d : Neighbours) (e : NodeId) : Prop
  | leads (before : (t.comment d.comment).span.stop ≤ (t.node e).span.start)
    (preceding : d.preceding = none) (following : d.following = some e)
    (get : a.get? d.comment = some ⟨e, .leading⟩)
  | trails (behind : (t.node e).span.stop ≤ (t.comment d.comment).span.start)
    (preceding : d.preceding = some e) (following : d.following = none)
    (get : a.get? d.comment = some ⟨e, .trailing⟩)

section Parsed

variable (h : Parsed t) (hc : c ∈ t.commentIds)
include h hc

theorem DirectlyIn.contains (hd : DirectlyIn t n k c) :
    (t.node n).span.contains (t.comment c).span = true := by
  have hsize := h.below_lt_size hd.below
  obtain ⟨qs, es, hqs, hchildren, -⟩ := (h.shaped n hsize).exists_woven hd.kind
  obtain ⟨_, hqs', s, u, hs, hu, hlo, hhi⟩ := hd.starts
  obtain rfl := Option.some.inj (hqs.symm.trans hqs')
  rw [List.getElem?_map, Option.map_eq_some_iff] at hs hu
  obtain ⟨q, hq, rfl⟩ := hs
  obtain ⟨q', hq', rfl⟩ := hu
  have hchild : ∀ {q}, q ∈ qs → q ∈ (t.node n).children := fun hq =>
    hchildren ▸ List.mem_append_left _ hq
  have hfirst := (strictly_inside h hd.below (hchild (List.mem_of_getElem? hq))).1
  have hlast := (strictly_inside h hd.below (hchild (List.mem_of_getElem? hq'))).2
  have hforward := h.wellNested.forward q
  have hforward' := h.wellNested.forward q'
  have hlt := h.nonempty c hc
  rcases h.clear n hsize c hc with hapart | ⟨hin, -⟩
  · unfold Span.Apart at hapart
    omega
  · exact hin

theorem DirectlyIn.scope_eq (hd : DirectlyIn t n k c)
    (hs : Innermost policy t (t.comment c).span t.root scope) : n = scope := by
  have hhold : policy.canHold (t.node n) = true := by
    apply bne_iff_ne.mpr
    rw [hd.kind]
    decide
  refine (hs.innermost n hd.below hhold (hd.contains h hc)).resolve_right fun hb => ?_
  obtain ⟨m, hm, hreach⟩ := hb.exists_child
  have hne : scope ≠ t.root := by
    rintro rfl
    exact h.wellNested.not_below_self (hd.below.trans hb)
  obtain ⟨-, -, hin⟩ := hs.around.resolve_left hne
  exact hd.outside m hm
    (Span.contains_trans (h.wellNested.reaches_inside hreach) hin)

theorem DirectlyIn.hole (hd : DirectlyIn t n k c)
    (hs : Innermost policy t (t.comment c).span t.root n) {qs : List NodeId}
    (hqs : quasis (t.node n) = some qs)
    (hord : qs.Pairwise fun q q' => (t.node q).span.stop ≤ (t.node q').span.start) :
    Hole t.node qs k (t.comment c).span := by
  obtain ⟨i, hhole⟩ := exists_hole h hc hs hd.kind hqs
  have hparted := parted_quasis h.wellNested.forward hord
  obtain ⟨_, hqs', hstarts⟩ := hd.starts
  obtain rfl := Option.some.inj (hqs.symm.trans hqs')
  obtain rfl := (hhole.inInterpolation (h.nonempty c hc)).unique hstarts hparted
  exact hhole

end Parsed

theorem attachedBeside_of_untied {p : CommentPolicy} {all : List Neighbours} (hp : Inert p)
    (hall : p.allNeighbours t = .ok all) {d : Neighbours} (hd : d ∈ all) {e : NodeId}
    (hside : (t.comment d.comment).span.stop ≤ (t.node e).span.start ∧
        d.preceding = none ∧ d.following = some e ∨
      (t.node e).span.stop ≤ (t.comment d.comment).span.start ∧
        d.preceding = some e ∧ d.following = none) :
    AttachedBeside t (outcome p t all).attachments d e := by
  have hd' := getElem?_comment hall hd
  obtain ⟨start, stop, hstart, hstop⟩ := exists_runs (t := t) hd'
  have hposition := getElem?_linePositions_of_runs hd' hstart hstop
  generalize linePosition t d start stop = position at hposition
  have hplaced : (all.zip (linePositions t all))[d.comment]? = some (d, position) :=
    List.getElem?_zip_eq_some.mpr ⟨hd', hposition⟩
  have hget := (settles_outcome hp hall).untied _ (List.mem_of_getElem? hplaced)
  rcases hside with ⟨hside, hpre, hfol⟩ | ⟨hside, hpre, hfol⟩
  · refine .leads hside hpre hfol ((hget ?_).trans ?_)
    · simp [isTied, hpre]
    · cases position <;> simp [eagerPlace, hpre, hfol]
  · refine .trails hside hpre hfol ((hget ?_).trans ?_)
    · simp [isTied, hfol]
    · cases position <;> simp [eagerPlace, hpre, hfol]

/-- A comment beside the expression of an interpolation goes to that expression. -/
theorem exists_attachedBeside (h : parse text = .ok t) (hc : c ∈ t.commentIds)
    (hin : DirectlyIn t n k c) : ∃ a events all d e, ∃ es : List NodeId,
      assignComments policy t = .ok (a, events) ∧ policy.allNeighbours t = .ok all ∧
      (t.node n).field? "expressions" = some (.list (es.map .node)) ∧ es[k]? = some e ∧
      d ∈ all ∧ d.comment = c ∧ d.enclosing = some n ∧ AttachedBeside t a d e := by
  have hparsed := parsed_of_parse h
  obtain ⟨all, hall⟩ := exists_allNeighbours (p := policy) (fun _ => rfl) hparsed
  obtain ⟨d, hd, rfl⟩ := List.mem_map.mp ((map_comment_allNeighbours hall).symm ▸ hc)
  obtain ⟨scope, before, after, hl, heq⟩ := exists_located (fun _ => rfl) hparsed hall hd
  obtain rfl := hin.scope_eq hparsed hc hl.innermost
  obtain ⟨qs, es, hqs, hes, hchildren, hw⟩ :=
    (hparsed.shaped n (hparsed.below_lt_size hin.below)).exists_expressions hin.kind
  have hhole := hin.hole hparsed hc hl.innermost hqs hw.inOrder
  obtain ⟨e, he, hside⟩ := neighbours_of_template hparsed hc hl hin.kind hqs hchildren hw hhole
  rw [← heq] at hside
  refine ⟨_, _, all, d, e, es, assignComments_eq hall, hall, hes, he, hd, rfl, ?_, ?_⟩
  · rcases hside with ⟨-, hd'⟩ | ⟨-, hd'⟩ <;> rw [hd']
  · apply attachedBeside_of_untied inert_policy hall hd
    rcases hside with ⟨hside, hd'⟩ | ⟨hside, hd'⟩
    · exact .inl ⟨hside, by rw [hd'], by rw [hd']⟩
    · exact .inr ⟨hside, by rw [hd'], by rw [hd']⟩

/-- Inside a template a comment that starts in an interpolation keeps the neighbours that start in
the same one and no others that start in one. So a comment beside the expression of a toy
interpolation has that expression for its only neighbour, and leads or trails it. -/
theorem interpolations_keep_comments_apart :
    (∀ (p : CommentPolicy) (t : Tree) (c : CommentId) (n : NodeId) (qs : List NodeId)
      (before after : Option NodeId) (k : Nat), EndsInTemplate p t c n qs before after →
      InInterpolation (qs.map fun q => (t.node q).span) k (t.comment c).span.start →
      ∃ d, (p.frontiers t).neighbours c = .ok d ∧ d.comment = c ∧
        KeepsOwn t n qs before after k d) ∧
    ∀ (text : Text) (t : Tree) (n : NodeId) (k : Nat) (c : CommentId), parse text = .ok t →
      c ∈ t.commentIds → DirectlyIn t n k c → ∃ a events all d e, ∃ es : List NodeId,
        assignComments policy t = .ok (a, events) ∧ policy.allNeighbours t = .ok all ∧
        (t.node n).field? "expressions" = some (.list (es.map .node)) ∧ es[k]? = some e ∧
        d ∈ all ∧ d.comment = c ∧ d.enclosing = some n ∧ AttachedBeside t a d e := by
  constructor
  · intro p t c n qs before after k h hk
    exact h.exists_neighbours hk
  · intro text t n k c h hc hin
    exact exists_attachedBeside h hc hin

def secondHole : Text := "\"${x}${/*c*/ y}\"".toList

theorem interpolations_keep_comments_apart_secondHole :
    ∃ t d a d' e, parse secondHole = .ok t ∧ (policy.frontiers t).neighbours 0 = .ok d ∧
      d.enclosing = some 5 ∧ d.preceding ≠ some 1 ∧ d.following = some 3 ∧
      d'.comment = 0 ∧ AttachedBeside t a d' e := by
  have hreport : (parse secondHole).toOption.any (fun t => decide (t.root = 6 ∧
      t.commentIds = [0] ∧ (t.comment 0).span = ⟨7, 12⟩ ∧
      (policy.frontiers t).descend (fun n => sideOfSpan (t.comment 0).span (t.node n).span) t.root =
        (5, .between (some 1) (some 3)) ∧
      (t.node 5).kind = "Template" ∧ quasis (t.node 5) = some [0, 2, 4] ∧
      ([0, 2, 4].map fun q => (t.node q).span) = [⟨1, 1⟩, ⟨5, 5⟩, ⟨15, 15⟩] ∧
      (t.node 1).span = ⟨3, 4⟩ ∧ (t.node 3).span = ⟨13, 14⟩ ∧ 5 ∈ (t.node 6).children ∧
      ∀ m ∈ (t.node 5).children, ¬ (t.node m).span.contains (t.comment 0).span = true)) = true := by
    decide +kernel
  obtain ⟨t, hparse, hreport⟩ := (Option.any_eq_true _ _).mp hreport
  obtain ⟨hroot, hids, hcomment, hends, hkind, hqs, hspans, hx, hy, hchild, houtside⟩ :=
    of_decide_eq_true hreport
  have hparse := toOption_eq_some_iff.mp hparse
  have hends : EndsInTemplate policy t 0 5 [0, 2, 4] (some 1) (some 3) := by
    refine ⟨hends, by simp [hroot], hqs, ?_⟩
    rw [hspans]
    constructor <;> simp
  have hstarts : InInterpolation ([0, 2, 4].map fun q => (t.node q).span) 1
      (t.comment 0).span.start := by
    rw [hspans, hcomment]
    exact ⟨⟨5, 5⟩, ⟨15, 15⟩, rfl, rfl, by decide, by decide⟩
  have hx : InInterpolation ([0, 2, 4].map fun q => (t.node q).span) 0 (t.node 1).span.start := by
    rw [hspans, hx]
    exact ⟨⟨1, 1⟩, ⟨5, 5⟩, rfl, rfl, by decide, by decide⟩
  have hy : InInterpolation ([0, 2, 4].map fun q => (t.node q).span) 1 (t.node 3).span.start := by
    rw [hspans, hy]
    exact ⟨⟨5, 5⟩, ⟨15, 15⟩, rfl, rfl, by decide, by decide⟩
  have hin : DirectlyIn t 5 1 0 :=
    ⟨Tree.below_of_child (hroot ▸ hchild), hkind, ⟨_, hqs, hstarts⟩, houtside⟩
  obtain ⟨d, hd, -, hkeeps⟩ := interpolations_keep_comments_apart.1 _ _ _ _ _ _ _ _ hends hstarts
  obtain ⟨a, -, -, d', e, -, -, -, -, -, -, hd', -, hbeside⟩ :=
    interpolations_keep_comments_apart.2 _ _ _ _ _ hparse (by simp [hids]) hin
  refine ⟨t, d, a, d', e, hparse, hd, hkeeps.enclosing, ?_, ?_, hd', hbeside⟩
  · rw [Ne, hkeeps.preceding 1 0 hx]
    simp
  · rw [hkeeps.following 3 1 hy]
    simp

end Toy

end SourceLayout
