import Mathlib.Data.Nat.Find
import SourceLayout.Comment.Neighbours
import SourceLayout.Proofs.Comment.Descent
import SourceLayout.Proofs.Outcomes

/-! # The neighbours of all comments

The neighbours of the comments of a tree are found one comment after the other, up to the first
one that overlaps a node. In a well-nested tree this has a plain reading: a comment lies in the
innermost node around it, between the last node there that ends before it and the first one that
starts after it.
-/

namespace SourceLayout

section Ends

variable {α : Type} {R : α → α → Prop} {as : List α} {a b : α}

theorem eq_or_rel_getLast? (h : as.Pairwise R) (ha : a ∈ as) (hb : as.getLast? = some b) :
    a = b ∨ R a b := by
  obtain ⟨as, rfl⟩ := List.getLast?_eq_some_iff.mp hb
  rcases List.mem_append.mp ha with ha | ha
  · exact .inr ((List.pairwise_append.mp h).2.2 a ha b (List.mem_singleton_self b))
  · exact .inl (List.mem_singleton.mp ha)

theorem eq_or_rel_head? (h : as.Pairwise R) (ha : a ∈ as) (hb : as.head? = some b) :
    a = b ∨ R b a := by
  obtain ⟨as, rfl⟩ := List.head?_eq_some_iff.mp hb
  rcases List.mem_cons.mp ha with ha | ha
  · exact .inl ha
  · exact .inr ((List.pairwise_cons.mp h).1 a ha)

end Ends

theorem Tree.exists_commentIds_eq {t : Tree} {c : CommentId} (h : c < t.comments.size) :
    ∃ later, t.commentIds = List.range c ++ c :: later := by
  obtain ⟨k, hk⟩ := Nat.exists_eq_add_of_lt h
  refine ⟨(List.range k).map (c + 1 + ·), ?_⟩
  rw [Tree.commentIds, hk, Nat.add_right_comm, List.range_add, List.range_succ, List.append_assoc]
  rfl

namespace CommentPolicy

variable {p : CommentPolicy} {t : Tree} {c : CommentId} {d : Neighbours}

theorem Frontiers.comment_neighbours {f : Frontiers p t} (h : f.neighbours c = .ok d) :
    d.comment = c := by
  simp only [Frontiers.neighbours] at h
  split at h
  · cases h
  · cases h
  · exact (congrArg Neighbours.comment (Except.ok.inj h)).symm

theorem map_comment_allNeighbours {all : List Neighbours} (h : p.allNeighbours t = .ok all) :
    all.map Neighbours.comment = t.commentIds := by
  have hall := forall₂_of_mapM_eq_ok h
  have heq : List.Forall₂ (· = ·) (all.map Neighbours.comment) t.commentIds := by
    rw [List.forall₂_map_left_iff]
    exact hall.flip.imp fun _ _ hd => Frontiers.comment_neighbours hd
  exact List.forall₂_eq_eq_eq ▸ heq

theorem neighbours_of_mem {all : List Neighbours} (h : p.allNeighbours t = .ok all)
    (hd : d ∈ all) : d.comment ∈ t.commentIds ∧ (p.frontiers t).neighbours d.comment = .ok d := by
  have hc : d.comment ∈ t.commentIds := map_comment_allNeighbours h ▸ List.mem_map_of_mem hd
  obtain ⟨i, hi, rfl⟩ := List.mem_iff_getElem.mp hd
  have hn := (List.forall₂_iff_get.mp (forall₂_of_mapM_eq_ok h)).2 i
    ((forall₂_of_mapM_eq_ok h).length_eq ▸ hi) hi
  exact ⟨hc, Frontiers.comment_neighbours hn ▸ hn⟩

variable (p t) in
/-- A comment lies neither inside nor beside a node that can hold comments. -/
def Overlaps (c : CommentId) (n : NodeId) : Prop :=
  t.Below t.root n ∧ p.canHold (t.node n) = true ∧
    ¬ (t.node n).span.contains (t.comment c).span = true ∧
    ¬ (t.node n).span.stop ≤ (t.comment c).span.start ∧
    ¬ (t.comment c).span.stop ≤ (t.node n).span.start

variable (p t) in
/-- A comment lies directly in `scope`, behind `before` and before `after`. -/
structure Located (c : CommentId) (scope : NodeId) (before after : Option NodeId) : Prop where
  innermost : Innermost p t (t.comment c).span t.root scope
  before_eq : before = ((p.frontier t scope).filter fun n =>
    (t.node n).span.stop ≤ (t.comment c).span.start).getLast?
  after_eq : after = ((p.frontier t scope).filter fun n =>
    (t.comment c).span.stop ≤ (t.node n).span.start).head?

variable (p t) in
def neighboursIn (c : CommentId) (scope : NodeId) (before after : Option NodeId) : Neighbours :=
  let enclosing := if scope == t.root then none else some scope
  let preceding := p.withinTemplate t enclosing (t.comment c).span.start before
  let following := p.withinTemplate t enclosing (t.comment c).span.start after
  { comment := c
    enclosing :=
      if enclosing.isNone && preceding.isNone && following.isNone then some t.root else enclosing
    preceding, following }

variable (p t) in
/-- The neighbours of a comment by the plain reading, with the node that it lies in. -/
structure Surrounds (d : Neighbours) (scope : NodeId) : Prop where
  innermost : Innermost p t (t.comment d.comment).span t.root scope
  handed : ∀ n, n ∈ p.frontier t scope ↔ Handed p t scope n
  inOrder : (p.frontier t scope).Pairwise fun n m => (t.node n).span.stop ≤ (t.node m).span.start
  preceding : d.preceding = ((p.frontier t scope).filter fun n =>
    (t.node n).span.stop ≤ (t.comment d.comment).span.start).getLast?
  following : d.following = ((p.frontier t scope).filter fun n =>
    (t.comment d.comment).span.stop ≤ (t.node n).span.start).head?
  enclosing : d.enclosing =
    if scope ≠ t.root then some scope
    else if d.preceding = none ∧ d.following = none then some t.root
    else none

theorem exists_first_overlap (h : ∃ c, c < t.comments.size ∧ ∃ n, Overlaps p t c n) :
    ∃ c < t.comments.size, (∃ n, Overlaps p t c n) ∧ ∀ b < c, ∀ n, ¬ Overlaps p t b n := by
  classical
  obtain ⟨hsize, hover⟩ := Nat.find_spec h
  exact ⟨Nat.find h, hsize, hover, fun b hb n hn =>
    Nat.find_min h hb ⟨Nat.lt_trans hb hsize, n, hn⟩⟩

section Plain

variable (hoff : ∀ n, p.offspring t n = none) (hw : t.WellNested)
include hoff hw

/-- A comment overlaps a node, or it is between the nearest nodes of the innermost node around
it. -/
theorem Frontiers.neighbours_cases (f : Frontiers p t)
    (hc : (t.comment c).span.start < (t.comment c).span.stop) :
    (∃ n, Overlaps p t c n ∧
      f.neighbours c = .error (.overlap (t.comment c).span (t.node n).span (t.node n).kind)) ∨
    ((∀ n, ¬ Overlaps p t c n) ∧ ∃ scope before after, Located p t c scope before after ∧
      f.neighbours c = .ok (neighboursIn p t c scope before after)) := by
  unfold Frontiers.neighbours
  dsimp only
  rcases hdescend : f.descend (fun n => sideOfSpan (t.comment c).span (t.node n).span) t.root with
    ⟨scope, finding⟩
  cases finding with
  | inside m => exact absurd hdescend (f.descend_ne_inside hoff hw t.root)
  | across m =>
    obtain ⟨hb, hm, hside⟩ := f.descend_eq_across hoff hw hdescend
    exact .inl ⟨m, ⟨hb, hm, sideOfSpan_eq_across_iff.mp hside⟩, rfl⟩
  | between before after =>
    obtain ⟨hinner, hno, hbefore, hafter⟩ := f.descend_eq_between hoff hw hc hdescend
    refine .inr ⟨fun n ⟨hb, hn, hover⟩ => hno n hb hn (sideOfSpan_eq_across_iff.mpr hover),
      scope, before, after, ⟨hinner, ?_, ?_⟩, rfl⟩
    · rw [hbefore]
      congr 1
      apply List.filter_congr
      intro n _
      rw [Bool.eq_iff_iff, beq_iff_eq, decide_eq_true_iff]
      exact sideOfSpan_eq_before_iff hc
    · rw [hafter]
      congr 1
      apply List.filter_congr
      intro n _
      rw [Bool.eq_iff_iff, beq_iff_eq, decide_eq_true_iff]
      exact sideOfSpan_eq_after_iff hc (hw.forward n)

omit hoff in
theorem Located.beside {scope n : NodeId} {before after : Option NodeId}
    (h : Located p t c scope before after) (hno : ∀ n, ¬ Overlaps p t c n)
    (hn : Handed p t scope n) : (t.node n).span.stop ≤ (t.comment c).span.start ∨
      (t.comment c).span.stop ≤ (t.node n).span.start := by
  have hb : t.Below t.root n := h.innermost.reaches.trans_below hn.isBelow
  by_contra hne
  rw [not_or] at hne
  refine hno n ⟨hb, hn.canHold, fun hin => ?_, hne⟩
  rcases h.innermost.innermost n hb hn.canHold hin with rfl | hback
  · exact hw.not_below_self hn.isBelow
  · exact hw.not_below_self (hback.trans hn.isBelow)

omit hoff hw in
theorem Located.mem_before {scope n : NodeId} {after : Option NodeId}
    (h : Located p t c scope (some n) after) :
    n ∈ p.frontier t scope ∧ (t.node n).span.stop ≤ (t.comment c).span.start := by
  obtain ⟨hmem, hside⟩ := List.mem_filter.mp (List.mem_of_getLast? h.before_eq.symm)
  exact ⟨hmem, of_decide_eq_true hside⟩

omit hoff hw in
theorem Located.mem_after {scope n : NodeId} {before : Option NodeId}
    (h : Located p t c scope before (some n)) :
    n ∈ p.frontier t scope ∧ (t.comment c).span.stop ≤ (t.node n).span.start := by
  obtain ⟨hmem, hside⟩ := List.mem_filter.mp (List.mem_of_head? h.after_eq.symm)
  exact ⟨hmem, of_decide_eq_true hside⟩

/-- Beside a node that ends before the comment, the one before the comment is that node or lies
behind it. -/
theorem Located.exists_before {scope n : NodeId} {before after : Option NodeId}
    (h : Located p t c scope before after) (hn : n ∈ p.frontier t scope)
    (hside : (t.node n).span.stop ≤ (t.comment c).span.start) :
    ∃ m ∈ p.frontier t scope, before = some m ∧ (t.node m).span.stop ≤ (t.comment c).span.start ∧
      (n = m ∨ (t.node n).span.stop ≤ (t.node m).span.start) := by
  have hkept : n ∈ (p.frontier t scope).filter fun n =>
      (t.node n).span.stop ≤ (t.comment c).span.start :=
    List.mem_filter.mpr ⟨hn, decide_eq_true hside⟩
  obtain ⟨m, hm⟩ := Option.isSome_iff_exists.mp
    (List.getLast?_isSome.mpr (List.ne_nil_of_mem hkept))
  obtain ⟨hmem, hbefore⟩ := List.mem_filter.mp (List.mem_of_getLast? hm)
  refine ⟨m, hmem, h.before_eq.trans hm, of_decide_eq_true hbefore, ?_⟩
  exact eq_or_rel_getLast? ((pairwise_frontier hoff hw scope).sublist List.filter_sublist) hkept hm

/-- Beside a node that starts behind the comment, the one after the comment is that node or lies
before it. -/
theorem Located.exists_after {scope n : NodeId} {before after : Option NodeId}
    (h : Located p t c scope before after) (hn : n ∈ p.frontier t scope)
    (hside : (t.comment c).span.stop ≤ (t.node n).span.start) :
    ∃ m ∈ p.frontier t scope, after = some m ∧ (t.comment c).span.stop ≤ (t.node m).span.start ∧
      (n = m ∨ (t.node m).span.stop ≤ (t.node n).span.start) := by
  have hkept : n ∈ (p.frontier t scope).filter fun n =>
      (t.comment c).span.stop ≤ (t.node n).span.start :=
    List.mem_filter.mpr ⟨hn, decide_eq_true hside⟩
  obtain ⟨m, hm⟩ := Option.isSome_iff_exists.mp
    (List.isSome_head?.mpr (List.ne_nil_of_mem hkept))
  obtain ⟨hmem, hafter⟩ := List.mem_filter.mp (List.mem_of_head? hm)
  refine ⟨m, hmem, h.after_eq.trans hm, of_decide_eq_true hafter, ?_⟩
  exact eq_or_rel_head? ((pairwise_frontier hoff hw scope).sublist List.filter_sublist) hkept hm

theorem Located.surrounds {scope : NodeId} {before after : Option NodeId}
    (h : Located p t c scope before after) (hquasis : ∀ n, p.quasis n = none) :
    Surrounds p t (neighboursIn p t c scope before after) scope := by
  have hwithin : ∀ enclosing start neighbour,
      p.withinTemplate t enclosing start neighbour = neighbour := by
    intro enclosing start neighbour
    simp [withinTemplate, hquasis]
  unfold neighboursIn
  simp only [hwithin]
  constructor
  · exact h.innermost
  · exact fun n => mem_frontier_iff hoff hw.earlier
  · exact pairwise_frontier hoff hw scope
  · exact h.before_eq
  · exact h.after_eq
  · by_cases hscope : scope = t.root <;> simp [hscope]

/-- The neighbours are found unless a comment overlaps a node, and the first one that does is
reported. -/
theorem allNeighbours_cases
    (hc : ∀ c ∈ t.commentIds, (t.comment c).span.start < (t.comment c).span.stop) :
    (∃ c ∈ t.commentIds, (∀ b < c, ∀ n, ¬ Overlaps p t b n) ∧ ∃ n, Overlaps p t c n ∧
      p.allNeighbours t = .error (.overlap (t.comment c).span (t.node n).span (t.node n).kind)) ∨
    ((∀ c ∈ t.commentIds, ∀ n, ¬ Overlaps p t c n) ∧ ∃ all, p.allNeighbours t = .ok all) := by
  by_cases h : ∃ c, c < t.comments.size ∧ ∃ n, Overlaps p t c n
  · left
    obtain ⟨c, hsize, hover, hmin⟩ := exists_first_overlap h
    have hmem : c ∈ t.commentIds := List.mem_range.mpr hsize
    obtain ⟨n, hn, herr⟩ := ((p.frontiers t).neighbours_cases hoff hw (hc c hmem)).resolve_right
      fun hnone => hover.elim hnone.1
    obtain ⟨later, hids⟩ := Tree.exists_commentIds_eq hsize
    refine ⟨c, hmem, hmin, n, hn, ?_⟩
    rw [allNeighbours, hids]
    refine mapM_eq_error (fun b hb => ?_) herr
    have hb := List.mem_range.mp hb
    obtain ⟨n, hn, -⟩ | ⟨-, scope, before, after, -, hd⟩ := (p.frontiers t).neighbours_cases hoff hw
      (hc b (List.mem_range.mpr (Nat.lt_trans hb hsize)))
    · exact absurd hn (hmin b hb n)
    · exact ⟨_, hd⟩
  · right
    have hnone : ∀ c ∈ t.commentIds, ∀ n, ¬ Overlaps p t c n := fun c hmem n hn =>
      h ⟨c, List.mem_range.mp hmem, n, hn⟩
    refine ⟨hnone, exists_mapM_eq_ok fun c hmem => ?_⟩
    obtain ⟨n, hn, -⟩ | ⟨-, scope, before, after, -, hd⟩ :=
      (p.frontiers t).neighbours_cases hoff hw (hc c hmem)
    · exact absurd hn (hnone c hmem n)
    · exact ⟨_, hd⟩

end Plain

/-- In a well-nested tree, for a policy that chooses only which nodes can hold comments, the
neighbours of the comments are found unless a comment overlaps such a node. Then the first comment
that does is reported; otherwise each comment has the neighbours of the plain reading. -/
theorem allNeighbours_iff_plain (hw : t.WellNested) (hoff : ∀ n, p.offspring t n = none)
    (hquasis : ∀ n, p.quasis n = none)
    (hc : ∀ c ∈ t.commentIds, (t.comment c).span.start < (t.comment c).span.stop) :
    ((∃ e, p.allNeighbours t = .error e) ↔ ∃ c ∈ t.commentIds, ∃ n, Overlaps p t c n) ∧
    (∀ e, p.allNeighbours t = .error e → ∃ c ∈ t.commentIds,
      (∀ b < c, ∀ n, ¬ Overlaps p t b n) ∧ ∃ n, Overlaps p t c n ∧
        e = .overlap (t.comment c).span (t.node n).span (t.node n).kind) ∧
    (∀ all, p.allNeighbours t = .ok all → all.map Neighbours.comment = t.commentIds ∧
      ∀ d ∈ all, ∃ scope, Surrounds p t d scope) := by
  have hplain : ∀ all, p.allNeighbours t = .ok all → ∀ d ∈ all, ∃ scope, Surrounds p t d scope := by
    intro all hall d hd
    obtain ⟨hmem, heq⟩ := neighbours_of_mem hall hd
    obtain ⟨n, -, herr⟩ | ⟨-, scope, before, after, hloc, hd'⟩ :=
      (p.frontiers t).neighbours_cases hoff hw (hc _ hmem)
    · rw [heq] at herr
      cases herr
    · rw [heq] at hd'
      rw [Except.ok.inj hd']
      exact ⟨scope, hloc.surrounds hoff hw hquasis⟩
  obtain ⟨c, hmem, hmin, n, hn, herr⟩ | ⟨hnone, all, hall⟩ := allNeighbours_cases hoff hw hc
  · refine ⟨⟨fun _ => ⟨c, hmem, n, hn⟩, fun _ => ⟨_, herr⟩⟩, fun e he => ?_, fun all hall =>
      ⟨map_comment_allNeighbours hall, hplain all hall⟩⟩
    rw [herr] at he
    exact ⟨c, hmem, hmin, n, hn, (Except.error.inj he).symm⟩
  · refine ⟨⟨fun ⟨e, he⟩ => ?_, fun ⟨c, hmem, n, hn⟩ => absurd hn (hnone c hmem n)⟩,
      fun e he => ?_, fun all hall => ⟨map_comment_allNeighbours hall, hplain all hall⟩⟩
    · rw [hall] at he
      cases he
    · rw [hall] at he
      cases he

def bracketedNames : Tree where
  source := .ofText "f ( x /*a*/ y ) z".toList
  nodes := #[{ kind := "Name", span := ⟨4, 5⟩ }, { kind := "Name", span := ⟨12, 13⟩ },
    { kind := "Brackets", span := ⟨2, 15⟩, fields := [("inner", .list [.node 0, .node 1])] },
    { kind := "Call", span := ⟨0, 15⟩, fields := [("arguments", .node 2)] },
    { kind := "Name", span := ⟨16, 17⟩ },
    { kind := "Calls", span := ⟨0, 17⟩, fields := [("all", .list [.node 3, .node 4])] }]
  comments := #[⟨⟨6, 11⟩, .block, "/*a*/".toList⟩]
  root := 5

theorem allNeighbours_iff_plain_bracketedNames :
    ∃ all, CommentPolicy.allNeighbours { canHold := fun n => n.kind != "Brackets" } bracketedNames =
        .ok all ∧ ∀ d ∈ all, ∃ scope,
      Surrounds { canHold := fun n => n.kind != "Brackets" } bracketedNames d scope := by
  have hw : bracketedNames.WellNested := .of_nodes (by decide +kernel)
  have hplain := allNeighbours_iff_plain (p := { canHold := fun n => n.kind != "Brackets" }) hw
    (fun _ => rfl) (fun _ => rfl) (by decide +kernel)
  exact ⟨[⟨0, some 3, some 0, some 1⟩], by decide +kernel, (hplain.2.2 _ (by decide +kernel)).2⟩

end CommentPolicy

end SourceLayout
