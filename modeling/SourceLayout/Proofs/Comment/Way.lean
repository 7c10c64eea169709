import SourceLayout.Proofs.Comment.Neighbours

/-! # The way down in any tree

Spans may be inverted, overlap each other or reach out of their parents, and a node may have
several parents. Then the nodes of a frontier need not come in the order in which the search takes
them to lie. It still goes only into nodes that hold the place, and what it ends with is either a
node across the place or two neighbours in the frontier, with the place between them.
-/

namespace SourceLayout.CommentPolicy

variable {p : CommentPolicy} {t : Tree} {side : NodeId → Side} {way : List NodeId}
  {n last : NodeId}

variable (p t side) in
/-- Going down from `n`, the nodes on the way are gone into one after the other, up to `last`. -/
inductive Descends : (n : NodeId) → (way : List NodeId) → (last : NodeId) → Prop
  | stay {n : NodeId} (h : ∀ m, search side (p.frontier t n) none none ≠ .inside m) :
    Descends n [] n
  | enter {n m last : NodeId} {way : List NodeId}
    (hm : search side (p.frontier t n) none none = .inside m) (h : Descends m way last) :
    Descends n (m :: way) last

theorem Descends.inside (h : Descends p t side n way last) : ∀ m ∈ way, side m = .inside := by
  induction h with
  | stay => nofun
  | enter hm _ ih => exact List.forall_mem_cons.mpr ⟨(search_eq_inside hm).2, ih⟩

theorem Descends.search_ne_inside (h : Descends p t side n way last) (m : NodeId) :
    search side (p.frontier t last) none none ≠ .inside m := by
  induction h with
  | stay h => exact h m
  | enter _ _ ih => exact ih

theorem Descends.getLast?_eq (h : Descends p t side n way last) :
    (n :: way).getLast? = some last := by
  induction h with
  | stay => rfl
  | enter _ _ ih => rw [List.getLast?_cons_cons, ih]

section Earlier

variable {bound : Nat} (hearlier : ∀ n < bound, ∀ c ∈ p.candidates t n, c < n)
include hearlier

theorem lt_of_mem_frontier {c : NodeId} (hn : n < bound) (hc : c ∈ p.frontier t n) : c < n := by
  induction n using Nat.strongRecOn with
  | ind n ih =>
    rw [frontier_eq, frontierFrom, mem_sortBySpan, List.mem_flatMap] at hc
    obtain ⟨u, hu, hc⟩ := hc
    have hun := hearlier n hn u hu
    split at hc
    · rwa [List.mem_singleton.mp hc]
    · exact Nat.lt_trans (ih u hun (Nat.lt_trans hun hn) hc) hun

theorem Descends.isChain (h : Descends p t side n way last) (hn : n < bound) :
    (n :: way).IsChain (· > ·) := by
  induction h with
  | stay => exact .singleton _
  | enter hm _ ih =>
    have hlt := lt_of_mem_frontier hearlier hn (search_eq_inside hm).1
    exact .cons_cons hlt (ih (Nat.lt_trans hlt hn))

/-- The way down ends with a search among the frontier of the last node. -/
theorem Descends.descend_eq (h : Descends p t side n way last) (f : Frontiers p t)
    (hn : n < bound) :
    f.descend side n = (last, search side (p.frontier t last) none none) := by
  induction h with
  | @stay n h =>
    rw [f.descend_eq]
    cases hs : search side (p.frontier t n) none none with
    | inside m => exact absurd hs (h m)
    | across m => rfl
    | between before after => rfl
  | enter hm _ ih =>
    have hlt := lt_of_mem_frontier hearlier hn (search_eq_inside hm).1
    rw [f.descend_eq, hm]
    simp only [if_pos hlt, ih (Nat.lt_trans hlt hn)]

theorem exists_descends_of_lt (side : NodeId → Side) (hn : n < bound) :
    ∃ way last, Descends p t side n way last := by
  induction n using Nat.strongRecOn with
  | ind n ih =>
    cases hs : search side (p.frontier t n) none none with
    | inside m =>
      have hm := lt_of_mem_frontier hearlier hn (search_eq_inside hs).1
      obtain ⟨way, last, hway⟩ := ih m hm (Nat.lt_trans hm hn)
      exact ⟨m :: way, last, .enter hs hway⟩
    | across m => exact ⟨[], n, .stay fun _ h => by simp [hs] at h⟩
    | between before after => exact ⟨[], n, .stay fun _ h => by simp [hs] at h⟩

end Earlier

theorem exists_descends (hoff : ∀ n, p.offspring t n = none)
    (hearlier : ∀ n, ∀ c ∈ (t.node n).children, c < n) (f : Frontiers p t) (side : NodeId → Side)
    (n : NodeId) : ∃ way last, Descends p t side n way last ∧
      f.descend side n = (last, search side (p.frontier t last) none none) := by
  have hcandidates : ∀ m < n + 1, ∀ c ∈ p.candidates t m, c < m := by
    intro m _
    rw [candidates_eq_children hoff]
    exact hearlier m
  obtain ⟨way, last, hway⟩ := exists_descends_of_lt hcandidates side n.lt_succ_self
  exact ⟨way, last, hway, hway.descend_eq hcandidates f n.lt_succ_self⟩

/-- The nodes on either side of a position in a list; there is none before its start and none
behind its end. -/
structure Straddle (nodes : List NodeId) (k : Nat) (before after : Option NodeId) : Prop where
  before_eq : k ≠ 0 → before = nodes[k - 1]?
  after_eq : after = nodes[k]?
  before_none : before = none ↔ k = 0
  after_none : after = none ↔ k = nodes.length

theorem straddle_append (left right : List NodeId) :
    Straddle (left ++ right) left.length left.getLast? right.head? where
  before_eq h := by
    rw [List.getLast?_eq_getElem?, List.getElem?_append_left (by omega)]
  after_eq := by rw [List.getElem?_append_right (Nat.le_refl _), Nat.sub_self, List.head?_eq_getElem?]
  before_none := by rw [List.getLast?_eq_none_iff, List.length_eq_zero_iff]
  after_none := by
    rw [List.head?_eq_none_iff, List.length_append, Nat.left_eq_add, List.length_eq_zero_iff]

/-- A search that ends between two nodes has found two neighbours in the list. -/
theorem exists_straddle {nodes : List NodeId} {before after : Option NodeId}
    (h : search side nodes none none = .between before after) : ∃ k,
      Straddle nodes k before after ∧ (∀ m ∈ before, side m = .before) ∧
        ∀ m ∈ after, side m = .after := by
  have hfound := found_search side nodes none none
  rw [h] at hfound
  cases hfound with
  | between left right hnodes hleft hright =>
    subst hnodes
    rw [Option.or_none, Option.or_none]
    exact ⟨left.length, straddle_append left right, hleft, hright⟩

theorem stop_le_of_sideOfSpan {place node : Span} (h : sideOfSpan place node = .before) :
    node.stop ≤ place.start := by
  unfold sideOfSpan at h
  split_ifs at h with _ hstop
  exact hstop

theorem le_start_of_sideOfSpan {place node : Span} (h : sideOfSpan place node = .after) :
    place.stop ≤ node.start := by
  unfold sideOfSpan at h
  split_ifs at h with _ _ hstart
  exact hstart

/-- Whatever the spans of a tree are, looking for the neighbours of a comment goes only into nodes
that hold it. Then the neighbours are those on either side of a position among the nodes of the
last frontier and lie on either side of the comment, or the node that is reported is one of that
frontier and overlaps the comment. -/
theorem Frontiers.neighbours_between_or_overlap (hoff : ∀ n, p.offspring t n = none)
    (hearlier : ∀ n, ∀ c ∈ (t.node n).children, c < n) (f : Frontiers p t) (c : CommentId) :
    ∃ way last, Descends p t (fun n => sideOfSpan (t.comment c).span (t.node n).span) t.root way last ∧
      (∀ m ∈ way, (t.node m).span.contains (t.comment c).span = true) ∧
      ((∃ before after k, f.neighbours c = .ok (neighboursIn p t c last before after) ∧
          Straddle (p.frontier t last) k before after ∧
          (∀ m ∈ before, (t.node m).span.stop ≤ (t.comment c).span.start) ∧
          ∀ m ∈ after, (t.comment c).span.stop ≤ (t.node m).span.start) ∨
        ∃ m ∈ p.frontier t last,
          f.neighbours c = .error (.overlap (t.comment c).span (t.node m).span (t.node m).kind) ∧
          ¬ (t.node m).span.contains (t.comment c).span = true ∧
          ¬ (t.node m).span.stop ≤ (t.comment c).span.start ∧
          ¬ (t.comment c).span.stop ≤ (t.node m).span.start) := by
  obtain ⟨way, last, hway, hdescend⟩ := exists_descends hoff hearlier f
    (fun n => sideOfSpan (t.comment c).span (t.node n).span) t.root
  refine ⟨way, last, hway, fun m hm => sideOfSpan_eq_inside_iff.mp (hway.inside m hm), ?_⟩
  unfold Frontiers.neighbours
  dsimp only
  rw [hdescend]
  cases hs : search (fun n => sideOfSpan (t.comment c).span (t.node n).span) (p.frontier t last)
    none none with
  | inside m => exact absurd hs (hway.search_ne_inside m)
  | across m =>
    obtain ⟨hmem, hside⟩ := search_eq_across hs
    exact .inr ⟨m, hmem, rfl, sideOfSpan_eq_across_iff.mp hside⟩
  | between before after =>
    obtain ⟨k, hk, hbefore, hafter⟩ := exists_straddle hs
    exact .inl ⟨before, after, k, rfl, hk, fun m hm => stop_le_of_sideOfSpan (hbefore m hm),
      fun m hm => le_start_of_sideOfSpan (hafter m hm)⟩

def tangledNames : Tree where
  source := .ofText "a /*b*//*c*/ d".toList
  nodes := #[{ kind := "Name", span := ⟨0, 1⟩ }, { kind := "Name", span := ⟨9, 3⟩ },
    { kind := "Names", span := ⟨1, 9⟩, fields := [("all", .list [.node 1, .node 0])] },
    { kind := "Names", span := ⟨0, 14⟩, fields := [("all", .list [.node 2, .node 0])] }]
  comments := #[⟨⟨2, 7⟩, .block, "/*b*/".toList⟩, ⟨⟨7, 12⟩, .block, "/*c*/".toList⟩]
  root := 3

theorem Frontiers.neighbours_between_or_overlap_tangledNames :
    (∃ last before after k, Straddle (frontier {} tangledNames last) k before after ∧
      neighboursIn {} tangledNames 0 last before after = ⟨0, some 2, some 0, some 1⟩) ∧
    ∃ last, ∃ m ∈ frontier {} tangledNames last, Failure.overlap ⟨7, 12⟩ ⟨1, 9⟩ "Names" =
      .overlap (tangledNames.comment 1).span (tangledNames.node m).span (tangledNames.node m).kind := by
  have hearlier : ∀ n, ∀ c ∈ (tangledNames.node n).children, c < n := by
    intro n c hc
    rcases Nat.lt_or_ge n tangledNames.nodes.size with hn | hn
    · have hall : ∀ n < tangledNames.nodes.size, ∀ c ∈ (tangledNames.node n).children, c < n := by
        decide
      exact hall n hn c hc
    · rw [Tree.node_of_size_le hn] at hc
      cases hc
  have hfirst : (frontiers {} tangledNames).neighbours 0 = .ok ⟨0, some 2, some 0, some 1⟩ := by
    decide +kernel
  have hsecond : (frontiers {} tangledNames).neighbours 1 =
      .error (.overlap ⟨7, 12⟩ ⟨1, 9⟩ "Names") := by
    decide +kernel
  constructor
  · obtain ⟨-, last, -, -, ⟨before, after, k, hd, hk, -⟩ | ⟨_, -, he, -⟩⟩ :=
      (frontiers {} tangledNames).neighbours_between_or_overlap (fun _ => rfl) hearlier 0
    · exact ⟨last, before, after, k, hk, Except.ok.inj (hd.symm.trans hfirst)⟩
    · rw [hfirst] at he
      cases he
  · obtain ⟨-, last, -, -, ⟨_, _, _, hd, -⟩ | ⟨m, hm, he, -⟩⟩ :=
      (frontiers {} tangledNames).neighbours_between_or_overlap (fun _ => rfl) hearlier 1
    · rw [hsecond] at hd
      cases hd
    · exact ⟨last, m, hm, Except.error.inj (hsecond.symm.trans he)⟩

end SourceLayout.CommentPolicy
