import Mathlib.Data.List.Basic
import Mathlib.Data.List.Pairwise
import SourceLayout.Proofs.Comment.Search
import SourceLayout.Proofs.Syntax.Sorting

/-! # Going down to a place

In a well-nested tree the frontier of a node lies along the source without overlaps, so at most
one of its nodes can hold a place that is not empty. Going down from holder to holder therefore
ends at the innermost node around the place, and comes across a node that overlaps the place if
there is one anywhere below.
-/

namespace SourceLayout.CommentPolicy

variable {p : CommentPolicy} {t : Tree} {place : Span} {c m n last : NodeId}

/-- `c` takes the comments of `n`: it is a child of `n`, or of a node that hands them down. -/
inductive Handed (p : CommentPolicy) (t : Tree) : NodeId → NodeId → Prop
  | child {n c : NodeId} : c ∈ (t.node n).children → p.canHold (t.node c) = true → Handed p t n c
  | through {n u c : NodeId} : u ∈ (t.node n).children → p.canHold (t.node u) = false →
      Handed p t u c → Handed p t n c

theorem Handed.isBelow (h : Handed p t n c) : t.Below n c := by
  induction h with
  | child hc _ => exact Tree.below_of_child hc
  | through hu _ _ ih => exact (Tree.below_of_child hu).trans ih

theorem Handed.canHold (h : Handed p t n c) : p.canHold (t.node c) = true := by
  induction h with
  | child _ hc => exact hc
  | through _ _ _ ih => exact ih

/-- The way down to a node that can hold comments starts with one that takes them. -/
theorem exists_handed_of_below (h : t.Below n m) (hm : p.canHold (t.node m) = true) :
    ∃ c, Handed p t n c ∧ (c = m ∨ t.Below c m) := by
  induction h using Relation.TransGen.head_induction_on with
  | single hc => exact ⟨m, .child hc hm, .inl rfl⟩
  | @head n c hc hcm ih =>
    cases hhold : p.canHold (t.node c) with
    | true => exact ⟨c, .child hc hhold, .inr hcm⟩
    | false =>
      obtain ⟨d, hd, hdm⟩ := ih
      exact ⟨d, .through hc hhold hd, hdm⟩

section Frontier

theorem frontier_eq_of_lt (hearlier : ∀ c ∈ p.candidates t n, c < n) :
    p.frontier t n = sortBySpan (fun c => (t.node c).span) ((p.candidates t n).flatMap fun c =>
      if p.canHold (t.node c) then [c] else p.frontier t c) := by
  rw [frontier_eq, frontierFrom]
  congr 1
  apply List.flatMap_congr
  intro c hc
  rw [if_pos (hearlier c hc)]

variable (hoff : ∀ n, p.offspring t n = none)
include hoff

theorem candidates_eq_children (n : NodeId) : p.candidates t n = (t.node n).children := by
  rw [candidates, hoff, Option.getD_none]

theorem frontier_eq_sortBySpan (hw : ∀ n, ∀ c ∈ (t.node n).children, c < n) (n : NodeId) :
    p.frontier t n = sortBySpan (fun c => (t.node c).span)
      ((t.node n).children.flatMap fun c =>
        if p.canHold (t.node c) then [c] else p.frontier t c) := by
  rw [← candidates_eq_children hoff]
  apply frontier_eq_of_lt
  rw [candidates_eq_children hoff]
  exact hw n

theorem mem_frontier_iff (hw : ∀ n, ∀ c ∈ (t.node n).children, c < n) :
    c ∈ p.frontier t n ↔ Handed p t n c := by
  induction n using Nat.strongRecOn generalizing c with
  | ind n ih =>
    rw [frontier_eq_sortBySpan hoff hw, mem_sortBySpan, List.mem_flatMap]
    constructor
    · rintro ⟨u, hu, hc⟩
      split at hc
      · rename_i hhold
        obtain rfl := List.mem_singleton.mp hc
        exact .child hu hhold
      · rename_i hhold
        exact .through hu (by simpa using hhold) ((ih u (hw n u hu)).mp hc)
    · intro h
      cases h with
      | child hc hhold => exact ⟨c, hc, by simp [hhold]⟩
      | @through _ u _ hu hhold hc =>
        refine ⟨u, hu, ?_⟩
        rw [hhold]
        exact (ih u (hw n u hu)).mpr hc

variable (hw : t.WellNested)
include hw

theorem pairwise_apart_frontier (n : NodeId) :
    (p.frontier t n).Pairwise fun c d => (t.node c).span.Apart (t.node d).span := by
  induction n using Nat.strongRecOn with
  | ind n ih =>
    have hsymm : ∀ {c d : NodeId}, (t.node c).span.Apart (t.node d).span →
      (t.node d).span.Apart (t.node c).span := Span.Apart.symm
    rw [frontier_eq_sortBySpan hoff hw.earlier, (perm_sortBySpan _ _).pairwise_iff hsymm,
      List.pairwise_flatMap]
    have hinside : ∀ u ∈ (t.node n).children,
        ∀ c ∈ (if p.canHold (t.node u) then [u] else p.frontier t u),
        (t.node u).span.contains (t.node c).span = true := by
      intro u _ c hc
      split at hc
      · rw [List.mem_singleton.mp hc, Span.contains_iff]
        exact ⟨Nat.le_refl _, Nat.le_refl _⟩
      · exact hw.below_inside ((mem_frontier_iff hoff hw.earlier).mp hc).isBelow
    refine ⟨fun u hu => ?_, (hw.apart n).imp_of_mem fun hu hv huv c hc d hd => ?_⟩
    · split
      · exact List.pairwise_singleton _ _
      · exact ih u (hw.earlier n u hu)
    · exact huv.mono (hinside _ hu c hc) (hinside _ hv d hd)

/-- Each node of a frontier ends before the next one starts, or where it starts. -/
theorem pairwise_frontier (n : NodeId) :
    (p.frontier t n).Pairwise fun c d => (t.node c).span.stop ≤ (t.node d).span.start := by
  have hsorted :
      (p.frontier t n).Pairwise fun c d => (t.node c).span.le (t.node d).span = true := by
    rw [frontier_eq_sortBySpan hoff hw.earlier]
    exact pairwise_sortBySpan _ _
  exact hsorted.imp₂ (fun c d hle hapart => hapart.stop_le_start hle (hw.forward d))
    (pairwise_apart_frontier hoff hw n)

end Frontier

section Side

variable {node : Span}

theorem sideOfSpan_eq_inside_iff :
    sideOfSpan place node = .inside ↔ node.contains place = true := by
  unfold sideOfSpan
  split_ifs <;> simp_all

theorem sideOfSpan_eq_across_iff : sideOfSpan place node = .across ↔
    ¬ node.contains place = true ∧ ¬ node.stop ≤ place.start ∧ ¬ place.stop ≤ node.start := by
  unfold sideOfSpan
  split_ifs <;> simp_all

theorem sideOfSpan_eq_before_iff (hp : place.start < place.stop) :
    sideOfSpan place node = .before ↔ node.stop ≤ place.start := by
  have hc := Span.contains_iff (s := node) (u := place)
  unfold sideOfSpan
  split_ifs with hin
  · rw [hc] at hin
    refine ⟨fun h => (nomatch h), fun h => ?_⟩
    omega
  all_goals simp_all

theorem sideOfSpan_eq_after_iff (hp : place.start < place.stop) (hn : node.start ≤ node.stop) :
    sideOfSpan place node = .after ↔ place.stop ≤ node.start := by
  have hc := Span.contains_iff (s := node) (u := place)
  unfold sideOfSpan
  split_ifs with hin hb ha
  · rw [hc] at hin
    refine ⟨fun h => (nomatch h), fun h => ?_⟩
    omega
  · refine ⟨fun h => (nomatch h), fun h => ?_⟩
    omega
  all_goals simp_all

theorem eq_or_apart {nodes : List NodeId}
    (h : nodes.Pairwise fun c d => (t.node c).span.Apart (t.node d).span)
    (hc : c ∈ nodes) (hm : m ∈ nodes) : c = m ∨ (t.node c).span.Apart (t.node m).span := by
  have hsymm : Std.Symm fun c d : NodeId => (t.node c).span.Apart (t.node d).span :=
    ⟨fun _ _ => Span.Apart.symm⟩
  by_cases hcm : c = m
  · exact .inl hcm
  · exact .inr (h.forall hc hm hcm)

end Side

/-- Where the way down from a node to a place ends: at the innermost node around the place that can
hold comments, or at the node itself if there is none below it. -/
structure Innermost (p : CommentPolicy) (t : Tree) (place : Span) (n last : NodeId) : Prop where
  around : last = n ∨ t.Below n last ∧ p.canHold (t.node last) = true ∧
    (t.node last).span.contains place = true
  innermost : ∀ m, t.Below n m → p.canHold (t.node m) = true →
    (t.node m).span.contains place = true → m = last ∨ t.Below m last

theorem Innermost.reaches (h : Innermost p t place n last) :
    t.Reaches n last := h.around.imp id And.left

theorem Frontiers.descend_eq (f : Frontiers p t) (side : NodeId → Side) (n : NodeId) :
    f.descend side n = match search side (p.frontier t n) none none with
      | .inside c => if c < n then f.descend side c else (n, .inside c)
      | finding => (n, finding) := by
  rw [Frontiers.descend, Frontiers.find_eq]
  split <;> simp_all

section Descend

variable (hoff : ∀ n, p.offspring t n = none) (hw : t.WellNested)
include hoff hw

theorem ordered_frontier (hplace : place.start < place.stop) (n : NodeId) :
    Ordered (fun n => sideOfSpan place (t.node n).span) (p.frontier t n) := by
  refine (pairwise_frontier hoff hw n).imp fun {c d} hcd => ?_
  have hc := hw.forward c
  have hd := hw.forward d
  rw [sideOfSpan_eq_before_iff hplace, sideOfSpan_eq_before_iff hplace,
    sideOfSpan_eq_after_iff hplace hc, sideOfSpan_eq_after_iff hplace hd]
  omega

/-- A node below `n` that holds or overlaps the place lies in the one node of the frontier that
does. -/
theorem exists_frontier_of_below (hb : t.Below n m) (hm : p.canHold (t.node m) = true)
    (hside : sideOfSpan place (t.node m).span = .inside ∨
      sideOfSpan place (t.node m).span = .across) :
    ∃ c ∈ p.frontier t n, (c = m ∨ t.Below c m) ∧
      (sideOfSpan place (t.node c).span = .inside ∨ sideOfSpan place (t.node c).span = .across) := by
  obtain ⟨c, hc, hcm⟩ := exists_handed_of_below hb hm
  refine ⟨c, (mem_frontier_iff hoff hw.earlier).mpr hc, hcm, ?_⟩
  rcases hcm with rfl | hcm
  · exact hside
  · have hin := Span.contains_iff.mp (hw.below_inside hcm)
    have hmf := hw.forward m
    rw [sideOfSpan_eq_inside_iff, sideOfSpan_eq_across_iff, Span.contains_iff] at hside ⊢
    omega

/-- Where a node of the frontier holds the place, all nodes that hold or overlap it are found
there. -/
theorem eq_or_below_of_inside (hplace : place.start < place.stop) (hc : c ∈ p.frontier t n)
    (hin : (t.node c).span.contains place = true) (hb : t.Below n m)
    (hm : p.canHold (t.node m) = true)
    (hside : sideOfSpan place (t.node m).span = .inside ∨
      sideOfSpan place (t.node m).span = .across) : c = m ∨ t.Below c m := by
  obtain ⟨d, hd, hdm, hdside⟩ := exists_frontier_of_below hoff hw hb hm hside
  suffices c = d from this ▸ hdm
  refine (eq_or_apart (pairwise_apart_frontier hoff hw n) hc hd).resolve_right fun hcd => ?_
  have hdf := hw.forward d
  rw [sideOfSpan_eq_inside_iff, sideOfSpan_eq_across_iff] at hdside
  rw [Span.contains_iff] at hin hdside
  unfold Span.Apart at hcd
  omega

/-- The innermost node around the place is looked for in the node of the frontier that holds it. -/
theorem Innermost.of_frontier (h : Innermost p t place c last) (hplace : place.start < place.stop)
    (hc : c ∈ p.frontier t n) (hin : (t.node c).span.contains place = true) :
    Innermost p t place n last := by
  have hhanded := (mem_frontier_iff hoff hw.earlier).mp hc
  constructor
  · rcases h.around with rfl | ⟨hb, hhold⟩
    · exact .inr ⟨hhanded.isBelow, hhanded.canHold, hin⟩
    · exact .inr ⟨hhanded.isBelow.trans hb, hhold⟩
  · intro m hb hm hmin
    rcases eq_or_below_of_inside hoff hw hplace hc hin hb hm
      (.inl (sideOfSpan_eq_inside_iff.mpr hmin)) with rfl | hcm
    · exact h.around.imp Eq.symm And.left
    · exact h.innermost m hcm hm hmin

theorem Frontiers.descend_ne_inside (f : Frontiers p t) (n : NodeId) :
    f.descend (fun n => sideOfSpan place (t.node n).span) n ≠ (last, .inside c) := by
  induction n using Nat.strongRecOn with
  | ind n ih =>
    rw [f.descend_eq]
    split
    · rename_i d hs
      have hd := hw.below_lt ((mem_frontier_iff hoff hw.earlier).mp (search_eq_inside hs).1).isBelow
      rw [if_pos hd]
      exact ih d hd
    · rename_i hne
      intro h
      exact hne c (congrArg Prod.snd h)

/-- The way down stops at a node that overlaps the place only if there is one. -/
theorem Frontiers.descend_eq_across (f : Frontiers p t)
    (h : f.descend (fun n => sideOfSpan place (t.node n).span) n = (last, .across m)) :
    t.Below n m ∧ p.canHold (t.node m) = true ∧ sideOfSpan place (t.node m).span = .across := by
  induction n using Nat.strongRecOn with
  | ind n ih =>
    rw [f.descend_eq] at h
    split at h
    · rename_i d hs
      have hd := (mem_frontier_iff hoff hw.earlier).mp (search_eq_inside hs).1
      rw [if_pos (hw.below_lt hd.isBelow)] at h
      obtain ⟨hb, hm⟩ := ih d (hw.below_lt hd.isBelow) h
      exact ⟨hd.isBelow.trans hb, hm⟩
    · obtain ⟨hm, hside⟩ := search_eq_across (congrArg Prod.snd h)
      have hd := (mem_frontier_iff hoff hw.earlier).mp hm
      exact ⟨hd.isBelow, hd.canHold, hside⟩

/-- Where the way down ends between two nodes, it has come to the innermost node around the place,
no node below overlaps the place, and the two nodes are the nearest of the frontier there. -/
theorem Frontiers.descend_eq_between (hplace : place.start < place.stop) (f : Frontiers p t)
    {before after : Option NodeId}
    (h : f.descend (fun n => sideOfSpan place (t.node n).span) n = (last, .between before after)) :
    Innermost p t place n last ∧
      (∀ m, t.Below n m → p.canHold (t.node m) = true →
        sideOfSpan place (t.node m).span ≠ .across) ∧
      before = ((p.frontier t last).filter
        fun c => sideOfSpan place (t.node c).span == .before).getLast? ∧
      after = ((p.frontier t last).filter
        fun c => sideOfSpan place (t.node c).span == .after).head? := by
  induction n using Nat.strongRecOn with
  | ind n ih =>
    rw [f.descend_eq] at h
    split at h
    · rename_i c hs
      obtain ⟨hmem, hin⟩ := search_eq_inside hs
      have hc := (mem_frontier_iff hoff hw.earlier).mp hmem
      rw [if_pos (hw.below_lt hc.isBelow)] at h
      obtain ⟨hinner, hno, hbefore, hafter⟩ := ih c (hw.below_lt hc.isBelow) h
      rw [sideOfSpan_eq_inside_iff] at hin
      refine ⟨hinner.of_frontier hoff hw hplace hmem hin, fun m hb hm hacross => ?_, hbefore, hafter⟩
      rcases eq_or_below_of_inside hoff hw hplace hmem hin hb hm (.inr hacross) with rfl | hcm
      · exact (sideOfSpan_eq_across_iff.mp hacross).1 hin
      · exact hno m hcm hm hacross
    · obtain ⟨rfl, hs⟩ := Prod.mk.inj h
      obtain ⟨hsides, hbefore, hafter⟩ := search_eq_between (ordered_frontier hoff hw hplace n) hs
      have hnone : ∀ m, t.Below n m → p.canHold (t.node m) = true →
          ¬ (sideOfSpan place (t.node m).span = .inside ∨
            sideOfSpan place (t.node m).span = .across) := by
        intro m hb hm hside
        obtain ⟨d, hd, -, hdside⟩ := exists_frontier_of_below hoff hw hb hm hside
        rcases hsides d hd with hd | hd <;> simp [hd] at hdside
      refine ⟨⟨.inl rfl, fun m hb hm hmin => ?_⟩, fun m hb hm hacross => ?_, hbefore, hafter⟩
      · exact absurd (.inl (sideOfSpan_eq_inside_iff.mpr hmin)) (hnone m hb hm)
      · exact hnone m hb hm (.inr hacross)

end Descend

end SourceLayout.CommentPolicy
