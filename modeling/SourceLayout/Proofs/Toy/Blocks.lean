import SourceLayout.Proofs.Toy.Printing

/-! # The embedded blocks of a toy tree

A pass gets to the nodes that are neither behind a marker nor below a node behind one. Among them
are the embedded blocks that it tries to format, in the order of the source.
-/

namespace SourceLayout.Toy

section Blocks

variable (t : Tree) (a : Attachments)

/-- A pass from one node gets to another: none on the way, both of them included, is behind a
marker. -/
structure Visible (n m : NodeId) : Prop where
  reached : t.Reaches n m
  unmarked : ∀ k, t.Reaches n k → t.Reaches k m → isMarked t a k = false

/-- The embedded blocks that a pass from a node gets to, in order. -/
def blocks (n : NodeId) : List NodeId :=
  if isMarked t a n then []
  else if (t.node n).kind = "Embed" then [n]
  else (t.node n).children.flatMap fun c => if _h : c < n then blocks c else []
termination_by n

end Blocks

variable {t : Tree} {a : Attachments} {n m k : NodeId}

theorem blocks_eq (hw : t.WellNested) (n : NodeId) :
    blocks t a n = if isMarked t a n then []
      else if (t.node n).kind = "Embed" then [n]
      else (t.node n).children.flatMap (blocks t a) := by
  have hchildren : ((t.node n).children.flatMap fun c => if _h : c < n then blocks t a c else []) =
      (t.node n).children.flatMap (blocks t a) :=
    List.flatMap_congr fun c hc => dif_pos (hw.earlier n c hc)
  rw [blocks, hchildren]

variable (h : Parsed t)
include h

/-- Two children of a node that lead to the same node are the same, unless that is a literal
part. -/
theorem child_unique (hr : t.Reaches t.root n) {d d' : NodeId} (hd : d ∈ (t.node n).children)
    (hd' : d' ∈ (t.node n).children) (hm : t.Reaches d m) (hm' : t.Reaches d' m)
    (hk : (t.node m).kind ≠ "Quasi") : d = d' := by
  have : Std.Symm fun c c' => (t.node c).span.Apart (t.node c').span :=
    ⟨fun _ _ => Span.Apart.symm⟩
  by_contra hne
  have hapart := (h.wellNested.apart n).forall hd hd' hne
  exact hk (quasi_of_reaches h (hr.below_child hd) hapart hm hm')

theorem reaches_of_child (hr : t.Reaches t.root n) {d : NodeId} (hd : d ∈ (t.node n).children)
    (hm : t.Reaches d m) (hk : (t.node m).kind ≠ "Quasi") (hb : t.Below n k) (hkm : t.Reaches k m) :
    t.Reaches d k := by
  obtain ⟨d', hd', hdk⟩ := hb.exists_child
  obtain rfl := child_unique h hr hd hd' hm (hdk.trans hkm) hk
  exact hdk

theorem visible_iff (hr : t.Reaches t.root n) (hk : (t.node m).kind ≠ "Quasi") :
    Visible t a n m ↔ isMarked t a n = false ∧
      (m = n ∨ ∃ d ∈ (t.node n).children, Visible t a d m) := by
  have hw := h.wellNested
  constructor
  · rintro ⟨hreached, hunmarked⟩
    refine ⟨hunmarked n (t.reaches_self n) hreached, ?_⟩
    rcases hreached with rfl | hb
    · exact .inl rfl
    · obtain ⟨d, hd, hdm⟩ := hb.exists_child
      refine .inr ⟨d, hd, hdm, fun k hdk hkm => ?_⟩
      exact hunmarked k (.inr (hdk.below hd)) hkm
  · rintro ⟨hn, rfl | ⟨d, hd, hreached, hunmarked⟩⟩
    · refine ⟨t.reaches_self m, fun k hmk hkm => ?_⟩
      rw [Nat.le_antisymm (hw.reaches_le hmk) (hw.reaches_le hkm)]
      exact hn
    · refine ⟨.inr (hreached.below hd), fun k hnk hkm => ?_⟩
      rcases hnk with rfl | hb
      · exact hn
      · exact hunmarked k (reaches_of_child h hr hd hreached hk hb hkm) hkm

theorem mem_blocks_iff (hr : t.Reaches t.root n) :
    m ∈ blocks t a n ↔ (t.node m).kind = "Embed" ∧ Visible t a n m := by
  induction n using Nat.strongRecOn with
  | ind n ih =>
    have hw := h.wellNested
    have hsize : n < t.nodes.size := h.reaches_lt_size hr
    have hchild : ∀ d ∈ (t.node n).children, (m ∈ blocks t a d ↔
        (t.node m).kind = "Embed" ∧ Visible t a d m) := fun d hd =>
      ih d (hw.earlier n d hd) (.inr (hr.below_child hd))
    rw [blocks_eq hw]
    by_cases hkind : (t.node m).kind = "Embed"
    · rw [visible_iff h hr (by rw [hkind]; decide)]
      split
      · rename_i hmarked
        simp [hmarked]
      · rename_i hmarked
        split
        · rename_i hn
          rw [(h.shaped n hsize).children_eq_nil (by rw [hn]; decide)]
          simp [hmarked, hkind]
        · rename_i hn
          have hne : m ≠ n := by
            rintro rfl
            exact hn hkind
          simp only [List.mem_flatMap, hkind, hmarked, hne, true_and, false_or]
          exact exists_congr fun d => and_congr_right fun hd => by simp [hchild d hd, hkind]
    · refine iff_of_false (fun hm => hkind ?_) fun hm => hkind hm.1
      split at hm
      · cases hm
      · split at hm
        · rename_i hn
          rw [List.mem_singleton.mp hm]
          exact hn
        · obtain ⟨d, hd, hm⟩ := List.mem_flatMap.mp hm
          exact ((hchild d hd).mp hm).1

theorem blocks_quasi (hn : n < t.nodes.size) (hk : (t.node n).kind = "Quasi") :
    blocks t a n = [] := by
  rw [blocks_eq h.wellNested, (h.shaped n hn).children_eq_nil (by rw [hk]; decide)]
  simp [hk]

theorem inside_of_mem_blocks (hr : t.Reaches t.root n) (hm : m ∈ blocks t a n) :
    (t.node n).span.start ≤ (t.node m).span.start ∧ (t.node m).span.stop ≤ (t.node n).span.stop :=
  Span.contains_iff.mp (h.wellNested.reaches_inside ((mem_blocks_iff h hr).mp hm).2.reached)

theorem pairwise_blocks (hr : t.Reaches t.root n) :
    (blocks t a n).Pairwise fun m k => (t.node m).span.stop ≤ (t.node k).span.start := by
  induction n using Nat.strongRecOn with
  | ind n ih =>
    have hw := h.wellNested
    have hsize : n < t.nodes.size := h.reaches_lt_size hr
    have hbetween : ∀ {c d}, c ∈ (t.node n).children → d ∈ (t.node n).children →
        (t.node c).span.stop ≤ (t.node d).span.start → ∀ m ∈ blocks t a c, ∀ k ∈ blocks t a d,
          (t.node m).span.stop ≤ (t.node k).span.start := by
      intro c d hc hd hle m hm k hk
      have hm := inside_of_mem_blocks h (.inr (hr.below_child hc)) hm
      have hk := inside_of_mem_blocks h (.inr (hr.below_child hd)) hk
      omega
    rw [blocks_eq hw]
    split
    · exact .nil
    · split
      · exact List.pairwise_singleton _ _
      · rw [List.pairwise_flatMap]
        refine ⟨fun c hc => ih c (hw.earlier n c hc) (.inr (hr.below_child hc)), ?_⟩
        cases (h.shaped n hsize).form with
        | ident _ children | embed _ children | quasi _ children =>
          rw [children]
          exact .nil
        | list _ hrow | program _ hrow => exact hrow.inOrder.imp_of_mem hbetween
        | @template qs es _ children hwoven =>
          have hqs : ∀ q ∈ qs, q ∈ (t.node n).children := fun q hq =>
            children ▸ List.mem_append_left _ hq
          have hes : ∀ e ∈ es, e ∈ (t.node n).children := fun e he =>
            children ▸ List.mem_append_right _ he
          have hquasi : ∀ q ∈ qs, blocks t a q = [] := fun q hq =>
            blocks_quasi h (Nat.lt_trans (hw.earlier n q (hqs q hq)) hsize) (hwoven.isQuasi q hq)
          rw [children, List.pairwise_append]
          refine ⟨?_, ?_, ?_⟩
          · refine hwoven.inOrder.imp_of_mem fun hq _ _ m hm => ?_
            rw [hquasi _ hq] at hm
            cases hm
          · rw [List.pairwise_iff_getElem]
            intro i j hi hj hij
            refine hbetween (hes _ (List.getElem_mem hi)) (hes _ (List.getElem_mem hj))
              (Nat.le_of_lt ?_)
            exact Hole.lt hw.forward hwoven.inOrder (hwoven.hole i _ (List.getElem?_eq_getElem hi))
              (hwoven.hole j _ (List.getElem?_eq_getElem hj)) hij
          · intro q hq e he m hm
            rw [hquasi q hq] at hm
            cases hm

end SourceLayout.Toy
