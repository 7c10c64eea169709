import SourceLayout.Proofs.Comment.Descent
import SourceLayout.Proofs.Toy.Shape

/-! # Parents of toy nodes

A bracket or quote stands on either side of what is in a list or a template, so what is below the
program lies strictly inside its parent. Hence no node has two parents, and the way down to a node
leads through its parent.
-/

namespace SourceLayout.Toy

open CommentPolicy

variable {t : Tree} {n m u u' v : NodeId} {c : CommentId}

variable (h : Parsed t)
include h

theorem kind_ne_program (hb : t.Below t.root n) : (t.node n).kind ≠ "Program" := by
  intro hk
  rcases h.kind_of_below h.root_lt hb with hitem | hquasi
  · rw [hk] at hitem
    exact absurd hitem (by decide)
  · rw [hk] at hquasi
    exact absurd hquasi (by decide)

/-- Below the program, children lie strictly inside their parents. -/
theorem strictly_inside (hb : t.Below t.root n) (hm : m ∈ (t.node n).children) :
    (t.node n).span.start < (t.node m).span.start ∧
      (t.node m).span.stop < (t.node n).span.stop := by
  obtain ⟨hlt, hin⟩ := (h.shaped n (h.below_lt_size hb)).inside_interior (kind_ne_program h hb) hm
  have hin : (t.node n).span.start + 1 ≤ (t.node m).span.start ∧
    (t.node m).span.stop ≤ (t.node n).span.stop - 1 := Span.contains_iff.mp hin
  omega

theorem comment_strictly_inside (hb : t.Below t.root n) (hc : c ∈ t.commentIds)
    (hin : (t.node n).span.contains (t.comment c).span = true) :
    (t.node n).span.start < (t.comment c).span.start ∧
      (t.comment c).span.stop < (t.node n).span.stop := by
  have hsize := h.below_lt_size hb
  rcases h.clear n hsize c hc with hapart | ⟨-, hopen⟩
  · have hlt := h.nonempty c hc
    rw [Span.contains_iff] at hin
    unfold Span.Apart at hapart
    omega
  rcases hopen with hk | ⟨-, hinterior⟩ | ⟨hk, hholes⟩
  · exact absurd hk (kind_ne_program h hb)
  · have hinterior : (t.node n).span.start + 1 ≤ (t.comment c).span.start ∧
      (t.comment c).span.stop ≤ (t.node n).span.stop - 1 := Span.contains_iff.mp hinterior
    have hlt := h.nonempty c hc
    omega
  · obtain ⟨qs, es, hqs, -, hw⟩ := (h.shaped n hsize).exists_woven hk
    obtain ⟨i, q, q', hq, hq', hstart, hstop⟩ := hholes qs hqs
    have hfirst := Span.contains_iff.mp
      (hw.inside q (List.mem_append_left _ (List.mem_of_getElem? hq)))
    have hlast := Span.contains_iff.mp
      (hw.inside q' (List.mem_append_left _ (List.mem_of_getElem? hq')))
    have hq := h.wellNested.forward q
    have hq' := h.wellNested.forward q'
    omega

theorem reaches_or_reaches (hv : v ∈ (t.node u).children) (hv' : v ∈ (t.node u').children)
    {w : NodeId} (hw : t.Reaches t.root w) (hu : t.Reaches w u) (hu' : t.Reaches w u') :
    t.Reaches u u' ∨ t.Reaches u' u := by
  have hnest := h.wellNested
  induction w using Nat.strongRecOn with
  | ind w ih =>
    rcases hu with rfl | hu
    · exact .inl hu'
    rcases hu' with rfl | hu'
    · exact .inr (.inr hu)
    obtain ⟨e, he, hreach⟩ := hu.exists_child
    obtain ⟨e', he', hreach'⟩ := hu'.exists_child
    rcases eq_or_apart (hnest.apart w) he he' with rfl | hapart
    · exact ih e (hnest.earlier w e he) (.inr (hw.below_child he)) hreach hreach'
    · exfalso
      have hapart := hapart.mono (hnest.reaches_inside hreach) (hnest.reaches_inside hreach')
      have hin := strictly_inside h (hw.trans_below hu) hv
      have hin' := strictly_inside h (hw.trans_below hu') hv'
      have hforward := hnest.forward v
      unfold Span.Apart at hapart
      omega

theorem not_child_below (hr : t.Reaches t.root u) (hv : v ∈ (t.node u).children)
    (hb : t.Below u u') : v ∉ (t.node u').children := by
  intro hv'
  have hnest := h.wellNested
  obtain ⟨e, he, hreach⟩ := hb.exists_child
  rcases eq_or_apart (hnest.apart u) he hv with rfl | hapart
  · exact Nat.not_lt_of_le (hnest.reaches_le hreach) (hnest.earlier _ _ hv')
  · have hin := strictly_inside h (hr.trans_below hb) hv'
    have hcontains := Span.contains_iff.mp (hnest.reaches_inside hreach)
    have hforward := hnest.forward v
    unfold Span.Apart at hapart
    omega

theorem parent_unique (hr : t.Reaches t.root u) (hr' : t.Reaches t.root u')
    (hv : v ∈ (t.node u).children) (hv' : v ∈ (t.node u').children) : u = u' := by
  rcases reaches_or_reaches h hv hv' (t.reaches_self _) hr hr' with hreach | hreach
  · rcases hreach with rfl | hb
    · rfl
    · exact absurd hv' (not_child_below h hr hv hb)
  · rcases hreach with rfl | hb
    · rfl
    · exact absurd hv (not_child_below h hr' hv' hb)

/-- The way down to a child of a node leads through the node. -/
theorem reaches_parent (hr : t.Reaches t.root n) (hr' : t.Reaches t.root u)
    (hv : v ∈ (t.node u).children) (hb : t.Below n v) : t.Reaches n u := by
  obtain ⟨u', hreach, hv'⟩ := hb.exists_parent
  rwa [parent_unique h hr' (hr.trans hreach) hv hv']

end SourceLayout.Toy
