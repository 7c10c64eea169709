import Mathlib.Logic.Relation
import SourceLayout.Syntax.Tree

/-! # Nested trees

In a well-nested tree children are made before their parents, lie inside them and do not overlap
one another. So every node below another lies inside it, and going down never comes back.
-/

namespace SourceLayout

namespace Span

variable {s u v : Span}

theorem contains_iff : s.contains u = true ↔ s.start ≤ u.start ∧ u.stop ≤ s.stop := by
  simp [contains]

theorem contains_trans (h : s.contains u = true) (h' : u.contains v = true) :
    s.contains v = true := by
  rw [contains_iff] at *
  omega

/-- One of two spans ends before the other starts, or where it starts. -/
def Apart (s u : Span) : Prop := s.stop ≤ u.start ∨ u.stop ≤ s.start

instance : Decidable (s.Apart u) := inferInstanceAs (Decidable (_ ∨ _))

theorem Apart.symm (h : s.Apart u) : u.Apart s := Or.symm h

theorem Apart.mono {s' u' : Span} (h : s.Apart u) (hs : s.contains s' = true)
    (hu : u.contains u' = true) : s'.Apart u' := by
  rw [contains_iff] at hs hu
  unfold Apart at *
  omega

theorem not_apart_of_contains (hs : s.contains v = true) (hu : u.contains v = true)
    (hv : v.start < v.stop) : ¬ s.Apart u := by
  rw [contains_iff] at hs hu
  unfold Apart
  omega

theorem Apart.stop_le_start (h : s.Apart u) (hle : s.le u = true) (hu : u.start ≤ u.stop) :
    s.stop ≤ u.start := by
  rw [le_iff] at hle
  unfold Apart at h
  omega

end Span

namespace Tree

variable {t : Tree} {c d m n : NodeId}

/-- `c` is a child of `n`, or below a child of it. -/
def Below (t : Tree) : NodeId → NodeId → Prop :=
  Relation.TransGen fun n c => c ∈ (t.node n).children

theorem below_of_child (h : c ∈ (t.node n).children) : t.Below n c := .single h

theorem Below.trans (h : t.Below n c) (h' : t.Below c d) :
    t.Below n d :=
  Relation.TransGen.trans h h'

/-- `m` is `n` itself or below it. -/
def Reaches (t : Tree) (n m : NodeId) : Prop := m = n ∨ t.Below n m

theorem reaches_self (t : Tree) (n : NodeId) : t.Reaches n n := .inl rfl

theorem Below.exists_child (h : t.Below n m) : ∃ c ∈ (t.node n).children, t.Reaches c m := by
  obtain ⟨c, hc, hm⟩ := Relation.TransGen.head'_iff.mp h
  exact ⟨c, hc, Relation.reflTransGen_iff_eq_or_transGen.mp hm⟩

theorem Below.exists_parent (h : t.Below n c) : ∃ m, t.Reaches n m ∧ c ∈ (t.node m).children := by
  obtain ⟨m, hm, hc⟩ := Relation.TransGen.tail'_iff.mp h
  exact ⟨m, Relation.reflTransGen_iff_eq_or_transGen.mp hm, hc⟩

theorem Reaches.trans_below (h : t.Reaches n m) (hd : t.Below m d) : t.Below n d := by
  rcases h with rfl | h
  · exact hd
  · exact h.trans hd

theorem Reaches.trans (h : t.Reaches n m) (hd : t.Reaches m d) : t.Reaches n d := by
  rcases hd with rfl | hd
  · exact h
  · exact .inr (h.trans_below hd)

theorem Reaches.below (h : t.Reaches c m) (hc : c ∈ (t.node n).children) : t.Below n m := by
  rcases h with rfl | h
  · exact below_of_child hc
  · exact (below_of_child hc).trans h

theorem Reaches.below_child (h : t.Reaches n m) (hc : c ∈ (t.node m).children) : t.Below n c :=
  h.trans_below (below_of_child hc)

/-- Children are made before their parents, lie inside them and do not overlap one another. -/
structure WellNested (t : Tree) : Prop where
  earlier : ∀ n, ∀ c ∈ (t.node n).children, c < n
  forward : ∀ n, (t.node n).span.start ≤ (t.node n).span.stop
  inside : ∀ n, ∀ c ∈ (t.node n).children, (t.node n).span.contains (t.node c).span = true
  apart : ∀ n, (t.node n).children.Pairwise fun c d => (t.node c).span.Apart (t.node d).span

theorem node_of_size_le (h : t.nodes.size ≤ n) : t.node n = { kind := "", span := {} } := by
  simp [node, Array.getD_eq_getD_getElem?, h]

namespace WellNested

theorem of_nodes (h : ∀ n < t.nodes.size, (∀ c ∈ (t.node n).children, c < n) ∧
    (t.node n).span.start ≤ (t.node n).span.stop ∧
    (∀ c ∈ (t.node n).children, (t.node n).span.contains (t.node c).span = true) ∧
    (t.node n).children.Pairwise fun c d => (t.node c).span.Apart (t.node d).span) :
    t.WellNested := by
  have hall : ∀ n, (∀ c ∈ (t.node n).children, c < n) ∧
      (t.node n).span.start ≤ (t.node n).span.stop ∧
      (∀ c ∈ (t.node n).children, (t.node n).span.contains (t.node c).span = true) ∧
      (t.node n).children.Pairwise fun c d => (t.node c).span.Apart (t.node d).span := by
    intro n
    by_cases hn : n < t.nodes.size
    · exact h n hn
    · rw [node_of_size_le (Nat.le_of_not_lt hn)]
      exact ⟨fun _ hc => (nomatch hc), Nat.le_refl 0, fun _ hc => (nomatch hc), .nil⟩
  exact ⟨fun n => (hall n).1, fun n => (hall n).2.1, fun n => (hall n).2.2.1,
    fun n => (hall n).2.2.2⟩

theorem below_lt (h : t.WellNested) (hb : t.Below n c) : c < n := by
  induction hb with
  | single hc => exact h.earlier _ _ hc
  | tail _ hc ih => exact Nat.lt_trans (h.earlier _ _ hc) ih

theorem not_below_self (h : t.WellNested) :
    ¬ t.Below n n :=
  fun hb => Nat.lt_irrefl n (h.below_lt hb)

theorem below_inside (h : t.WellNested) (hb : t.Below n c) :
    (t.node n).span.contains (t.node c).span = true := by
  induction hb with
  | single hc => exact h.inside _ _ hc
  | tail _ hc ih => exact Span.contains_trans ih (h.inside _ _ hc)

theorem reaches_le (h : t.WellNested) (hr : t.Reaches n c) : c ≤ n := by
  rcases hr with rfl | hb
  · exact Nat.le_refl _
  · exact Nat.le_of_lt (h.below_lt hb)

theorem reaches_inside (h : t.WellNested) (hr : t.Reaches n c) :
    (t.node n).span.contains (t.node c).span = true := by
  rcases hr with rfl | hb
  · exact Span.contains_iff.mpr ⟨Nat.le_refl _, Nat.le_refl _⟩
  · exact h.below_inside hb

end WellNested

end Tree

end SourceLayout
