import Mathlib.Data.List.Induction
import SourceLayout.Comment.Frontier
import SourceLayout.Proofs.Syntax.Nesting

/-! # Looking for a place among nodes

Halving a list probes few of its nodes, yet what it ends with is always a place between two
neighbours in the list. Where the nodes before the place come first and those after it last, no
other node is passed over: the search finds a node that holds or overlaps the place if there is
one.
-/

namespace SourceLayout.CommentPolicy

variable {side : NodeId → Side} {nodes front rest : List NodeId}
  {preceding following : Option NodeId} {finding : Finding} {n : NodeId}

/-- What a search ends with, whatever the order of the nodes: a node on that side of the place, or
a cut of the list with a node before the place on its left and one after it on its right. Where a
part of the cut is empty, the neighbour known from the start remains. -/
inductive Found (side : NodeId → Side) (nodes : List NodeId) (preceding following : Option NodeId) :
    Finding → Prop
  | inside {n : NodeId} : n ∈ nodes → side n = .inside →
      Found side nodes preceding following (.inside n)
  | across {n : NodeId} : n ∈ nodes → side n = .across →
      Found side nodes preceding following (.across n)
  | between (left right : List NodeId) : nodes = left ++ right →
      (∀ n ∈ left.getLast?, side n = .before) → (∀ n ∈ right.head?, side n = .after) →
      Found side nodes preceding following
        (.between (left.getLast?.or preceding) (right.head?.or following))

theorem Found.of_behind (hn : side n = .before) (h : Found side rest (some n) following finding) :
    Found side (front ++ n :: rest) preceding following finding := by
  cases h with
  | inside hm hside => exact .inside (by simp [hm]) hside
  | across hm hside => exact .across (by simp [hm]) hside
  | between left right hrest hleft hright =>
    have hlast : (front ++ n :: left).getLast? = left.getLast?.or (some n) := by
      rw [List.getLast?_append, List.getLast?_cons]
      cases left.getLast? <;> rfl
    have hbetween : Found side (front ++ n :: rest) preceding following _ :=
      .between (front ++ n :: left) right (by rw [hrest]; simp) ?_ hright
    · rw [hlast, Option.or_assoc, Option.some_or] at hbetween
      exact hbetween
    · intro m hm
      rw [hlast] at hm
      rcases Option.or_eq_some_iff.mp hm with hm | ⟨-, hm⟩
      · exact hleft m hm
      · exact Option.some.inj hm ▸ hn

theorem Found.of_ahead (hn : side n = .after) (h : Found side front preceding (some n) finding) :
    Found side (front ++ n :: rest) preceding following finding := by
  cases h with
  | inside hm hside => exact .inside (by simp [hm]) hside
  | across hm hside => exact .across (by simp [hm]) hside
  | between left right hfront hleft hright =>
    have hhead : (right ++ n :: rest).head? = right.head?.or (some n) := by
      rw [List.head?_append, List.head?_cons]
    have hbetween : Found side (front ++ n :: rest) preceding following _ :=
      .between left (right ++ n :: rest) (by rw [hfront]; simp) hleft ?_
    · rw [hhead, Option.or_assoc, Option.some_or] at hbetween
      exact hbetween
    · intro m hm
      rw [hhead] at hm
      rcases Option.or_eq_some_iff.mp hm with hm | ⟨-, hm⟩
      · exact hright m hm
      · exact Option.some.inj hm ▸ hn

theorem found_search (side : NodeId → Side) (nodes : List NodeId)
    (preceding following : Option NodeId) :
    Found side nodes preceding following (search side nodes preceding following) := by
  fun_induction search side nodes preceding following with
  | case1 nodes preceding following h =>
    obtain rfl : nodes = [] := by
      have hlen := congrArg List.length h
      rw [List.length_drop, List.length_nil] at hlen
      exact List.length_eq_zero_iff.mp (by omega)
    exact .between [] [] rfl (by simp) (by simp)
  | case2 nodes preceding following n rest h hn =>
    exact .inside (List.mem_of_mem_drop (h ▸ List.mem_cons_self)) hn
  | case3 nodes preceding following n rest h hn =>
    exact .across (List.mem_of_mem_drop (h ▸ List.mem_cons_self)) hn
  | case4 nodes preceding following n rest h hn ih =>
    rw [← List.take_append_drop (nodes.length / 2) nodes, h]
    exact ih.of_behind hn
  | case5 nodes preceding following n rest h hn ih =>
    conv => arg 2; rw [← List.take_append_drop (nodes.length / 2) nodes, h]
    exact ih.of_ahead hn

def Ordered (side : NodeId → Side) (nodes : List NodeId) : Prop :=
  nodes.Pairwise fun m n =>
    (side n = .before → side m = .before) ∧ (side m = .after → side n = .after)

theorem forall_before {left : List NodeId} (h : Ordered side left)
    (hlast : ∀ n ∈ left.getLast?, side n = .before) : ∀ n ∈ left, side n = .before := by
  induction left using List.reverseRecOn with
  | nil => simp
  | append_singleton left m _ =>
    have hm : side m = .before := hlast m (by simp)
    intro n hn
    rcases List.mem_append.mp hn with hn | hn
    · exact ((List.pairwise_append.mp h).2.2 n hn m (by simp)).1 hm
    · rw [List.mem_singleton.mp hn]
      exact hm

theorem forall_after {right : List NodeId} (h : Ordered side right)
    (hhead : ∀ n ∈ right.head?, side n = .after) : ∀ n ∈ right, side n = .after := by
  cases right with
  | nil => simp
  | cons m right =>
    have hm : side m = .after := hhead m (by simp)
    intro n hn
    rcases List.mem_cons.mp hn with rfl | hn
    · exact hm
    · exact ((List.pairwise_cons.mp h).1 n hn).2 hm

/-- In an ordered list a search that finds no node on the place has all nodes on its two sides,
and ends with the last one before it and the first one after it. -/
theorem search_eq_between (h : Ordered side nodes)
    (hs : search side nodes none none = .between preceding following) :
    (∀ n ∈ nodes, side n = .before ∨ side n = .after) ∧
      preceding = (nodes.filter (side · == .before)).getLast? ∧
      following = (nodes.filter (side · == .after)).head? := by
  have hfound := found_search side nodes none none
  rw [hs] at hfound
  cases hfound with
  | between left right hnodes hleft hright =>
    subst hnodes
    obtain ⟨hol, hor, -⟩ := List.pairwise_append.mp h
    have hbefore := forall_before hol hleft
    have hafter := forall_after hor hright
    refine ⟨fun n hn => ?_, ?_, ?_⟩
    · rcases List.mem_append.mp hn with hn | hn
      · exact .inl (hbefore n hn)
      · exact .inr (hafter n hn)
    · rw [List.filter_append, List.filter_eq_self.mpr (by simpa using hbefore),
        List.filter_eq_nil_iff.mpr (by simpa using fun n hn => by simp [hafter n hn])]
      simp
    · rw [List.filter_append, List.filter_eq_self (l := right) |>.mpr (by simpa using hafter),
        List.filter_eq_nil_iff.mpr (by simpa using fun n hn => by simp [hbefore n hn])]
      simp

theorem search_eq_inside (hs : search side nodes none none = .inside n) :
    n ∈ nodes ∧ side n = .inside := by
  have hfound := found_search side nodes none none
  rw [hs] at hfound
  cases hfound with
  | inside hm hside => exact ⟨hm, hside⟩

theorem search_eq_across (hs : search side nodes none none = .across n) :
    n ∈ nodes ∧ side n = .across := by
  have hfound := found_search side nodes none none
  rw [hs] at hfound
  cases hfound with
  | across hm hside => exact ⟨hm, hside⟩

end SourceLayout.CommentPolicy
