import SourceLayout.Comment.Attachments
import SourceLayout.Proofs.Syntax.Sorting
import Std.Data.TreeMap.Lemmas

/-! # The two views of attachments

Attachments are looked up by comment and by node. The views agree as long as comments are only
added and lists only reordered, and adding comments in the order of the source keeps every list in
that order. Where comments come late, reordering their node restores it.
-/

namespace SourceLayout.Attachments

variable {a : Attachments} {b c : CommentId} {m n owner : NodeId} {placement : Placement}

@[simp] theorem get?_empty : ({} : Attachments).get? c = none := by simp [get?]

@[simp] theorem commentsOf_empty : ({} : Attachments).commentsOf n = [] := by simp [commentsOf]

theorem commentsOf_release (a : Attachments) (c : CommentId) (m n : NodeId) :
    (a.release c m).commentsOf n =
      if n = m then (a.commentsOf n).filter (· != c) else a.commentsOf n := by
  by_cases h : n = m
  · subst h; simp [commentsOf, release]
  · simp [commentsOf, release, Std.TreeMap.getElem?_insert, h, Ne.symm h]

theorem get?_add (a : Attachments) (b c : CommentId) (owner : NodeId) (placement : Placement) :
    (a.add c owner placement).get? b = if b = c then some ⟨owner, placement⟩ else a.get? b := by
  have hr : ∀ n, (a.release c n).byComment = a.byComment := fun _ => rfl
  simp only [get?, add]
  split <;> simp only [hr, Std.TreeMap.getElem?_insert, Std.LawfulEqCmp.compare_eq_iff_eq,
    eq_comm (a := b)]

@[simp] theorem get?_add_self : (a.add c owner placement).get? c = some ⟨owner, placement⟩ := by
  rw [get?_add, if_pos rfl]

theorem get?_add_of_ne (h : b ≠ c) : (a.add c owner placement).get? b = a.get? b := by
  rw [get?_add, if_neg h]

@[simp] theorem get?_reorder : (a.reorder n).get? c = a.get? c := rfl

theorem commentsOf_reorder (a : Attachments) (m n : NodeId) :
    (a.reorder m).commentsOf n =
      if n = m then (a.commentsOf n).insertionSort (· ≤ ·) else a.commentsOf n := by
  by_cases h : n = m
  · subst h
    rw [if_pos rfl, ← stableSort_eq_insertionSort (fun _ _ => decide_eq_true_iff)]
    simp [commentsOf, reorder]
  · simp [commentsOf, reorder, Std.TreeMap.getElem?_insert, h, Ne.symm h]

@[simp] theorem mem_commentsOf_reorder : c ∈ (a.reorder m).commentsOf n ↔ c ∈ a.commentsOf n := by
  rw [commentsOf_reorder]
  split <;> simp

/-- The comments of a node are those whose attachment names it as their owner. -/
def Coherent (a : Attachments) : Prop :=
  ∀ n c, c ∈ a.commentsOf n ↔ ∃ placement, a.get? c = some ⟨n, placement⟩

theorem coherent_empty : Coherent {} := by
  intro n c
  simp

theorem Coherent.commentsOf_add (h : a.Coherent) (c : CommentId) (owner : NodeId)
    (placement : Placement) (n : NodeId) :
    (a.add c owner placement).commentsOf n =
      (a.commentsOf n).filter (· != c) ++ if n = owner then [c] else [] := by
  have hfree : ∀ {m}, (∀ placement, a.get? c ≠ some ⟨m, placement⟩) →
      (a.commentsOf m).filter (· != c) = a.commentsOf m := by
    intro m hm
    rw [List.filter_eq_self]
    rintro d hd
    have hdc : d ≠ c := by
      rintro rfl
      obtain ⟨placement, hp⟩ := (h m d).mp hd
      exact hm placement hp
    simpa using hdc
  have hinsert : ∀ r : Attachments,
      (Attachments.mk (r.byComment.insert c ⟨owner, placement⟩)
        (r.byNode.insert owner (r.commentsOf owner ++ [c]))).commentsOf n =
      r.commentsOf n ++ if n = owner then [c] else [] := by
    intro r
    by_cases ho : n = owner
    · subst ho; simp [commentsOf]
    · simp [commentsOf, Std.TreeMap.getElem?_insert, ho, Ne.symm ho]
  rw [add, hinsert]
  congr 1
  split
  · rename_i previous hp
    rw [commentsOf_release]
    split
    · rfl
    · rename_i hn
      refine (hfree fun placement hpl => hn ?_).symm
      rw [hp] at hpl
      exact (congrArg Attachment.owner (Option.some.inj hpl)).symm
  · rename_i hp
    exact (hfree fun placement hpl => by simp [hp] at hpl).symm

theorem Coherent.add (h : a.Coherent) (c : CommentId) (owner : NodeId) (placement : Placement) :
    (a.add c owner placement).Coherent := by
  intro n d
  rw [h.commentsOf_add, get?_add, List.mem_append, List.mem_filter, h n d]
  by_cases hd : d = c
  · subst hd
    by_cases hn : n = owner
    · subst hn; simp
    · simp [hn, Ne.symm hn]
  · have hnew : d ∉ if n = owner then [c] else [] := by split <;> simp [hd]
    simp [hd, hnew]

theorem Coherent.reorder (h : a.Coherent) (m : NodeId) : (a.reorder m).Coherent := by
  intro n c
  rw [mem_commentsOf_reorder, get?_reorder]
  exact h n c

/-- The comments of a node are in the order of the source, none of them twice. -/
def InOrder (a : Attachments) (n : NodeId) : Prop := (a.commentsOf n).Pairwise (· < ·)

theorem inOrder_empty : InOrder {} n := by simp [InOrder]

theorem InOrder.nodup (h : a.InOrder n) : (a.commentsOf n).Nodup :=
  h.imp fun hlt => Nat.ne_of_lt hlt

theorem Coherent.nodup_add (h : a.Coherent) (hn : (a.commentsOf n).Nodup) :
    ((a.add c owner placement).commentsOf n).Nodup := by
  rw [h.commentsOf_add]
  split
  · refine List.nodup_append.mpr ⟨hn.filter _, List.nodup_singleton c, ?_⟩
    simp
  · rw [List.append_nil]
    exact hn.filter _

/-- A comment that comes after all those of its new owner keeps every list in order. -/
theorem Coherent.inOrder_add (h : a.Coherent) (hn : a.InOrder n)
    (hle : ∀ d ∈ a.commentsOf n, d ≤ c) : (a.add c owner placement).InOrder n := by
  rw [InOrder, h.commentsOf_add, List.pairwise_append]
  refine ⟨hn.filter _, ?_, ?_⟩
  · split <;> simp
  · intro d hd e he
    rw [List.mem_filter] at hd
    have hec : e = c := by
      split at he
      · simpa using he
      · simp at he
    have hdc : d ≠ c := by simpa using hd.2
    exact hec ▸ Nat.lt_of_le_of_ne (hle d hd.1) hdc

theorem Coherent.inOrder_add_of_ne (h : a.Coherent) (hn : a.InOrder n) (hne : n ≠ owner) :
    (a.add c owner placement).InOrder n := by
  rw [InOrder, h.commentsOf_add, if_neg hne, List.append_nil]
  exact hn.filter _

theorem inOrder_reorder_self (hn : (a.commentsOf n).Nodup) : (a.reorder n).InOrder n := by
  rw [InOrder, commentsOf_reorder, if_pos rfl]
  have hnodup := (List.perm_insertionSort (· ≤ ·) (a.commentsOf n)).nodup_iff.mpr hn
  exact (List.pairwise_insertionSort (· ≤ ·) (a.commentsOf n)).imp₂
    (fun c d hle hne => Nat.lt_of_le_of_ne hle hne) hnodup

theorem InOrder.reorder (hn : a.InOrder n) (m : NodeId) : (a.reorder m).InOrder n := by
  by_cases h : n = m
  · subst h; exact inOrder_reorder_self hn.nodup
  · rwa [InOrder, commentsOf_reorder, if_neg h]

def addAll (a : Attachments) (cs : List CommentId) (owner : NodeId) (placement : Placement) :
    Attachments :=
  cs.foldl (fun a c => a.add c owner placement) a

theorem get?_addAll (a : Attachments) (cs : List CommentId) (owner : NodeId)
    (placement : Placement) (c : CommentId) :
    (a.addAll cs owner placement).get? c =
      if c ∈ cs then some ⟨owner, placement⟩ else a.get? c := by
  induction cs generalizing a with
  | nil => simp [addAll]
  | cons d cs ih =>
    change ((a.add d owner placement).addAll cs owner placement).get? c = _
    rw [ih, get?_add]
    by_cases hd : c = d <;> by_cases hc : c ∈ cs <;> simp [hd, hc]

theorem Coherent.addAll (h : a.Coherent) (cs : List CommentId) (owner : NodeId)
    (placement : Placement) : (a.addAll cs owner placement).Coherent := by
  induction cs generalizing a with
  | nil => exact h
  | cons c cs ih => exact ih (h.add c owner placement)

theorem Coherent.nodup_addAll (h : a.Coherent) (cs : List CommentId)
    (hn : (a.commentsOf n).Nodup) : ((a.addAll cs owner placement).commentsOf n).Nodup := by
  induction cs generalizing a with
  | nil => exact hn
  | cons c cs ih => exact ih (h.add c owner placement) (h.nodup_add hn)

theorem Coherent.inOrder_addAll_of_ne (h : a.Coherent) (cs : List CommentId) (hn : a.InOrder n)
    (hne : n ≠ owner) : (a.addAll cs owner placement).InOrder n := by
  induction cs generalizing a with
  | nil => exact hn
  | cons c cs ih => exact ih (h.add c owner placement) (h.inOrder_add_of_ne hn hne)

end SourceLayout.Attachments
