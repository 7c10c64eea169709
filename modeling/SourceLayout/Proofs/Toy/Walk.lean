import Mathlib.Data.List.Count
import SourceLayout.Proofs.Pass.Trail
import SourceLayout.Proofs.Toy.Placement

/-! # The way through a toy tree

A pass over a toy tree prints the comments in a fixed order: those of the children of a node,
those in the node itself, then those before and behind it. A node behind a marker is reproduced
instead, and the comments of the nodes below it are left out. On the whole way each comment comes
up once, or it lies in a reproduced node and never comes up.
-/

namespace SourceLayout

theorem Attachments.mem_placed {a : Attachments} (h : a.Coherent) {n : NodeId} {c : CommentId}
    {placement : Placement} :
    c ∈ a.placed n placement ↔ a.get? c = some ⟨n, placement⟩ := by
  rw [placed, List.mem_filter, h n c, Option.any_eq_true]
  constructor
  · rintro ⟨⟨_, hget⟩, _, hx, hp⟩
    obtain rfl := Option.some.inj (hget.symm.trans hx)
    rw [hget]
    exact congrArg (fun p => some (Attachment.mk n p)) (beq_iff_eq.mp hp)
  · intro hget
    exact ⟨⟨placement, hget⟩, _, hget, beq_self_eq_true _⟩

theorem Attachments.nodup_placed {a : Attachments} {n : NodeId} (h : a.InOrder n)
    (placement : Placement) : (a.placed n placement).Nodup :=
  h.nodup.filter _

namespace Toy

section Walk

variable (t : Tree) (a : Attachments)

/-- Whether a comment before a node asks to leave the node as written. -/
def isMarked (n : NodeId) : Bool :=
  (a.placed n .leading).any fun c => ignoreMarker.occursIn (t.comment c).text

def printsDangling (node : Node) : Bool :=
  node.kind == "Program" || node.kind == "List" && node.children.isEmpty

def fringe (n : NodeId) : List Step :=
  (a.placed n .leading ++ a.placed n .trailing).map .comment

def inner (n : NodeId) : List Step :=
  if printsDangling (t.node n) then (a.placed n .dangling).map .comment else []

def walk (n : NodeId) : List Step :=
  (if isMarked t a n then [.reproduced n]
  else ((t.node n).children.flatMap fun c => if _h : c < n then walk c else []) ++ inner t a n) ++
    fringe a n
termination_by n

end Walk

variable {t : Tree} {a : Attachments} {n m : NodeId} {c : CommentId}

theorem walk_eq (hw : t.WellNested) (n : NodeId) :
    walk t a n = (if isMarked t a n then [.reproduced n]
      else (t.node n).children.flatMap (walk t a) ++ inner t a n) ++ fringe a n := by
  have hchildren : ((t.node n).children.flatMap fun c => if _h : c < n then walk t a c else []) =
      (t.node n).children.flatMap (walk t a) :=
    List.flatMap_congr fun c hc => dif_pos (hw.earlier n c hc)
  rw [walk, hchildren]

theorem inner_eq_nil (hk : (t.node n).kind ∈ leafKinds ∨ (t.node n).kind = "Template") :
    inner t a n = [] := by
  apply if_neg
  rcases hk with hk | hk
  · unfold leafKinds at hk
    simp only [List.mem_cons, List.not_mem_nil, or_false] at hk
    rcases hk with hk | hk | hk <;> simp [printsDangling, hk]
  · simp [printsDangling, hk]

/-- A comment lies in a node that was reproduced on the way. -/
def Covered (t : Tree) (steps : List Step) (c : CommentId) : Prop :=
  ∃ n, Step.reproduced n ∈ steps ∧ (t.node n).span.contains (t.comment c).span = true

def Untouched (t : Tree) (steps : List Step) (c : CommentId) : Prop :=
  ¬ Covered t steps c ∧ steps.count (.comment c) = 0

/-- A comment comes up once on the way, unless it lies in a reproduced node. -/
def Once (t : Tree) (steps : List Step) (c : CommentId) : Prop :=
  Covered t steps c ∧ steps.count (.comment c) = 0 ∨
    ¬ Covered t steps c ∧ steps.count (.comment c) = 1

section Steps

variable {steps steps' : List Step}

theorem covered_append :
    Covered t (steps ++ steps') c ↔ Covered t steps c ∨ Covered t steps' c := by
  simp only [Covered, List.mem_append, or_and_right, exists_or]

theorem Untouched.append (h : Untouched t steps c) (h' : Untouched t steps' c) :
    Untouched t (steps ++ steps') c := by
  refine ⟨fun hc => (covered_append.mp hc).elim h.1 h'.1, ?_⟩
  rw [List.count_append, h.2, h'.2]

theorem Once.append (h : Once t steps c) (h' : Untouched t steps' c) :
    Once t (steps ++ steps') c := by
  unfold Once
  rw [covered_append, List.count_append, h'.2]
  exact h.imp (fun h => ⟨.inl h.1, h.2⟩) fun h => ⟨not_or.mpr ⟨h.1, h'.1⟩, h.2⟩

theorem Untouched.append_once (h : Untouched t steps c) (h' : Once t steps' c) :
    Once t (steps ++ steps') c := by
  unfold Once
  rw [covered_append, List.count_append, h.2, Nat.zero_add]
  exact h'.imp (fun h' => ⟨.inr h'.1, h'.2⟩) fun h' => ⟨not_or.mpr ⟨h.1, h'.1⟩, h'.2⟩

theorem untouched_flatMap {f : NodeId → List Step} {ns : List NodeId}
    (h : ∀ n ∈ ns, Untouched t (f n) c) : Untouched t (ns.flatMap f) c := by
  induction ns with
  | nil => exact ⟨fun ⟨_, hm, _⟩ => (nomatch hm), rfl⟩
  | cons n ns ih =>
    rw [List.forall_mem_cons] at h
    exact h.1.append (ih h.2)

/-- A comment that comes up once at one of several nodes, and not at those apart from it, comes up
once at all of them. -/
theorem once_flatMap {f : NodeId → List Step} {ns : List NodeId}
    (hn : ns.Pairwise fun n m => (t.node n).span.Apart (t.node m).span) (hm : m ∈ ns)
    (honce : Once t (f m) c)
    (hothers : ∀ n ∈ ns, (t.node n).span.Apart (t.node m).span → Untouched t (f n) c) :
    Once t (ns.flatMap f) c := by
  obtain ⟨before, after, rfl⟩ := List.append_of_mem hm
  obtain ⟨-, hafter, hbefore⟩ := List.pairwise_append.mp hn
  rw [List.flatMap_append, List.flatMap_cons]
  refine (untouched_flatMap fun n hn => ?_).append_once
    (honce.append (untouched_flatMap fun n hn => ?_))
  · exact hothers n (List.mem_append_left _ hn) (hbefore n hn m List.mem_cons_self)
  · exact hothers n (List.mem_append_right _ (List.mem_cons_of_mem _ hn))
      ((List.pairwise_cons.mp hafter).1 n hn).symm

theorem not_covered_map_comment (cs : List CommentId) : ¬ Covered t (cs.map .comment) c := by
  rintro ⟨n, hn, -⟩
  simp at hn

theorem count_map_comment (cs : List CommentId) :
    (cs.map Step.comment).count (.comment c) = cs.count c :=
  List.count_map_of_injective cs Step.comment (fun _ _ h => Step.comment.inj h) c

theorem untouched_map_comment {cs : List CommentId} (h : c ∉ cs) :
    Untouched t (cs.map .comment) c :=
  ⟨not_covered_map_comment cs, by rw [count_map_comment, List.count_eq_zero_of_not_mem h]⟩

theorem once_map_comment {cs : List CommentId} (h : c ∈ cs) (hn : cs.Nodup) :
    Once t (cs.map .comment) c :=
  .inr ⟨not_covered_map_comment cs, by rw [count_map_comment, List.count_eq_one_of_mem hn h]⟩

end Steps

theorem reaches_of_comment_mem (hw : t.WellNested) (ha : a.Coherent)
    (h : Step.comment c ∈ walk t a n) : ∃ x, a.get? c = some x ∧ t.Reaches n x.owner := by
  induction n using Nat.strongRecOn with
  | ind n ih =>
    have hplaced : ∀ placement, c ∈ a.placed n placement →
        ∃ x, a.get? c = some x ∧ t.Reaches n x.owner := fun placement hc =>
      ⟨_, (Attachments.mem_placed ha).mp hc, t.reaches_self n⟩
    rw [walk_eq hw, List.mem_append] at h
    rcases h with h | h
    · split at h
      · simp at h
      · rcases List.mem_append.mp h with h | h
        · obtain ⟨d, hd, h⟩ := List.mem_flatMap.mp h
          obtain ⟨x, hx, hr⟩ := ih d (hw.earlier n d hd) h
          exact ⟨x, hx, .inr (hr.below hd)⟩
        · unfold inner at h
          split at h
          · exact hplaced .dangling (by simpa using h)
          · cases h
    · have h : c ∈ a.placed n .leading ∨ c ∈ a.placed n .trailing := by simpa [fringe] using h
      exact h.elim (hplaced _) (hplaced _)

theorem reaches_of_reproduced_mem (hw : t.WellNested) (h : Step.reproduced m ∈ walk t a n) :
    t.Reaches n m := by
  induction n using Nat.strongRecOn with
  | ind n ih =>
    rw [walk_eq hw, List.mem_append] at h
    rcases h with h | h
    · split at h
      · obtain rfl : m = n := by simpa using h
        exact t.reaches_self m
      · rcases List.mem_append.mp h with h | h
        · obtain ⟨d, hd, h⟩ := List.mem_flatMap.mp h
          exact .inr ((ih d (hw.earlier n d hd) h).below hd)
        · unfold inner at h
          split at h
          · simp at h
          · cases h
    · simp [fringe] at h

theorem isMarked_of_reproduced_mem (hw : t.WellNested) (hmem : Step.reproduced m ∈ walk t a n) :
    isMarked t a m = true := by
  induction n using Nat.strongRecOn with
  | ind n ih =>
    rw [walk_eq hw, List.mem_append] at hmem
    rcases hmem with hmem | hmem
    · split at hmem
      · obtain rfl : m = n := by simpa using hmem
        assumption
      · rcases List.mem_append.mp hmem with hmem | hmem
        · obtain ⟨d, hd, hmem⟩ := List.mem_flatMap.mp hmem
          exact ih d (hw.earlier n d hd) hmem
        · unfold inner at hmem
          split at hmem
          · simp at hmem
          · cases hmem
    · simp [fringe] at hmem

theorem not_covered_walk (hw : t.WellNested)
    (hnot : ¬ (t.node n).span.contains (t.comment c).span = true) :
    ¬ Covered t (walk t a n) c := by
  rintro ⟨m, hm, hin⟩
  exact hnot (Span.contains_trans (hw.reaches_inside (reaches_of_reproduced_mem hw hm)) hin)

theorem untouched_walk (hw : t.WellNested) (ha : a.Coherent)
    (hout : ∀ x, a.get? c = some x → ¬ t.Reaches n x.owner)
    (hnot : ¬ (t.node n).span.contains (t.comment c).span = true) :
    Untouched t (walk t a n) c := by
  refine ⟨not_covered_walk hw hnot, List.count_eq_zero_of_not_mem fun h => ?_⟩
  obtain ⟨x, hx, hr⟩ := reaches_of_comment_mem hw ha h
  exact hout x hx hr

theorem untouched_fringe (ha : a.Coherent)
    (h : ∀ placement, a.get? c = some ⟨n, placement⟩ → placement = .dangling) :
    Untouched t (fringe a n) c := by
  apply untouched_map_comment
  intro hc
  rw [List.mem_append, Attachments.mem_placed ha, Attachments.mem_placed ha] at hc
  rcases hc with hc | hc
  · cases h _ hc
  · cases h _ hc

theorem once_fringe (ha : Tidy t a) {placement : Placement}
    (h : a.get? c = some ⟨n, placement⟩) (hp : placement ≠ .dangling) : Once t (fringe a n) c := by
  have hmem : ∀ p, c ∈ a.placed n p ↔ p = placement := by
    intro p
    rw [Attachments.mem_placed ha.coherent, h, Option.some.injEq, Attachment.mk.injEq]
    exact ⟨fun heq => heq.2.symm, fun heq => ⟨rfl, heq.symm⟩⟩
  refine once_map_comment ?_ ?_
  · rw [List.mem_append, hmem, hmem]
    cases placement with
    | leading => exact .inl rfl
    | trailing => exact .inr rfl
    | dangling => exact absurd rfl hp
  · refine List.nodup_append.mpr ⟨Attachments.nodup_placed (ha.inOrder n) _,
      Attachments.nodup_placed (ha.inOrder n) _, fun b hb b' hb' heq => ?_⟩
    subst heq
    rw [Attachments.mem_placed ha.coherent] at hb hb'
    rw [hb] at hb'
    cases hb'

theorem untouched_inner (ha : a.Coherent) (h : a.get? c ≠ some ⟨n, .dangling⟩) :
    Untouched t (inner t a n) c := by
  unfold inner
  split
  · refine untouched_map_comment fun hc => h ?_
    exact (Attachments.mem_placed ha).mp hc
  · have hnil : c ∉ ([] : List CommentId) := List.not_mem_nil
    exact untouched_map_comment hnil

namespace Tidy

variable (ha : Tidy t a) {placement : Placement}
include ha

theorem mem_commentIds (hc : c ∈ a.placed n placement) : c ∈ t.commentIds := by
  apply ha.known
  rw [(Attachments.mem_placed ha.coherent).mp hc]
  exact Option.some_ne_none _

theorem placed_eq_nil (hkind : (t.node n).kind ∉ itemKinds) (hp : placement ≠ .dangling) :
    a.placed n placement = [] := by
  rw [List.eq_nil_iff_forall_not_mem]
  intro c hc
  obtain ⟨scope, -, hh⟩ := ha.housed c (ha.mem_commentIds hc)
  exact hkind (hh.of_beside ((Attachments.mem_placed ha.coherent).mp hc) hp).2

theorem placed_dangling_eq_nil (hchildren : (t.node n).children ≠ []) :
    a.placed n .dangling = [] := by
  rw [List.eq_nil_iff_forall_not_mem]
  intro c hc
  obtain ⟨scope, -, hh⟩ := ha.housed c (ha.mem_commentIds hc)
  exact hchildren (hh.of_dangling ((Attachments.mem_placed ha.coherent).mp hc)).2

end Tidy

theorem isMarked_eq_false (ha : Tidy t a) (hkind : (t.node n).kind ∉ itemKinds) :
    isMarked t a n = false := by
  rw [isMarked, ha.placed_eq_nil hkind (by decide)]
  rfl

theorem walk_quasi (h : Parsed t) (ha : Tidy t a) (hn : n < t.nodes.size)
    (hk : (t.node n).kind = "Quasi") : walk t a n = [] := by
  have hleaf : (t.node n).kind ∈ leafKinds := hk ▸ by decide
  have hkind : (t.node n).kind ∉ itemKinds := hk ▸ by decide
  rw [walk_eq h.wellNested, (h.shaped n hn).children_eq_nil hleaf, inner_eq_nil (.inl hleaf), fringe,
    isMarked_eq_false ha hkind, ha.placed_eq_nil hkind (by decide), ha.placed_eq_nil hkind (by decide)]
  rfl

theorem isMarked_root (h : Parsed t) (ha : Tidy t a) : isMarked t a t.root = false :=
  isMarked_eq_false ha (by rw [h.kind_root]; decide)

section Comment

variable {scope : NodeId} (h : Parsed t) (ha : Tidy t a) (hc : c ∈ t.commentIds)
include h ha hc

theorem once_walk_owner {owner : NodeId} {placement : Placement}
    (get : a.get? c = some ⟨owner, placement⟩) (ne : placement ≠ .dangling)
    (apart : (t.node owner).span.Apart (t.comment c).span) : Once t (walk t a owner) c := by
  have hw := h.wellNested
  have hnot : ¬ (t.node owner).span.contains (t.comment c).span = true := by
    have hlt := h.nonempty c hc
    rw [Span.contains_iff]
    unfold Span.Apart at apart
    omega
  rw [walk_eq hw]
  refine Untouched.append_once ?_ (once_fringe ha get ne)
  split
  · refine ⟨?_, by simp⟩
    rintro ⟨m, hm, hin⟩
    obtain rfl : m = owner := by simpa using hm
    exact hnot hin
  · refine (untouched_flatMap fun d hd => ?_).append (untouched_inner ha.coherent ?_)
    · refine untouched_walk hw ha.coherent (fun x hx hr => ?_) fun hin => ?_
      · obtain rfl := Option.some.inj (get.symm.trans hx)
        exact Nat.not_lt_of_le (hw.reaches_le hr) (hw.earlier _ _ hd)
      · exact hnot (Span.contains_trans (hw.inside _ _ hd) hin)
    · rw [get]
      intro heq
      obtain ⟨-, hp⟩ := Attachment.mk.inj (Option.some.inj heq)
      exact ne hp

variable (hin : CommentPolicy.Innermost policy t (t.comment c).span t.root scope)
include hin

omit ha in
theorem not_contains_child {d : NodeId} (hd : d ∈ (t.node scope).children) :
    ¬ (t.node d).span.contains (t.comment c).span = true := by
  intro hcontains
  have hw := h.wellNested
  have hscope : t.Reaches t.root scope := hin.reaches
  have hb : t.Below t.root d := hscope.below_child hd
  rcases (h.shaped scope (scope_lt_size h hin)).kind_of_child hd with hk | hk
  · have hhold : policy.canHold (t.node d) = true := by
      apply bne_iff_ne.mpr
      intro hq
      rw [hq] at hk
      exact absurd hk (by decide)
    rcases hin.innermost d hb hhold hcontains with rfl | hback
    · exact Nat.lt_irrefl _ (hw.earlier _ _ hd)
    · exact hw.not_below_self (hback.trans (Tree.below_of_child hd))
  · rcases h.clear d (h.below_lt_size hb) c hc with hapart | ⟨-, hopen⟩
    · have hlt := h.nonempty c hc
      rw [Span.contains_iff] at hcontains
      unfold Span.Apart at hapart
      omega
    · unfold Open at hopen
      rw [hk] at hopen
      simp at hopen

theorem once_children (hh : Housed t a c scope) :
    Once t ((t.node scope).children.flatMap (walk t a) ++ inner t a scope) c := by
  have hw := h.wellNested
  cases hh with
  | @beside owner placement get ne child item apart =>
    have hsize : owner < t.nodes.size :=
      Nat.lt_trans (hw.earlier _ _ child) (scope_lt_size h hin)
    have hitem := (h.shaped owner hsize).start_lt_stop item
    refine Once.append (once_flatMap (hw.apart scope) child
      (once_walk_owner h ha hc get ne apart) fun d hd hapart => ?_) (untouched_inner ha.coherent ?_)
    · refine untouched_walk hw ha.coherent (fun x hx hr => ?_) (not_contains_child h hc hin hd)
      obtain rfl := Option.some.inj (get.symm.trans hx)
      exact Span.not_apart_of_contains (hw.reaches_inside hr)
        (hw.reaches_inside (t.reaches_self owner)) hitem hapart
    · rw [get]
      intro heq
      exact ne (Attachment.mk.inj (Option.some.inj heq)).2
  | inside get children kind =>
    have hprints : printsDangling (t.node scope) = true := by
      rcases List.mem_cons.mp kind with hk | hk
      · simp [printsDangling, hk]
      · simp [printsDangling, List.mem_singleton.mp hk, children]
    rw [children, List.flatMap_nil, List.nil_append, inner, if_pos hprints]
    exact once_map_comment ((Attachments.mem_placed ha.coherent).mpr get)
      (Attachments.nodup_placed (ha.inOrder scope) _)

theorem untouched_sibling (hh : Housed t a c scope) (hne : scope ≠ t.root) {d e : NodeId}
    (hd : t.Reaches d scope) (hapart : (t.node e).span.Apart (t.node d).span) :
    Untouched t (walk t a e) c := by
  have hw := h.wellNested
  have hscope := (hin.around.resolve_left hne).2.2
  have hnot : ¬ (t.node e).span.contains (t.comment c).span = true := fun hcontains =>
    Span.not_apart_of_contains hcontains (Span.contains_trans (hw.reaches_inside hd) hscope)
      (h.nonempty c hc) hapart
  refine untouched_walk hw ha.coherent (fun x hx hr => ?_) hnot
  cases hh with
  | @beside owner placement get ne child item apart =>
    obtain rfl := Option.some.inj (get.symm.trans hx)
    have hsize : owner < t.nodes.size :=
      Nat.lt_trans (hw.earlier _ _ child) (scope_lt_size h hin)
    have howner : t.Reaches d owner := .inr (hd.below_child child)
    exact Span.not_apart_of_contains (hw.reaches_inside hr) (hw.reaches_inside howner)
      ((h.shaped owner hsize).start_lt_stop item) hapart
  | inside get children kind =>
    obtain rfl := Option.some.inj (get.symm.trans hx)
    exact hnot (Span.contains_trans (hw.reaches_inside hr) hscope)

/-- On the way through a node around it a comment comes up once, unless it is reproduced. -/
theorem once_walk (hh : Housed t a c scope) (hr : t.Reaches t.root n) (hn : t.Reaches n scope) :
    Once t (walk t a n) c := by
  have hw := h.wellNested
  induction n using Nat.strongRecOn with
  | ind n ih =>
    have hroot : n ≠ t.root → scope ≠ t.root := by
      rintro hne rfl
      exact hne (Nat.le_antisymm (hw.reaches_le hr) (hw.reaches_le hn))
    rw [walk_eq hw]
    refine Once.append ?_ (untouched_fringe ha.coherent fun placement hget => ?_)
    · split
      · rename_i hmarked
        have hne : n ≠ t.root := by
          rintro rfl
          rw [isMarked_root h ha] at hmarked
          cases hmarked
        have hscope := (hin.around.resolve_left (hroot hne)).2.2
        exact .inl ⟨⟨n, List.mem_singleton_self _,
          Span.contains_trans (hw.reaches_inside hn) hscope⟩, by simp⟩
      · rcases hn with rfl | hn
        · exact once_children h ha hc hin hh
        · obtain ⟨d, hd, hdscope⟩ := hn.exists_child
          have hne : scope ≠ t.root := by
            rintro rfl
            exact Nat.not_lt_of_le (hw.reaches_le hr) (hw.below_lt hn)
          refine Once.append (once_flatMap (hw.apart n) hd (ih d (hw.earlier n d hd)
            (.inr (hr.below_child hd)) hdscope) fun e _ hapart => ?_)
            (untouched_inner ha.coherent fun hget => ?_)
          · exact untouched_sibling h ha hc hin hh hne hdscope hapart
          · exact Nat.ne_of_gt (hw.below_lt hn) (hh.of_dangling hget).1
    · by_contra hp
      exact Nat.not_lt_of_le (hw.reaches_le hn) (hw.earlier _ _ (hh.of_beside hget hp).1)

end Comment

end Toy

end SourceLayout
