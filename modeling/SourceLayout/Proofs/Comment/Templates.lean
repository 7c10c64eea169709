import SourceLayout.Proofs.Comment.Neighbours

/-! # Interpolations of a template

An interpolation of a template lies behind the end of one literal part and reaches to the start of
the next one. The number by which nodes are kept apart is that of the interpolation, however many
of the literal parts are empty. So inside a template a comment keeps the neighbours of its own
interpolation and loses those of the others.
-/

namespace SourceLayout.CommentPolicy

variable {p : CommentPolicy} {t : Tree} {c : CommentId} {m n : NodeId}
  {literals : List Span} {qs : List NodeId} {start offset i j k : Nat}

structure Parted (literals : List Span) : Prop where
  forward : ∀ s ∈ literals, s.start ≤ s.stop
  inOrder : literals.IsChain fun s u => s.stop ≤ u.start

/-- An offset lies in the interpolation behind the literal part with number `k`. -/
def InInterpolation (literals : List Span) (k offset : Nat) : Prop :=
  ∃ s u, literals[k]? = some s ∧ literals[k + 1]? = some u ∧ s.stop < offset ∧ offset ≤ u.start

theorem Parted.start_le_start (h : Parted literals) {s u : Span} (hij : i ≤ j)
    (hs : literals[i]? = some s) (hu : literals[j]? = some u) : s.start ≤ u.start := by
  induction j, hij using Nat.le_induction generalizing u with
  | base =>
    obtain rfl := Option.some.inj (hs.symm.trans hu)
    exact Nat.le_refl _
  | succ j _ ih =>
    obtain ⟨hj, rfl⟩ := List.getElem?_eq_some_iff.mp hu
    have hprevious : literals[j]? = some literals[j] :=
      List.getElem?_eq_getElem (Nat.lt_of_succ_lt hj)
    have hforward := h.forward literals[j] (List.getElem_mem _)
    have hnext := List.isChain_iff_getElem.mp h.inOrder j hj
    have hle := ih hprevious
    omega

theorem InInterpolation.interpolation_eq (h : InInterpolation literals k offset)
    (hparted : Parted literals) : interpolation literals offset = k := by
  obtain ⟨s, u, hs, hu, hlo, hhi⟩ := h
  obtain ⟨first, rest, rfl⟩ :=
    List.exists_cons_of_ne_nil (List.ne_nil_of_mem (List.mem_of_getElem? hs))
  have hfind : rest.findIdx? (fun s => offset - 1 < s.start) = some k := by
    obtain ⟨hk, rfl⟩ := List.getElem?_eq_some_iff.mp (show rest[k]? = some u from hu)
    rw [List.findIdx?_eq_some_iff_getElem]
    refine ⟨hk, ?_, fun j hj => ?_⟩
    · rw [decide_eq_true_iff]
      omega
    · have hnext : (first :: rest)[j + 1]? = some rest[j] :=
        List.getElem?_eq_getElem (Nat.lt_trans hj hk)
      have hle := hparted.start_le_start hj hnext hs
      have hforward := hparted.forward s (List.mem_of_getElem? hs)
      rw [decide_eq_true_iff]
      omega
  rw [interpolation, List.drop_one, List.tail_cons, hfind, Option.getD_some]

theorem InInterpolation.unique (h : InInterpolation literals i offset)
    (h' : InInterpolation literals j offset) (hparted : Parted literals) : i = j :=
  (h.interpolation_eq hparted).symm.trans (h'.interpolation_eq hparted)

theorem withinTemplate_eq_some_iff (hqs : p.quasis (t.node n) = some qs) :
    p.withinTemplate t (some n) start (some m) = some m ↔
      interpolation (qs.map fun q => (t.node q).span) (t.node m).span.start =
        interpolation (qs.map fun q => (t.node q).span) start := by
  rw [withinTemplate, Option.bind_some, hqs]
  simp [Option.filter_eq_some_iff, sameInterpolation]

theorem withinTemplate_eq_some {enclosing neighbour : Option NodeId}
    (h : p.withinTemplate t enclosing start neighbour = some n) : neighbour = some n := by
  unfold withinTemplate at h
  split at h
  · exact (Option.filter_eq_some_iff.mp h).1
  · exact h

/-- A node in an interpolation of the enclosing template is kept if a comment that starts in an
interpolation is in the same one. -/
theorem withinTemplate_eq_some_iff_of_inInterpolation {neighbour : Option NodeId}
    (hqs : p.quasis (t.node n) = some qs) (hparted : Parted (qs.map fun q => (t.node q).span))
    (hk : InInterpolation (qs.map fun q => (t.node q).span) k start)
    (hj : InInterpolation (qs.map fun q => (t.node q).span) j (t.node m).span.start) :
    p.withinTemplate t (some n) start neighbour = some m ↔ neighbour = some m ∧ j = k := by
  constructor
  · intro hkept
    obtain rfl := withinTemplate_eq_some hkept
    rw [withinTemplate_eq_some_iff hqs, hj.interpolation_eq hparted,
      hk.interpolation_eq hparted] at hkept
    exact ⟨rfl, hkept⟩
  · rintro ⟨rfl, rfl⟩
    rw [withinTemplate_eq_some_iff hqs, hj.interpolation_eq hparted, hk.interpolation_eq hparted]

variable (p t) in
/-- Looking for the neighbours of a comment ends in a template below the root, with these nodes on
either side of the comment. -/
structure EndsInTemplate (c : CommentId) (n : NodeId) (qs : List NodeId)
    (before after : Option NodeId) : Prop where
  ends : (p.frontiers t).descend (fun n => sideOfSpan (t.comment c).span (t.node n).span) t.root =
    (n, .between before after)
  ne_root : n ≠ t.root
  quasis : p.quasis (t.node n) = some qs
  parted : Parted (qs.map fun q => (t.node q).span)

variable (t) in
/-- The comment has the template around it, and of the nodes on either side those that start in an
interpolation are its neighbours just if it starts in the same one. -/
structure KeepsOwn (n : NodeId) (qs : List NodeId) (before after : Option NodeId) (k : Nat)
    (d : Neighbours) : Prop where
  enclosing : d.enclosing = some n
  preceding : ∀ m j, InInterpolation (qs.map fun q => (t.node q).span) j (t.node m).span.start →
    (d.preceding = some m ↔ before = some m ∧ j = k)
  following : ∀ m j, InInterpolation (qs.map fun q => (t.node q).span) j (t.node m).span.start →
    (d.following = some m ↔ after = some m ∧ j = k)

theorem EndsInTemplate.exists_neighbours {before after : Option NodeId}
    (h : EndsInTemplate p t c n qs before after)
    (hk : InInterpolation (qs.map fun q => (t.node q).span) k (t.comment c).span.start) :
    ∃ d, (p.frontiers t).neighbours c = .ok d ∧ d.comment = c ∧
      KeepsOwn t n qs before after k d := by
  have hscope : (if n == t.root then none else some n) = some n := by simp [h.ne_root]
  refine ⟨neighboursIn p t c n before after, ?_, rfl, ?_⟩
  · unfold Frontiers.neighbours
    dsimp only
    rw [h.ends]
    rfl
  · rw [neighboursIn, hscope]
    constructor
    · rfl
    · exact fun m j hj => withinTemplate_eq_some_iff_of_inInterpolation h.quasis h.parted hk hj
    · exact fun m j hj => withinTemplate_eq_some_iff_of_inInterpolation h.quasis h.parted hk hj

end SourceLayout.CommentPolicy
