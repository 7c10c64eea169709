import SourceLayout.Proofs.Comment.Ties

/-! # Whom comments may belong to

A policy that leaves all comments to the general rules may still ask for those outside the root to
be attached to the root. Such a comment belongs to the root; any other one leads or trails one of
its neighbours, or dangles in the node around it.
-/

namespace SourceLayout.Assignment

variable {p : CommentPolicy} {t : Tree} {all : List Neighbours} {s : Assignment} {d : Neighbours}
  {tie : Tie} {x : Attachment} {c : CommentId}

variable (p t) in
/-- The comment is to lead the root, since it does not start behind the start of the root. -/
def IsAhead (d : Neighbours) : Prop :=
  p.outerToRoot = true ∧ (t.comment d.comment).span.start ≤ (t.node t.root).span.start

variable (p t) in
/-- The comment is to trail the root, since it does not end before the end of the root. -/
def IsBehind (d : Neighbours) : Prop :=
  p.outerToRoot = true ∧ (t.node t.root).span.stop ≤ (t.comment d.comment).span.stop

variable (p t) in
inductive Owned (d : Neighbours) : Attachment → Prop where
  | ahead (h : IsAhead p t d) : Owned d ⟨t.root, .leading⟩
  | behind (hahead : ¬ IsAhead p t d) (h : IsBehind p t d) : Owned d ⟨t.root, .trailing⟩
  | beside {x : Attachment} (hahead : ¬ IsAhead p t d) (hbehind : ¬ IsBehind p t d)
    (h : Beside t d x) : Owned d x

variable (p t) in
/-- All comments are attached where they may be, and those that wait in a tie may go to both of its
nodes. -/
structure Proper (all : List Neighbours) (s : Assignment) : Prop where
  attached : ∀ c x, s.attachments.get? c = some x → ∃ d ∈ all, d.comment = c ∧ Owned p t d x
  waiting : ∀ tie, s.tie = some tie → ∀ c ∈ tie.members, ∃ d ∈ all, d.comment = c ∧
    Owned p t d ⟨tie.following, .leading⟩ ∧ Owned p t d ⟨tie.preceding, .trailing⟩

namespace Proper

theorem init : Proper p t all {} where
  attached c x h := by simp at h
  waiting tie h := by cases h

theorem attach (h : Proper p t all s) (hd : d ∈ all) (hx : Owned p t d x) :
    Proper p t all (s.attach d.comment x.owner x.placement) where
  attached c y hy := by
    rw [attachments_attach, Attachments.get?_add] at hy
    split at hy
    · obtain rfl := Option.some.inj hy
      exact ⟨d, hd, Eq.symm ‹_›, hx⟩
    · exact h.attached c y hy
  waiting := h.waiting

theorem resolve (h : Proper p t all s) (hw : ∀ c ∈ tie.members, ∃ d ∈ all, d.comment = c ∧
      Owned p t d ⟨tie.following, .leading⟩ ∧ Owned p t d ⟨tie.preceding, .trailing⟩) :
    Proper p t all (resolve p t tie s) where
  attached c y hy := by
    have hmem : c ∈ leaders p t tie ∨ c ∈ trailers p t tie → c ∈ tie.members := by
      rw [← List.mem_append, leaders_append_trailers]
      exact id
    rw [get?_resolve] at hy
    split at hy
    · rename_i hc
      obtain ⟨d, hd, hc, hlead, -⟩ := hw c (hmem (.inl hc))
      obtain rfl := Option.some.inj hy
      exact ⟨d, hd, hc, hlead⟩
    · split at hy
      · rename_i hc
        obtain ⟨d, hd, hc, -, htrail⟩ := hw c (hmem (.inr hc))
        obtain rfl := Option.some.inj hy
        exact ⟨d, hd, hc, htrail⟩
      · exact h.attached c y hy
  waiting tie' h' := h.waiting tie' (tie_resolve ▸ h')

theorem withTie (h : Proper p t all s) {tie' : Option Tie}
    (hw : ∀ tie, tie' = some tie → ∀ c ∈ tie.members, ∃ d ∈ all, d.comment = c ∧
      Owned p t d ⟨tie.following, .leading⟩ ∧ Owned p t d ⟨tie.preceding, .trailing⟩) :
    Proper p t all { s with tie := tie' } where
  attached := h.attached
  waiting := hw

theorem defer (h : Proper p t all s) (hd : d ∈ all) {preceding following : NodeId}
    (hlead : Owned p t d ⟨following, .leading⟩) (htrail : Owned p t d ⟨preceding, .trailing⟩) :
    Proper p t all (s.defer p t d preceding following) := by
  rw [Assignment.defer]
  split
  · apply h.withTie
    rintro _ ⟨⟩ c hc
    obtain rfl := List.mem_singleton.mp hc
    exact ⟨d, hd, rfl, hlead, htrail⟩
  · rename_i tie htie
    split
    · rename_i hsame
      rw [Bool.and_eq_true, beq_iff_eq, beq_iff_eq] at hsame
      apply h.withTie
      rintro _ ⟨⟩ c hc
      rcases List.mem_cons.mp hc with rfl | hc
      · exact ⟨d, hd, rfl, hsame.2 ▸ hlead, hsame.1 ▸ htrail⟩
      · exact h.waiting tie htie c hc
    · refine Proper.resolve (h.withTie ?_) (h.waiting tie htie)
      rintro _ ⟨⟩ c hc
      obtain rfl := List.mem_singleton.mp hc
      exact ⟨d, hd, rfl, hlead, htrail⟩

theorem placeByRule (h : Proper p t all s) (hd : d ∈ all)
    (hbeside : ∀ x, Beside t d x → Owned p t d x) (position : LinePosition) :
    Proper p t all (s.placeByRule p t position d) := by
  unfold Assignment.placeByRule
  split
  · exact h.attach hd (hbeside _ (.leads ‹_›))
  · exact h.attach hd (hbeside _ (.trails ‹_›))
  · exact h.attach hd (hbeside _ (.trails ‹_›))
  · exact h.attach hd (hbeside _ (.leads ‹_›))
  · exact h.defer hd (hbeside _ (.leads ‹_›)) (hbeside _ (.trails ‹_›))
  · exact h.attach hd (hbeside _ (.trails ‹_›))
  · exact h.attach hd (hbeside _ (.leads ‹_›))
  · exact h.attach hd (hbeside _ (.dangles ‹_› ‹_›))

variable (hplaces : ∀ situation, (p.place situation).places = [])
  (hsettled : ∀ situation, (p.place situation).settled = false)
include hplaces hsettled

theorem place (h : Proper p t all s) (hd : d ∈ all) (position : LinePosition) (isLast : Bool) :
    Proper p t all (s.place p t position d isLast) := by
  have hnoted : Proper p t all (s.note (.placing position d isLast)) := ⟨h.attached, h.waiting⟩
  simp only [Assignment.place, placeByPolicy, hplaces, hsettled, List.foldl_nil, Bool.and_eq_true,
    decide_eq_true_iff]
  split
  · exact h.attach hd (.ahead ‹_›)
  split
  · exact h.attach hd (.behind ‹_› ‹_›)
  · exact hnoted.placeByRule hd (fun x hx => .beside ‹_› ‹_› hx) position

theorem placeAll (h : Proper p t all s) {placed : List (Neighbours × LinePosition)}
    (hplaced : ∀ x ∈ placed, x.1 ∈ all) : Proper p t all (placeAll p t s placed) := by
  induction placed generalizing s with
  | nil => exact h
  | cons x later ih =>
    rw [List.forall_mem_cons] at hplaced
    exact ih (h.place hplaces hsettled hplaced.1 _ _) hplaced.2

omit hplaces hsettled in
theorem finish (h : Proper p t all s) : Proper p t all (s.finish p t) := by
  rw [Assignment.finish]
  split
  · rename_i tie htie
    have hdone : Proper p t all { s with tie := none } := h.withTie (by simp)
    exact hdone.resolve (h.waiting tie htie)
  · exact h

theorem outcome : Proper p t all (outcome p t all) := by
  refine (init.placeAll hplaces hsettled fun x hx => ?_).finish
  rw [← map_fst_zip_linePositions (t := t) all]
  exact List.mem_map_of_mem hx

end Proper

/-- Every comment is attached in the end, and where it may be. -/
theorem exists_owned_outcome (hplaces : ∀ situation, (p.place situation).places = [])
    (hsettled : ∀ situation, (p.place situation).settled = false)
    (hall : p.allNeighbours t = .ok all) (hd : d ∈ all) :
    ∃ x, (outcome p t all).attachments.get? d.comment = some x ∧ Owned p t d x := by
  obtain ⟨hc, hneighbours⟩ := CommentPolicy.neighbours_of_mem hall hd
  rcases (sound_outcome hall).2 d.comment hc with hget | ⟨_, _, _, -, -, hdismissed, -⟩
  · obtain ⟨x, hx⟩ := Option.ne_none_iff_exists'.mp hget
    obtain ⟨d', hd', heq, hown⟩ := (Proper.outcome hplaces hsettled).attached _ _ hx
    have hneighbours' := (CommentPolicy.neighbours_of_mem hall hd').2
    rw [heq, hneighbours] at hneighbours'
    obtain rfl := Except.ok.inj hneighbours'
    exact ⟨x, hx, hown⟩
  · rw [hsettled] at hdismissed
    cases hdismissed

end SourceLayout.Assignment
