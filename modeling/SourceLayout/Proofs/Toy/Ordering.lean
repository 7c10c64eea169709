import SourceLayout.Proofs.Comment.Lines
import SourceLayout.Proofs.Toy.Offsets
import SourceLayout.Proofs.Toy.Parents
import SourceLayout.Proofs.Toy.Placement

/-! # The order of comments between two nodes

Comments between the same two nodes may go to either of them. One that leads the second node is
not followed by one that trails the first, which would change their order, unless it stands on its
own line and the other one in a run of comments that begins behind it in the middle of a line.
-/

namespace SourceLayout

namespace Assignment

variable {t : Tree} {all : List Neighbours} {d e : Neighbours} {i : Nat}

theorem getElem?_linePositions (hd : all[i]? = some d) : ∃ start stop,
    (runStarts t none all)[i]? = some start ∧
      (linePositions t all)[i]? = some (linePosition t d start stop) := by
  obtain ⟨start, stop, hstart, hstop⟩ := exists_runs (t := t) hd
  exact ⟨start, stop, hstart, getElem?_linePositions_of_runs hd hstart hstop⟩

/-- Only white space without a line break parts a comment from the one before it. -/
def Joined (t : Tree) (c : CommentId) : Prop :=
  (t.source.slice (t.comment (c - 1)).span.stop (t.comment c).span.start).joinsLine = true

instance (c : CommentId) : Decidable (Joined t c) := inferInstanceAs (Decidable (_ = _))

/-- Of the comments that are joined up to the last one, this is the first. -/
structure Opens (t : Tree) (first last : CommentId) : Prop where
  le : first ≤ last
  parted : ¬ Joined t first
  joined : ∀ c, first < c → c ≤ last → Joined t c

theorem Opens.self {c : CommentId} (h : ¬ Joined t c) : Opens t c c :=
  ⟨Nat.le_refl c, h, fun _ hlo hhi => absurd hlo (Nat.not_lt_of_le hhi)⟩

theorem Opens.succ {first last : CommentId} (h : Opens t first last)
    (hjoined : Joined t (last + 1)) :
    Opens t first (last + 1) := by
  refine ⟨Nat.le_succ_of_le h.le, h.parted, fun c hlo hhi => ?_⟩
  rcases Nat.le_succ_iff.mp hhi with hhi | rfl
  · exact h.joined c hlo hhi
  · exact hjoined

/-- A joined comment is on its own line if the one before it is, any other one if it is the first
thing on its line. -/
theorem ownLine_succ_iff (hd : all[i]? = some d) (he : all[i + 1]? = some e)
    (hpre : d.preceding = e.preceding) (hsome : d.preceding.isSome = true)
    (hcomment : e.comment = d.comment + 1) :
    (linePositions t all)[i + 1]? = some .ownLine ↔
      if Joined t e.comment then (linePositions t all)[i]? = some .ownLine
      else t.source.startsLine (t.comment e.comment).span.start = true := by
  obtain ⟨start, stop, hstart, hposition⟩ := getElem?_linePositions (t := t) hd
  obtain ⟨start', stop', hstart', hposition'⟩ := getElem?_linePositions (t := t) he
  rw [getElem?_runStarts_succ hd he hstart] at hstart'
  have hshares : (d.preceding == e.preceding && sharesLine t d e) = true ↔ Joined t e.comment := by
    rw [hpre, beq_self_eq_true, Bool.true_and, sharesLine, Joined, hcomment, Nat.add_sub_cancel]
  rw [hposition', hposition, Option.some.injEq, Option.some.injEq, linePosition_eq_ownLine_iff,
    linePosition_eq_ownLine_iff, if_pos (hpre ▸ hsome), if_pos hsome, ← Option.some.inj hstart']
  by_cases hjoined : Joined t e.comment
  · rw [if_pos (hshares.mpr hjoined), if_pos hjoined]
  · rw [if_neg (hshares.not.mpr hjoined), if_neg hjoined]

end Assignment

namespace Toy

open CommentPolicy Assignment

variable {text : Text} {t : Tree} {all : List Neighbours} {d d₁ d₂ : Neighbours} {c : CommentId}
  {preceding following scope : NodeId} {before after : Option NodeId}

theorem kind_ne_template (h : Parsed t) (hc : c ∈ t.commentIds)
    (hl : Located policy t c scope before after)
    (hp : (neighboursIn policy t c scope before after).preceding = some preceding)
    (hf : (neighboursIn policy t c scope before after).following = some following) :
    (t.node scope).kind ≠ "Template" := by
  intro hk
  obtain ⟨e, hd | hd⟩ := exists_neighbour_of_template h hc hl hk
  · rw [hd] at hp
    cases hp
  · rw [hd] at hf
    cases hf

/-- A comment lies directly in a node that is no template, between two items of it. -/
structure Flanked (t : Tree) (c : CommentId) (scope preceding following : NodeId) : Prop where
  located : Located policy t c scope (some preceding) (some following)
  kind : (t.node scope).kind ≠ "Template"

section Flanked

variable (h : Parsed t)
include h

theorem exists_flanked (hall : policy.allNeighbours t = .ok all) (hd : d ∈ all)
    (hp : d.preceding = some preceding) (hf : d.following = some following) :
    ∃ scope, Flanked t d.comment scope preceding following := by
  have hc := (neighbours_of_mem hall hd).1
  obtain ⟨scope, before, after, hl, heq⟩ := exists_located (fun _ => rfl) h hall hd
  rw [heq] at hp hf
  have hkind := kind_ne_template h hc hl hp hf
  obtain rfl := withinTemplate_eq_some hp
  obtain rfl := withinTemplate_eq_some hf
  exact ⟨scope, hl, hkind⟩

theorem mem_frontier_policy (hs : Innermost policy t (t.comment c).span t.root scope) {n : NodeId} :
    n ∈ policy.frontier t scope ↔ n ∈ (t.node scope).children ∧ (t.node n).kind ∈ itemKinds := by
  rw [mem_frontier_iff (fun _ => rfl) h.wellNested.earlier, handed_iff h (scope_lt_size h hs)]

namespace Flanked

omit h in
theorem mem_frontier (hc : Flanked t c scope preceding following) :
    preceding ∈ policy.frontier t scope ∧ following ∈ policy.frontier t scope ∧
      (t.node preceding).span.stop ≤ (t.comment c).span.start ∧
      (t.comment c).span.stop ≤ (t.node following).span.start := by
  obtain ⟨hmem, hbefore⟩ := hc.located.mem_before
  obtain ⟨hmem', hafter⟩ := hc.located.mem_after
  exact ⟨hmem, hmem', hbefore, hafter⟩

theorem contains_scope (hc : c ∈ t.commentIds)
    (hs : Innermost policy t (t.comment c).span t.root scope) :
    (t.node scope).span.contains (t.comment c).span = true := by
  rcases hs.around with rfl | ⟨-, -, hin⟩
  · exact h.covers c hc
  · exact hin

theorem scope_unique {b : CommentId} {scope' : NodeId} (hb : Flanked t b scope preceding following)
    (hc : Flanked t c scope' preceding following) : scope = scope' := by
  refine parent_unique h hb.located.innermost.reaches
    hc.located.innermost.reaches (v := preceding) ?_ ?_
  · exact ((mem_frontier_policy h hb.located.innermost).mp hb.mem_frontier.1).1
  · exact ((mem_frontier_policy h hc.located.innermost).mp hc.mem_frontier.1).1

section Between

variable {b e : CommentId} (hb : Flanked t b scope preceding following)
  (he : Flanked t e scope preceding following)
  (hids : b ∈ t.commentIds ∧ c ∈ t.commentIds ∧ e ∈ t.commentIds)
  (hbc : (t.comment b).span.stop ≤ (t.comment c).span.start)
  (hce : (t.comment c).span.stop ≤ (t.comment e).span.start)
include hb he hids hbc hce

/-- No item of the scope lies around a comment between two others with the same items next to
them. -/
theorem not_contains_item {n : NodeId} (hn : n ∈ policy.frontier t scope) :
    ¬ (t.node n).span.contains (t.comment c).span = true := by
  intro hin
  have hin := Span.contains_iff.mp hin
  have hb' := h.nonempty b hids.1
  have hc' := h.nonempty c hids.2.1
  have he' := h.nonempty e hids.2.2
  have hhanded := (mem_frontier_iff (fun _ => rfl) h.wellNested.earlier).mp hn
  rcases hb.located.beside h.wellNested (not_overlaps h hids.1) hhanded with hside | hside
  · omega
  · obtain ⟨m, -, hm, -, hnext⟩ := hb.located.exists_after (fun _ => rfl) h.wellNested hn hside
    obtain rfl := Option.some.inj hm
    have hstart : (t.node following).span.start ≤ (t.node n).span.start := by
      rcases hnext with rfl | hnext
      · exact Nat.le_refl _
      · exact Nat.le_trans (h.wellNested.forward _) hnext
    have hafter := he.mem_frontier.2.2.2
    omega

theorem scope_eq {scope' : NodeId} (hs : Innermost policy t (t.comment c).span t.root scope') :
    scope' = scope := by
  have hw := h.wellNested
  have hin : (t.node scope).span.contains (t.comment c).span = true := by
    have hfirst := Span.contains_iff.mp (contains_scope h hids.1 hb.located.innermost)
    have hlast := Span.contains_iff.mp (contains_scope h hids.2.2 he.located.innermost)
    have hb' := h.nonempty b hids.1
    have he' := h.nonempty e hids.2.2
    exact Span.contains_iff.mpr (by omega)
  have hreach : t.Reaches scope scope' := by
    rcases hb.located.innermost.around with rfl | ⟨hbelow, hhold, -⟩
    · exact hs.reaches
    · exact (hs.innermost scope hbelow hhold hin).imp Eq.symm id
  refine hreach.resolve_right fun hbelow => ?_
  obtain ⟨n, hn, hreach⟩ := hbelow.exists_child
  have hne : scope' ≠ t.root := by
    rintro rfl
    have hle := hw.reaches_le hb.located.innermost.reaches
    exact Nat.not_lt_of_le hle (hw.below_lt hbelow)
  obtain ⟨-, hhold, hin'⟩ := hs.around.resolve_left hne
  refine not_contains_item h hb he hids hbc hce ?_
    (Span.contains_trans (hw.reaches_inside hreach) hin')
  refine (mem_frontier_policy h hb.located.innermost).mpr ⟨hn, ?_⟩
  have hsize := scope_lt_size h hb.located.innermost
  apply ((h.shaped scope hsize).kind_of_child hn).resolve_right
  intro hk
  rcases hreach with rfl | hreach
  · exact absurd hk (bne_iff_ne.mp hhold)
  · obtain ⟨m, hm, -⟩ := hreach.exists_child
    rw [(h.shaped n (Nat.lt_trans (h.earlier scope hsize n hn) hsize)).children_eq_nil
      (hk ▸ by decide)] at hm
    cases hm

theorem before_eq {before after : Option NodeId} (hl : Located policy t c scope before after) :
    before = some preceding := by
  have hw := h.wellNested
  have hsize := scope_lt_size h hl.innermost
  have hb' := h.nonempty b hids.1
  have hc' := h.nonempty c hids.2.1
  have hnonempty : ∀ n ∈ policy.frontier t scope, (t.node n).span.start < (t.node n).span.stop := by
    intro n hn
    obtain ⟨hchild, hk⟩ := (mem_frontier_policy h hl.innermost).mp hn
    exact (h.shaped n (Nat.lt_trans (h.earlier _ hsize n hchild) hsize)).start_lt_stop hk
  obtain ⟨hmem, -, hbefore, -⟩ := hb.mem_frontier
  obtain ⟨m, hm, rfl, hside, hnext⟩ :=
    hl.exists_before (fun _ => rfl) hw hmem (show _ ≤ _ by omega)
  obtain ⟨_, -, ⟨⟩, -, hnext'⟩ :=
    he.located.exists_before (fun _ => rfl) hw hm (show _ ≤ _ by omega)
  rcases hnext with rfl | hnext
  · rfl
  · rcases hnext' with rfl | hnext'
    · rfl
    · have hitem := hnonempty preceding hmem
      have hm' := hnonempty m hm
      omega

end Between

end Flanked

end Flanked

section All

variable (h : Parsed t) (hl : Laid text t) (hall : policy.allNeighbours t = .ok all)
include h hl hall

variable (hd₁ : d₁ ∈ all) (hd₂ : d₂ ∈ all)
  (hpreceding : d₁.preceding = some preceding ∧ d₂.preceding = some preceding)
  (hfollowing : d₁.following = some following ∧ d₂.following = some following)
include hd₁ hd₂ hpreceding hfollowing

theorem preceding_between (hd : d ∈ all) (hlo : d₁.comment ≤ d.comment)
    (hhi : d.comment ≤ d₂.comment) : d.preceding = some preceding := by
  rcases Nat.eq_or_lt_of_le hlo with heq | hlo
  · obtain rfl : d₁ = d := Option.some.inj
      ((getElem?_comment hall hd₁).symm.trans (heq ▸ getElem?_comment hall hd))
    exact hpreceding.1
  rcases Nat.eq_or_lt_of_le hhi with heq | hhi
  · obtain rfl : d = d₂ := Option.some.inj
      ((getElem?_comment hall hd).symm.trans (heq ▸ getElem?_comment hall hd₂))
    exact hpreceding.2
  have hc₁ := (neighbours_of_mem hall hd₁).1
  have hc := (neighbours_of_mem hall hd).1
  have hc₂ := (neighbours_of_mem hall hd₂).1
  obtain ⟨scope, hflanked₁⟩ := exists_flanked h hall hd₁ hpreceding.1 hfollowing.1
  obtain ⟨scope', hflanked₂⟩ := exists_flanked h hall hd₂ hpreceding.2 hfollowing.2
  obtain rfl := hflanked₁.scope_unique h hflanked₂
  obtain ⟨scope', before, after, hlocated, heq⟩ := exists_located (fun _ => rfl) h hall hd
  have hbehind := hl.inOrder _ hc₁ _ hc hlo
  have hahead := hl.inOrder _ hc _ hc₂ hhi
  obtain rfl := hflanked₁.scope_eq h hflanked₂ ⟨hc₁, hc, hc₂⟩ hbehind hahead hlocated.innermost
  have hbefore := hflanked₁.before_eq h hflanked₂ ⟨hc₁, hc, hc₂⟩ hbehind hahead hlocated
  rw [heq, ← hbefore]
  exact withinTemplate_of_kind_ne hflanked₁.kind

/-- Behind a comment on its own line, a comment is on its own line if the comments joined to it
begin at the start of a line or with the former comment. -/
theorem ownLine_of_opens (hlt : d₁.comment ≤ d₂.comment)
    (hown : (linePositions t all)[d₁.comment]? = some .ownLine)
    (hopens : ∀ b, d₁.comment < b → Opens t b d₂.comment →
      t.source.startsLine (t.comment b).span.start = true) :
    (linePositions t all)[d₂.comment]? = some .ownLine := by
  have hrow : ∀ c ≤ d₂.comment, ∃ d ∈ all, d.comment = c := by
    intro c hc
    have hmem : c ∈ t.commentIds :=
      List.mem_range.mpr (Nat.lt_of_le_of_lt hc (List.mem_range.mp (neighbours_of_mem hall hd₂).1))
    rwa [← map_comment_allNeighbours hall, List.mem_map] at hmem
  suffices hrun : ∀ c, d₁.comment ≤ c → c ≤ d₂.comment → (∀ b, d₁.comment < b → Opens t b c →
      t.source.startsLine (t.comment b).span.start = true) →
      (linePositions t all)[c]? = some .ownLine from hrun _ hlt (Nat.le_refl _) hopens
  clear hopens
  intro c hlo
  induction c, hlo using Nat.le_induction with
  | base => exact fun _ _ => hown
  | succ c hlo ih =>
    intro hhi hopens
    obtain ⟨d, hd, rfl⟩ := hrow c (Nat.le_of_succ_le hhi)
    obtain ⟨e, he, hcomment⟩ := hrow (d.comment + 1) hhi
    have hd' : d.preceding = some preceding := preceding_between h hl hall hd₁ hd₂ hpreceding
      hfollowing hd hlo (Nat.le_of_succ_le hhi)
    have hlater : d₁.comment < e.comment := hcomment ▸ Nat.lt_succ_of_le hlo
    have he' : e.preceding = some preceding := preceding_between h hl hall hd₁ hd₂ hpreceding
      hfollowing he (Nat.le_of_lt hlater) (hcomment ▸ hhi)
    rw [ownLine_succ_iff (getElem?_comment hall hd) (hcomment ▸ getElem?_comment hall he)
      (hd'.trans he'.symm) (by simp [hd']) hcomment]
    rw [← hcomment] at hopens
    split
    · rename_i hjoined
      refine ih (Nat.le_of_succ_le hhi) fun b hb hb' => hopens b hb ?_
      rw [hcomment] at hjoined ⊢
      exact hb'.succ hjoined
    · rename_i hparted
      exact hopens e.comment hlater (.self hparted)

omit hall hd₁ hd₂ hpreceding hfollowing in
theorem not_gapsFrom {cs : List CommentId} (hcs : ∀ c ∈ cs, c ∈ t.commentIds) {next : Nat}
    (hnext : text.IsCut next) (hc : c ∈ t.commentIds) (hnot : c ∉ cs)
    (hstop : (t.comment c).span.stop ≤ next) {j : Nat} {b : CommentId} (hj : cs[j]? = some b)
    (hbc : b < c) : ¬ GapsFrom t defaultGap next cs j := by
  have hslash : ∀ gap : Text, '/' ∈ gap → ¬ defaultGap gap = true := by
    intro gap hmem hgap
    exact absurd (List.all_eq_true.mp hgap '/' hmem) (by decide)
  have hlt := h.nonempty c hc
  intro hgaps
  induction hn : cs.length - j generalizing j b with
  | zero =>
    have hj' := (List.getElem?_eq_some_iff.mp hj).1
    omega
  | succ n ih =>
    have hj' := (List.getElem?_eq_some_iff.mp hj).1
    have hb := hcs b (List.mem_of_getElem? hj)
    have hgap := hgaps j hj' (Nat.le_refl _)
    rw [gapBehind, hj] at hgap
    cases hm : cs[j + 1]? with
    | none =>
      rw [hm] at hgap
      refine hslash _ ?_ hgap
      exact hl.slash_mem_slice hc (hl.stops b hb) hnext (hl.inOrder b hb c hc hbc)
        (Nat.lt_of_lt_of_le hlt hstop)
    | some m =>
      have hm' := List.mem_of_getElem? hm
      rcases Nat.lt_trichotomy m c with hmc | rfl | hcm
      · exact ih hm hmc (fun i hi hji => hgaps i hi (Nat.le_of_succ_le hji)) (by omega)
      · exact hnot hm'
      · rw [hm] at hgap
        refine hslash _ ?_ hgap
        exact hl.slash_mem_slice hc (hl.stops b hb) (hl.isCut_start (hcs m hm'))
          (hl.inOrder b hb c hc hbc) (Nat.lt_of_lt_of_le hlt (hl.inOrder c hc m (hcs m hm') hcm))

omit h hl hd₁ hd₂ hpreceding hfollowing in
theorem pairwise_lt_run {run : List Neighbours}
    (hrun : run ∈ tieRuns (all.zip (linePositions t all))) :
    (∀ d ∈ run, d ∈ all) ∧ run.Pairwise fun d e => d.comment < e.comment := by
  have htied : run.Sublist (tied (all.zip (linePositions t all))) := by
    rw [← List.flatten_splitBy samePair (tied _)]
    exact List.sublist_flatten_of_mem hrun
  have hsub : run.Sublist all := by
    rw [← map_fst_zip_linePositions (t := t) all]
    exact htied.trans (List.filter_sublist.map _)
  have hincreasing : (all.map Neighbours.comment).Pairwise (· < ·) := by
    rw [map_comment_allNeighbours hall]
    exact List.pairwise_lt_range
  exact ⟨fun d hd => hsub.subset hd, (List.pairwise_map.mp hincreasing).sublist hsub⟩

/-- No comment behind a tied one that leads the following node trails the preceding one. -/
theorem not_trails_of_tied {a : Attachments} {run : List Neighbours}
    (hrun : run ∈ tieRuns (all.zip (linePositions t all))) (hresolved : ResolvedRun policy t a run)
    (hmem : d₁ ∈ run) (hlt : d₁.comment < d₂.comment)
    (hlead : a.get? d₁.comment = some ⟨following, .leading⟩) :
    a.get? d₂.comment ≠ some ⟨preceding, .trailing⟩ := by
  obtain ⟨hin, hincreasing⟩ := pairwise_lt_run hall hrun
  obtain ⟨first, preceding', following', -, hpair, hget⟩ := hresolved
  have haccepts : (policy.gap t first.enclosing).getD defaultGap = defaultGap := rfl
  rw [haccepts] at hget
  obtain rfl := Option.some.inj ((hpair d₁ hmem).2.symm.trans hfollowing.1)
  obtain ⟨j, hj⟩ := List.getElem?_of_mem hmem
  have hgaps :
      GapsFrom t defaultGap (t.node following').span.start (run.map Neighbours.comment) j := by
    by_contra hnot
    have hj' := hget j d₁ hj
    rw [if_neg hnot, hlead] at hj'
    cases hj'
  by_cases hmem' : d₂ ∈ run
  · obtain ⟨k, hk⟩ := List.getElem?_of_mem hmem'
    have hjk : j ≤ k := by
      by_contra hkj
      obtain ⟨hj', rfl⟩ := List.getElem?_eq_some_iff.mp hj
      obtain ⟨hk', rfl⟩ := List.getElem?_eq_some_iff.mp hk
      have hback := List.pairwise_iff_getElem.mp hincreasing k j hk' hj' (Nat.lt_of_not_le hkj)
      exact Nat.lt_asymm hlt hback
    have hlater : GapsFrom t defaultGap (t.node following').span.start
        (run.map Neighbours.comment) k := fun i hi hki => hgaps i hi (Nat.le_trans hjk hki)
    have hk' := hget k d₂ hk
    rw [if_pos hlater] at hk'
    rw [hk']
    exact fun heq => by cases heq
  · exfalso
    have hc₂ := (neighbours_of_mem hall hd₂).1
    obtain ⟨scope, hflanked⟩ := exists_flanked h hall hd₂ hpreceding.2 hfollowing.2
    obtain ⟨-, hfrontier, -, hafter⟩ := hflanked.mem_frontier
    have hsize := scope_lt_size h hflanked.located.innermost
    have hchild := ((mem_frontier_policy h hflanked.located.innermost).mp hfrontier).1
    have hcut := hl.starts following' (Nat.lt_trans (h.earlier scope hsize _ hchild) hsize)
    have hcomment : (run.map Neighbours.comment)[j]? = some d₁.comment := by
      rw [List.getElem?_map, hj]
      rfl
    refine not_gapsFrom h hl ?_ hcut hc₂ ?_ hafter hcomment hlt hgaps
    · intro c hc
      obtain ⟨d, hd, rfl⟩ := List.mem_map.mp hc
      exact (neighbours_of_mem hall (hin d hd)).1
    · intro hc
      obtain ⟨d, hd, heq⟩ := List.mem_map.mp hc
      obtain rfl : d = d₂ := Option.some.inj
        ((getElem?_comment hall (hin d hd)).symm.trans (heq ▸ getElem?_comment hall hd₂))
      exact hmem' hd

end All

/-- Of two comments between the same two nodes, the first does not lead the second node while the
second trails the first node, unless the first is on its own line and the comments that are joined
to the second begin behind the first in the middle of a line. -/
theorem not_leads_then_trails {a : Attachments} {events : List Event}
    (hparse : parse text = .ok t) (hassign : assignComments policy t = .ok (a, events))
    (hall : policy.allNeighbours t = .ok all) (hd₁ : d₁ ∈ all) (hd₂ : d₂ ∈ all)
    (hlt : d₁.comment < d₂.comment)
    (hpreceding : d₁.preceding = some preceding ∧ d₂.preceding = some preceding)
    (hfollowing : d₁.following = some following ∧ d₂.following = some following)
    (hopens : (linePositions t all)[d₁.comment]? = some .ownLine →
      ∀ b, d₁.comment < b → Opens t b d₂.comment →
        t.source.startsLine (t.comment b).span.start = true) :
    ¬ (a.get? d₁.comment = some ⟨following, .leading⟩ ∧
      a.get? d₂.comment = some ⟨preceding, .trailing⟩) := by
  rintro ⟨hlead, htrail⟩
  have h := parsed_of_parse hparse
  have hl := laid_of_parse hparse
  obtain rfl : a = (outcome policy t all).attachments := by
    rw [assignComments_eq hall] at hassign
    exact (Prod.mk.inj (Except.ok.inj hassign)).1.symm
  have hsettles := settles_outcome inert_policy hall
  have hplaced : ∀ {d position}, d ∈ all → (linePositions t all)[d.comment]? = some position →
      (d, position) ∈ all.zip (linePositions t all) := fun hd hposition =>
    List.mem_of_getElem? (List.getElem?_zip_eq_some.mpr ⟨getElem?_comment hall hd, hposition⟩)
  obtain ⟨start, stop, -, hposition⟩ := getElem?_linePositions (t := t) (getElem?_comment hall hd₁)
  cases hat : linePosition t d₁ start stop with
  | ownLine =>
    rw [hat] at hposition
    have hown := ownLine_of_opens h hl hall hd₁ hd₂ hpreceding hfollowing (Nat.le_of_lt hlt)
      hposition (hopens hposition)
    have hget := hsettles.untied _ (hplaced hd₂ hown) rfl
    rw [htrail, eagerPlace, hfollowing.2] at hget
    cases hget
  | endOfLine =>
    rw [hat] at hposition
    have hget := hsettles.untied _ (hplaced hd₁ hposition) rfl
    rw [hlead, eagerPlace, hpreceding.1] at hget
    cases hget
  | remaining =>
    rw [hat] at hposition
    have htied : d₁ ∈ tied (all.zip (linePositions t all)) :=
      List.mem_map_of_mem (List.mem_filter.mpr ⟨hplaced hd₁ hposition, by
        simp [isTied, hpreceding.1, hfollowing.1]⟩)
    rw [← List.flatten_splitBy samePair (tied _), List.mem_flatten] at htied
    obtain ⟨run, hrun, hmem⟩ := htied
    exact not_trails_of_tied h hl hall hd₁ hd₂ hpreceding hfollowing hrun
      (hsettles.runs run hrun) hmem
      hlt hlead htrail

def joinedComments : Text := "a\n/*c1*/ /*c2*/\nb".toList

def partedComments : Text := "a\n/*c1*/ , /*c2*/\nb".toList

theorem not_leads_then_trails_joinedComments :
    ∃ t a events, parse joinedComments = .ok t ∧ assignComments policy t = .ok (a, events) ∧
      policy.allNeighbours t = .ok [⟨0, none, some 0, some 1⟩, ⟨1, none, some 0, some 1⟩] ∧
      Joined t 1 ∧
      ¬ (a.get? 0 = some ⟨1, .leading⟩ ∧ a.get? 1 = some ⟨0, .trailing⟩) := by
  have hreport : ((parse joinedComments).toOption.bind fun t =>
      (policy.allNeighbours t).toOption.map fun all => (all, decide (Joined t 1))) =
      some ([⟨0, none, some 0, some 1⟩, ⟨1, none, some 0, some 1⟩], true) := by
    decide +kernel
  obtain ⟨t, hparse, hreport⟩ := Option.bind_eq_some_iff.mp hreport
  obtain ⟨all, hall, hreport⟩ := Option.map_eq_some_iff.mp hreport
  obtain ⟨rfl, hjoined⟩ := Prod.mk.inj hreport
  have hparse := toOption_eq_some_iff.mp hparse
  have hall := toOption_eq_some_iff.mp hall
  have hjoined := of_decide_eq_true hjoined
  have hassign := assignComments_eq hall
  refine ⟨t, _, _, hparse, hassign, hall, hjoined, ?_⟩
  refine not_leads_then_trails hparse hassign hall List.mem_cons_self
    (List.mem_cons_of_mem _ List.mem_cons_self) Nat.zero_lt_one ⟨rfl, rfl⟩ ⟨rfl, rfl⟩ ?_
  intro _ b hlo hb
  obtain rfl : b = 1 := Nat.le_antisymm hb.le hlo
  exact absurd hjoined hb.parted

theorem leads_then_trails_partedComments :
    ∃ t a events all d₁ d₂, parse partedComments = .ok t ∧
      assignComments policy t = .ok (a, events) ∧ policy.allNeighbours t = .ok all ∧
      d₁ ∈ all ∧ d₂ ∈ all ∧ d₁.comment < d₂.comment ∧
      (d₁.preceding = some 0 ∧ d₂.preceding = some 0) ∧
      (d₁.following = some 1 ∧ d₂.following = some 1) ∧
      a.get? d₁.comment = some ⟨1, .leading⟩ ∧ a.get? d₂.comment = some ⟨0, .trailing⟩ := by
  have hreport : ((parse partedComments).toOption.bind fun t =>
      (policy.allNeighbours t).toOption.map fun all => (all,
        (outcome policy t all).attachments.get? 0, (outcome policy t all).attachments.get? 1)) =
      some ([⟨0, none, some 0, some 1⟩, ⟨1, none, some 0, some 1⟩], some ⟨1, .leading⟩,
        some ⟨0, .trailing⟩) := by
    decide +kernel
  obtain ⟨t, hparse, hreport⟩ := Option.bind_eq_some_iff.mp hreport
  obtain ⟨all, hall, hreport⟩ := Option.map_eq_some_iff.mp hreport
  simp only [Prod.mk.injEq] at hreport
  obtain ⟨rfl, hlead, htrail⟩ := hreport
  have hall := toOption_eq_some_iff.mp hall
  exact ⟨t, _, _, _, ⟨0, none, some 0, some 1⟩, ⟨1, none, some 0, some 1⟩,
    toOption_eq_some_iff.mp hparse, assignComments_eq hall, hall, List.mem_cons_self,
    List.mem_cons_of_mem _ List.mem_cons_self, Nat.zero_lt_one, ⟨rfl, rfl⟩, ⟨rfl, rfl⟩, hlead, htrail⟩

end Toy

end SourceLayout
