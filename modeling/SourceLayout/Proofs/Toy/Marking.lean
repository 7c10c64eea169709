import SourceLayout.Proofs.Comment.Owners
import SourceLayout.Proofs.Toy.Confined
import SourceLayout.Proofs.Toy.Parents

/-! # Comments in reproduced nodes

Whatever nodes may hold comments, a comment inside a node that is reproduced as written belongs to
that node or to one below it, and the rules below a reproduced node are not run. The exception is
the program itself: it may be told to take the comments at its ends, and a marker among them has
the program reproduced and is printed as well.
-/

namespace SourceLayout.Toy

open CommentPolicy Assignment Pass

variable {t : Tree} {n m u : NodeId} {c : CommentId}

section Owners

variable {outer : Bool} {canHold : Node → Bool} {all : List Neighbours} {d : Neighbours}
  {x : Attachment}

variable (h : Parsed t) (hall : (variant outer canHold).allNeighbours t = .ok all)
include h hall

omit hall in
/-- The neighbours of a comment take the comments of the node that it lies in. -/
theorem handed_of_neighbour {scope : NodeId} {before after : Option NodeId}
    (hl : Located (variant outer canHold).toCommentPolicy t c scope before after)
    (hn : (neighboursIn (variant outer canHold).toCommentPolicy t c scope before after).preceding =
        some n ∨
      (neighboursIn (variant outer canHold).toCommentPolicy t c scope before after).following =
        some n) :
    Handed (variant outer canHold).toCommentPolicy t scope n := by
  apply (mem_frontier_iff (fun _ => rfl) h.wellNested.earlier).mp
  rcases hn with hn | hn
  · obtain rfl := withinTemplate_eq_some hn
    exact hl.mem_before.1
  · obtain rfl := withinTemplate_eq_some hn
    exact hl.mem_after.1

/-- A comment that is not at the ends of the program belongs to the node that it lies in, where it
dangles, or to one that takes the comments of that node. -/
theorem exists_scope (hd : d ∈ all) (hx : Beside t d x) : ∃ scope,
    Innermost (variant outer canHold).toCommentPolicy t (t.comment d.comment).span t.root scope ∧
      (Handed (variant outer canHold).toCommentPolicy t scope x.owner ∧ x.placement ≠ .dangling ∨
        x = ⟨scope, .dangling⟩) := by
  obtain ⟨scope, before, after, hl, hd⟩ := exists_located (fun _ => rfl) h hall hd
  refine ⟨scope, hl.innermost, ?_⟩
  rw [hd] at hx
  cases hx with
  | leads hn => exact .inl ⟨handed_of_neighbour h hl (.inr hn), by simp⟩
  | trails hn => exact .inl ⟨handed_of_neighbour h hl (.inl hn), by simp⟩
  | dangles hp hf =>
    right
    unfold neighboursIn at hp hf ⊢
    dsimp only at hp hf ⊢
    rw [hp, hf]
    by_cases hroot : scope = t.root <;> simp [hroot]

omit h hall in
theorem exists_owned
    (hget : (outcome (variant outer canHold).toCommentPolicy t all).attachments.get? c = some x) :
    ∃ d ∈ all, d.comment = c ∧ Owned (variant outer canHold).toCommentPolicy t d x :=
  (Proper.outcome (fun _ => rfl) fun _ => rfl).attached c x hget

theorem below_of_isMarked
    (hmark : isMarked t (outcome (variant outer canHold).toCommentPolicy t all).attachments n = true)
    (hne : n ≠ t.root) : t.Below t.root n ∧ canHold (t.node n) = true := by
  obtain ⟨c, hc, -⟩ := List.any_eq_true.mp hmark
  have hget := (Attachments.mem_placed (sound_outcome hall).1.coherent).mp hc
  obtain ⟨d, hd, rfl, hown⟩ := exists_owned hget
  cases hown with
  | ahead => exact absurd rfl hne
  | beside _ _ hx =>
    obtain ⟨scope, hin, ⟨hhanded, -⟩ | heq⟩ := exists_scope h hall hd hx
    · exact ⟨hin.reaches.trans_below hhanded.isBelow, hhanded.canHold⟩
    · cases heq

/-- The program is reproduced if it takes the comments at its ends and a marker is its first
text. -/
theorem isMarked_root_iff :
    isMarked t (outcome (variant outer canHold).toCommentPolicy t all).attachments t.root = true ↔
      outer = true ∧ ∃ c ∈ t.commentIds, (t.comment c).span.start = 0 ∧
        ignoreMarker.occursIn (t.comment c).text = true := by
  have hcoherent := (sound_outcome hall).1.coherent
  have hahead : ∀ d, IsAhead (variant outer canHold).toCommentPolicy t d ↔
      outer = true ∧ (t.comment d.comment).span.start = 0 := by
    intro d
    unfold IsAhead
    rw [h.start_root, Nat.le_zero]
    rfl
  rw [isMarked, List.any_eq_true]
  constructor
  · rintro ⟨c, hc, hmarker⟩
    obtain ⟨d, hd, rfl, hown⟩ := exists_owned ((Attachments.mem_placed hcoherent).mp hc)
    cases hown with
    | ahead hd' =>
      obtain ⟨houter, hstart⟩ := (hahead d).mp hd'
      exact ⟨houter, d.comment, (neighbours_of_mem hall hd).1, hstart, hmarker⟩
    | beside _ _ hx =>
      exfalso
      obtain ⟨scope, hin, ⟨hhanded, -⟩ | heq⟩ := exists_scope h hall hd hx
      · have hreach : t.Reaches t.root scope := hin.reaches
        exact Nat.not_lt_of_le (h.wellNested.reaches_le hreach)
          (h.wellNested.below_lt hhanded.isBelow)
      · cases heq
  · rintro ⟨houter, c, hc, hstart, hmarker⟩
    rw [← map_comment_allNeighbours hall, List.mem_map] at hc
    obtain ⟨d, hd, rfl⟩ := hc
    have hd' := (hahead d).mpr ⟨houter, hstart⟩
    obtain ⟨x, hget, hown⟩ := exists_owned_outcome (fun _ => rfl) (fun _ => rfl) hall hd
    refine ⟨d.comment, (Attachments.mem_placed hcoherent).mpr ?_, hmarker⟩
    cases hown with
    | ahead => exact hget
    | behind hnot => exact absurd hd' hnot
    | beside hnot => exact absurd hd' hnot

end Owners

section Walk

variable {a : Attachments} {x : Attachment}

theorem comment_notMem_walk (h : Parsed t) (ha : a.Coherent) (hmark : isMarked t a n = true)
    (hr : t.Reaches t.root n) (hget : a.get? c = some x) (hx : t.Reaches n x.owner)
    (hdangles : x.owner = n → x.placement = .dangling) (hu : t.Reaches t.root u)
    (hnot : ¬ t.Below n u) : .comment c ∉ walk t a u := by
  have hw := h.wellNested
  induction u using Nat.strongRecOn with
  | ind u ih =>
    have hself : x.owner = u → u = n := by
      rintro rfl
      exact hx.resolve_right hnot
    rw [walk_eq hw, List.mem_append]
    rintro (hmem | hmem)
    · split at hmem
      · simp at hmem
      · rename_i hunmarked
        rcases List.mem_append.mp hmem with hmem | hmem
        · obtain ⟨v, hv, hmem⟩ := List.mem_flatMap.mp hmem
          refine ih v (hw.earlier u v hv) (.inr (hu.below_child hv)) (fun hb => ?_) hmem
          rcases reaches_parent h hr hu hv hb with rfl | hb
          · exact hunmarked hmark
          · exact hnot hb
        · unfold inner at hmem
          split at hmem
          · have hc : c ∈ a.placed u .dangling := by simpa using hmem
            rw [Attachments.mem_placed ha, hget] at hc
            obtain rfl := hself (congrArg Attachment.owner (Option.some.inj hc))
            exact hunmarked hmark
          · cases hmem
    · have hc : c ∈ a.placed u .leading ∨ c ∈ a.placed u .trailing := by simpa [fringe] using hmem
      rw [Attachments.mem_placed ha, Attachments.mem_placed ha, hget] at hc
      rcases hc with hc | hc
      · obtain rfl := Option.some.inj hc
        cases hdangles (hself rfl)
      · obtain rfl := Option.some.inj hc
        cases hdangles (hself rfl)

variable {outer : Bool} {canHold : Node → Bool} {all : List Neighbours}

theorem comment_notMem_walk_of_marked (h : Parsed t)
    (hall : (variant outer canHold).allNeighbours t = .ok all)
    (ha : a = (outcome (variant outer canHold).toCommentPolicy t all).attachments)
    (hmark : isMarked t a n = true) (hne : n ≠ t.root) (hc : c ∈ t.commentIds)
    (hin : (t.node n).span.contains (t.comment c).span = true) :
    .comment c ∉ walk t a t.root := by
  subst ha
  intro hmem
  have hw := h.wellNested
  have hcoherent := (sound_outcome hall).1.coherent
  obtain ⟨hb, hhold⟩ := below_of_isMarked h hall hmark hne
  obtain ⟨x, hget, -⟩ := reaches_of_comment_mem hw hcoherent hmem
  obtain ⟨d, hd, rfl, hown⟩ := exists_owned hget
  have hstrict := comment_strictly_inside h hb hc hin
  have hinside := Span.contains_iff.mp (hw.below_inside hb)
  cases hown with
  | ahead hahead => exact absurd hahead.2 (by omega)
  | behind _ hbehind => exact absurd hbehind.2 (by omega)
  | beside _ _ hx =>
    obtain ⟨scope, hinner, howner⟩ := exists_scope h hall hd hx
    have hscope : t.Reaches n scope :=
      (hinner.innermost n hb hhold hin).imp Eq.symm id
    refine comment_notMem_walk h hcoherent hmark (.inr hb) hget ?_ ?_ (t.reaches_self _) ?_ hmem
    · rcases howner with ⟨hhanded, -⟩ | rfl
      · exact .inr (hscope.trans_below hhanded.isBelow)
      · exact hscope
    · intro heq
      rcases howner with ⟨hhanded, -⟩ | rfl
      · exfalso
        rw [heq] at hhanded
        exact Nat.not_lt_of_le (hw.reaches_le hscope) (hw.below_lt hhanded.isBelow)
      · rfl
    · exact fun hback => Nat.lt_asymm (hw.below_lt hb) (hw.below_lt hback)

end Walk

section Run

variable {a : Attachments} {nested : Text → Text → Options → SessionM Doc} {outer : Bool}
  {canHold : Node → Bool} {options : Options} {marked : Option NodeId} {place : Cursor}
  {s : PassState}

variable [TextWidth]

theorem performs_printAt_marked (hmark : isMarked t a n = true) (hp : At t place n)
    (hcache : s.cache[n]? = none) (depth : Nat) :
    Performs t (printAt nested (variantJob outer canHold t a options marked) (depth + 1) place none) s
      (.reproduced n :: fringe a n) (· = n) fun _ => True := by
  have hignored : (variantJob outer canHold t a options marked).grammar.isIgnored
      (variantJob outer canHold t a options marked).scene.attachments place = true :=
    hp.isIgnored_eq.trans hmark
  have hnode : ∀ s, Performs t (printNode nested (variantJob outer canHold t a options marked)
      (printAt nested (variantJob outer canHold t a options marked) depth) place n none) s
      ([.reproduced n] ++ fringe a n) (· = n) fun _ => True := by
    intro s
    rw [printNode_eq, printContent, if_pos hignored]
    refine (performs_reproduce rfl n).bind fun doc s' _ _ => ?_
    refine Performs.bind_last (performs_printAround rfl rfl n doc) fun commented s'' _ _ => ?_
    exact (performs_note rfl).bind_last fun _ _ _ _ => .ofPure trivial
  unfold printAt
  rw [hp.value]
  dsimp only
  refine Performs.ofGet.bind_quiet fun s' s'' hs' _ => ?_
  rw [hs', hcache]
  refine (hnode s'').bind_last fun doc s₁ _ _ => ?_
  exact (performs_remember n doc).bind_last fun _ _ _ _ => .ofPure trivial

theorem performs_printTree_marked (h : Parsed t) (hmark : isMarked t a t.root = true)
    (session : Session) :
    Performs t (printTree nested (variantJob outer canHold t a options marked)) { session }
      (.reproduced t.root :: fringe a t.root) (· = t.root) fun _ => True := by
  have hprint : Performs t (printAt nested (variantJob outer canHold t a options marked)
      (depthLimit t) (.atRoot t) none) { session } (.reproduced t.root :: fringe a t.root)
      (· = t.root) fun _ => True := by
    obtain ⟨depth, hdepth⟩ : ∃ depth, depthLimit t = depth + 1 :=
      Nat.exists_eq_succ_of_ne_zero (by unfold depthLimit; omega)
    rw [hdepth]
    exact performs_printAt_marked hmark ⟨rfl, rfl⟩ (by simp) depth
  exact performs_printTree_of_root hprint fun c hc => ⟨_, List.mem_cons_self, hc, h.covers c hc⟩

/-- However a pass over a tree ends, its steps are on the way from the root. -/
theorem mem_walk_of_mem_trail
    (hnested : ∀ name source options, Keeps Session.trail (nested name source options))
    (h : Parsed t) {session : Session} (hsession : session.trail = []) {result : Except Failure Doc}
    (hprint : (printTree nested (variantJob outer canHold t a options marked)).run.run { session } =
      (result, s)) {step : Step} (hstep : step ∈ s.trail) : step ∈ walk t a t.root := by
  have htrail := trail_printTree nested (variantJob outer canHold t a options marked) { session }
  rw [hprint] at htrail
  rw [htrail] at hstep
  have hstays : Stays t a
      (printAt nested (variantJob outer canHold t a options marked) (depthLimit t)) :=
    stays_printAt hnested h (depthLimit t)
  have hmoves := hstays.node t.root (.atRoot t) (t.reaches_self _) ⟨rfl, rfl⟩ { session }
  exact (hmoves step hstep).resolve_left fun hmem => by
    rw [show ({ session } : PassState).trail = [] from hsession] at hmem
    cases hmem

end Run

/-- A comment in a reproduced node is printed as well if and only if the program takes the comments
at its ends and the text starts with a comment that has the marker. Such a pass succeeds. -/
theorem exists_reproduced_and_printed_iff [TextWidth] {text : Text} {outer : Bool}
    {canHold : Node → Bool}
    {languages : Languages} {options : Options} {result : Except Failure Doc} {session : Session}
    (hparse : parse text = .ok t)
    (hlayout : layoutTree (variant outer canHold) languages options t = (result, session)) :
    ((∃ c ∈ t.commentIds, Covered t session.trail c ∧ .comment c ∈ session.trail) ↔
      outer = true ∧ ∃ c ∈ t.commentIds, (t.comment c).span.start = 0 ∧
        ignoreMarker.occursIn (t.comment c).text = true) ∧
    ((∃ c ∈ t.commentIds, Covered t session.trail c ∧ .comment c ∈ session.trail) →
      ∃ doc, result = .ok doc) := by
  have h := parsed_of_parse hparse
  have hnested := keeps_formatWithin languages (nestingLimit t.source.text)
  obtain ⟨all, hall⟩ : ∃ all, (variant outer canHold).allNeighbours t = .ok all :=
    exists_allNeighbours (fun _ => rfl) h
  have hcoherent := (sound_outcome hall).1.coherent
  have hevents : ∀ e ∈ (outcome (variant outer canHold).toCommentPolicy t all).events.reverse,
      IsQuestion e := fun e he => questions_outcome e (List.mem_reverse.mp he)
  have htrail : (noted none _ {}).trail = [] := trail_noted hevents {}
  generalize ha : (outcome (variant outer canHold).toCommentPolicy t all).attachments = a
  have hassign := assignComments_eq hall
  rw [ha] at hassign
  rcases hprint : (printTree (formatWithin languages (nestingLimit t.source.text))
      (variantJob outer canHold t a options
        (options.cursor.bind ((variant outer canHold).nodeAt? t)))).run.run
          { session := noted none _ {} } with ⟨result', s⟩
  have hrun := run_overTree _ rfl rfl hassign hprint
  obtain ⟨rfl, rfl⟩ := Prod.mk.inj (hlayout.symm.trans hrun)
  have hroot := isMarked_root_iff h hall
  rw [ha] at hroot
  by_cases hmark : isMarked t a t.root = true
  · obtain ⟨doc, s', hprint', -, hs⟩ := performs_printTree_marked h hmark _
    obtain ⟨rfl, rfl⟩ := Prod.mk.inj (hprint.symm.trans hprint')
    obtain ⟨c, hc, -⟩ := List.any_eq_true.mp hmark
    have hget := (Attachments.mem_placed (ha ▸ hcoherent)).mp hc
    have hmem : c ∈ t.commentIds := by
      obtain ⟨d, hd, rfl, -⟩ := exists_owned (ha ▸ hget)
      exact (neighbours_of_mem hall hd).1
    have hsteps : ∀ step ∈ Step.reproduced t.root :: fringe a t.root, step ∈ s.session.trail := by
      intro step hstep
      change step ∈ s.trail
      rw [hs.trail]
      exact List.mem_append_right _ hstep
    refine ⟨iff_of_true ⟨c, hmem, ⟨t.root, hsteps _ List.mem_cons_self, h.covers c hmem⟩,
      hsteps _ (List.mem_cons_of_mem _ ?_)⟩ (hroot.mp hmark), fun _ => ⟨doc, rfl⟩⟩
    exact List.mem_map_of_mem (List.mem_append_left _ hc)
  · have hwalk : ∀ step ∈ s.session.trail, step ∈ walk t a t.root := fun step =>
      mem_walk_of_mem_trail hnested h htrail hprint
    have hnone : ¬ ∃ c ∈ t.commentIds, Covered t s.session.trail c ∧
        .comment c ∈ s.session.trail := by
      rintro ⟨c, hc, ⟨n, hn, hin⟩, hprinted⟩
      have hmarked := isMarked_of_reproduced_mem h.wellNested (hwalk _ hn)
      refine comment_notMem_walk_of_marked h hall ha.symm hmarked ?_ hc hin (hwalk _ hprinted)
      rintro rfl
      exact hmark hmarked
    exact ⟨iff_of_false hnone fun hright => hmark (hroot.mpr hright), fun hleft => absurd hleft hnone⟩

def markedProgram : Text := "/* toy-ignore */ a".toList

section Sample

attribute [local instance] TextWidth.perCharacter

theorem exists_reproduced_and_printed_markedProgram :
    ∃ t doc session, parse markedProgram = .ok t ∧
      layoutTree (variant true (·.kind != "Quasi")) languages {} t = (.ok doc, session) ∧
      session.trail = [.reproduced 1, .comment 0] ∧
      ∃ c ∈ t.commentIds, Covered t session.trail c ∧ .comment c ∈ session.trail := by
  have htrail : ((parse markedProgram).map fun t =>
      ((layoutTree (variant true (·.kind != "Quasi")) languages {} t).2.trail,
        t.commentIds.any fun c => (t.comment c).span.start == 0 &&
          ignoreMarker.occursIn (t.comment c).text)) =
      .ok ([.reproduced 1, .comment 0], true) := by
    decide +kernel
  cases hparse : parse markedProgram with
  | error e =>
    rw [hparse] at htrail
    cases htrail
  | ok t =>
    rw [hparse] at htrail
    obtain ⟨htrail, hstarts⟩ := Prod.mk.inj (Except.ok.inj htrail)
    rcases hlayout : layoutTree (variant true (·.kind != "Quasi")) languages {} t with
      ⟨result, session⟩
    rw [hlayout] at htrail
    obtain ⟨hiff, hok⟩ := exists_reproduced_and_printed_iff hparse hlayout
    have htwice := hiff.mpr ⟨rfl, by simpa [List.any_eq_true, Bool.and_eq_true] using hstarts⟩
    obtain ⟨doc, rfl⟩ := hok htwice
    exact ⟨t, doc, session, rfl, hlayout, htrail, htwice⟩

end Sample

end SourceLayout.Toy
