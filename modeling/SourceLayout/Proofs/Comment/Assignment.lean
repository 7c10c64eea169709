import SourceLayout.Comment.Assignment
import SourceLayout.Proofs.Comment.Attachments
import SourceLayout.Proofs.Comment.Neighbours

/-! # Runs of the assignment

Whatever a policy answers, placing the comments of a tree one after the other keeps the two views
of the attachments in agreement and the comments of every node in order. Comments that wait in a
tie are attached late, but then both nodes of the tie are put in order again. A comment stays
unattached only if the policy settled it without a place.
-/

namespace SourceLayout

namespace Assignment

variable {p : CommentPolicy} {t : Tree} {s : Assignment} {tie : Tie} {d : Neighbours}
  {b c : CommentId} {j k : Nat} {owner : NodeId} {placement : Placement}

@[simp] theorem attachments_attach :
    (s.attach c owner placement).attachments = s.attachments.add c owner placement := rfl

@[simp] theorem events_attach : (s.attach c owner placement).events = s.events := rfl

theorem foldl_attach (s : Assignment) (cs : List CommentId) (owner : NodeId)
    (placement : Placement) :
    cs.foldl (·.attach · owner placement) s =
      { s with attachments := s.attachments.addAll cs owner placement } := by
  induction cs generalizing s with
  | nil => rfl
  | cons c cs ih => rw [List.foldl_cons, ih]; rfl

def waiting (s : Assignment) : List CommentId := (s.tie.map Tie.members).getD []

theorem waiting_some (h : s.tie = some tie) : s.waiting = tie.members := by simp [waiting, h]

theorem waiting_none (h : s.tie = none) : s.waiting = [] := by simp [waiting, h]

variable (p t) in
def gapOf (tie : Tie) : Text → Bool := (p.gap t tie.enclosing).getD defaultGap

variable (p t) in
def leaders (tie : Tie) : List CommentId :=
  tie.members.take (countLeading t (gapOf p t tie) (t.node tie.following).span.start tie.members)

variable (p t) in
def trailers (tie : Tie) : List CommentId :=
  tie.members.drop (countLeading t (gapOf p t tie) (t.node tie.following).span.start tie.members)

theorem leaders_append_trailers (tie : Tie) : leaders p t tie ++ trailers p t tie = tie.members :=
  List.take_append_drop ..

theorem resolve_eq (tie : Tie) (s : Assignment) :
    resolve p t tie s =
      { s with
        attachments :=
          (((s.attachments.addAll (trailers p t tie).reverse tie.preceding .trailing).addAll
            (leaders p t tie).reverse tie.following .leading).reorder tie.preceding).reorder
              tie.following
        events := .gap tie.enclosing :: s.events } := by
  simp only [resolve, foldl_attach]
  rfl

@[simp] theorem tie_resolve : (resolve p t tie s).tie = s.tie := by rw [resolve_eq]

theorem get?_resolve (tie : Tie) (s : Assignment) (c : CommentId) :
    (resolve p t tie s).attachments.get? c =
      if c ∈ leaders p t tie then some ⟨tie.following, .leading⟩
      else if c ∈ trailers p t tie then some ⟨tie.preceding, .trailing⟩
      else s.attachments.get? c := by
  simp [resolve_eq, Attachments.get?_addAll]

/-- The comments below `k` may be attached or wait in a tie, and every list is in order. -/
structure Sound (k : Nat) (s : Assignment) : Prop where
  coherent : s.attachments.Coherent
  inOrder : ∀ n, s.attachments.InOrder n
  attached_lt : ∀ c, s.attachments.get? c ≠ none → c < k
  waiting_lt : ∀ c ∈ s.waiting, c < k

theorem Sound.init : Sound 0 {} where
  coherent := Attachments.coherent_empty
  inOrder _ := Attachments.inOrder_empty
  attached_lt c h := by simp at h
  waiting_lt c h := by simp [waiting] at h

theorem Sound.mono (h : Sound j s) (hjk : j ≤ k) : Sound k s where
  coherent := h.coherent
  inOrder := h.inOrder
  attached_lt c hc := Nat.lt_of_lt_of_le (h.attached_lt c hc) hjk
  waiting_lt c hc := Nat.lt_of_lt_of_le (h.waiting_lt c hc) hjk

theorem Sound.attach (h : Sound (c + 1) s) (owner : NodeId) (placement : Placement) :
    Sound (c + 1) (s.attach c owner placement) where
  coherent := h.coherent.add c owner placement
  inOrder n := by
    apply h.coherent.inOrder_add (h.inOrder n)
    intro b hb
    obtain ⟨placement, hp⟩ := (h.coherent n b).mp hb
    exact Nat.le_of_lt_succ (h.attached_lt b (by simp [hp]))
  attached_lt b hb := by
    by_cases hbc : b = c
    · exact hbc ▸ Nat.lt_succ_self c
    · rw [attachments_attach, Attachments.get?_add_of_ne hbc] at hb
      exact h.attached_lt b hb
  waiting_lt := h.waiting_lt

/-- Resolving a tie puts its comments between the others of its two nodes. -/
theorem Sound.resolve (h : Sound k s) (ht : ∀ c ∈ tie.members, c < k) :
    Sound k (resolve p t tie s) := by
  have htrailing := h.coherent.addAll (trailers p t tie).reverse tie.preceding .trailing
  have hleading := htrailing.addAll (leaders p t tie).reverse tie.following .leading
  have hnodup : ∀ n, (((s.attachments.addAll (trailers p t tie).reverse tie.preceding
      .trailing).addAll (leaders p t tie).reverse tie.following .leading).commentsOf n).Nodup :=
    fun n => htrailing.nodup_addAll _ (h.coherent.nodup_addAll _ (h.inOrder n).nodup)
  constructor
  case coherent =>
    rw [resolve_eq]
    exact (hleading.reorder _).reorder _
  case inOrder =>
    intro n
    rw [resolve_eq]
    by_cases hn : n = tie.following
    · subst hn
      apply Attachments.inOrder_reorder_self
      rw [Attachments.commentsOf_reorder]
      split
      · exact (List.perm_insertionSort _ _).nodup_iff.mpr (hnodup _)
      · exact hnodup _
    · refine Attachments.InOrder.reorder ?_ _
      by_cases hm : n = tie.preceding
      · subst hm
        exact Attachments.inOrder_reorder_self (hnodup _)
      · exact (htrailing.inOrder_addAll_of_ne _
          (h.coherent.inOrder_addAll_of_ne _ (h.inOrder n) hm) hn).reorder _
  case attached_lt =>
    intro c hc
    have hmem : c ∈ leaders p t tie ∨ c ∈ trailers p t tie ↔ c ∈ tie.members := by
      rw [← List.mem_append, leaders_append_trailers]
    rw [get?_resolve] at hc
    by_cases hm : c ∈ tie.members
    · exact ht c hm
    · rw [← hmem, not_or] at hm
      rw [if_neg hm.1, if_neg hm.2] at hc
      exact h.attached_lt c hc
  case waiting_lt =>
    intro c hc
    rw [waiting, tie_resolve] at hc
    exact h.waiting_lt c hc

theorem Sound.withTie (h : Sound k s) {tie' : Option Tie}
    (ht : ∀ tie, tie' = some tie → ∀ c ∈ tie.members, c < k) : Sound k { s with tie := tie' } where
  coherent := h.coherent
  inOrder := h.inOrder
  attached_lt := h.attached_lt
  waiting_lt c hc := by
    cases tie' with
    | none => simp [waiting] at hc
    | some tie => exact ht tie rfl c (by simpa [waiting] using hc)

theorem Sound.defer (h : Sound (d.comment + 1) s) (preceding following : NodeId) :
    Sound (d.comment + 1) (s.defer p t d preceding following) := by
  have hfresh : ∀ c ∈ [d.comment], c < d.comment + 1 := by simp
  rw [Assignment.defer]
  split
  · apply h.withTie
    rintro _ ⟨rfl⟩ c hc
    exact hfresh c hc
  · rename_i tie htie
    have hold : ∀ c ∈ tie.members, c < d.comment + 1 := by
      rw [← waiting_some htie]
      exact h.waiting_lt
    split
    · apply h.withTie
      rintro _ ⟨rfl⟩ c hc
      rcases List.mem_cons.mp hc with rfl | hc
      · exact Nat.lt_succ_self _
      · exact hold c hc
    · refine Sound.resolve (h.withTie ?_) hold
      rintro _ ⟨rfl⟩ c hc
      exact hfresh c hc

theorem Sound.placeByRule (h : Sound (d.comment + 1) s) (position : LinePosition) :
    Sound (d.comment + 1) (s.placeByRule p t position d) := by
  unfold Assignment.placeByRule
  split
  case h_5 => exact h.defer _ _
  all_goals exact h.attach _ _

theorem Sound.places (h : Sound (c + 1) s) (places : List (Placement × NodeId)) :
    Sound (c + 1)
      (places.foldl (fun s (placement, owner) => s.attach c owner placement) s) := by
  induction places generalizing s with
  | nil => exact h
  | cons place places ih => exact ih (h.attach _ _)

theorem Sound.place (h : Sound d.comment s) (position : LinePosition) (isLast : Bool) :
    Sound (d.comment + 1) (s.place p t position d isLast) := by
  have hs := h.mono (Nat.le_succ d.comment)
  have hnoted : Sound (d.comment + 1) (s.note (.placing position d isLast)) :=
    ⟨hs.coherent, hs.inOrder, hs.attached_lt, hs.waiting_lt⟩
  simp only [Assignment.place, placeByPolicy]
  split
  · exact hs.attach _ _
  split
  · exact hs.attach _ _
  split
  · exact hnoted.places _
  · exact (hnoted.places _).placeByRule position

variable (p t) in
/-- The policy was asked about a comment and settled it without giving it a place. -/
def Dismissed (events : List Event) (c : CommentId) : Prop :=
  ∃ position d isLast, Event.placing position d isLast ∈ events ∧ d.comment = c ∧
    (p.place { tree := t, neighbours := d, position, isLast }).settled = true ∧
    (p.place { tree := t, neighbours := d, position, isLast }).places = []

variable (p t) in
/-- A comment is attached, waits to be, or was dismissed. -/
def Accounted (s : Assignment) (c : CommentId) : Prop :=
  s.attachments.get? c ≠ none ∨ c ∈ s.waiting ∨ Dismissed p t s.events c

theorem Accounted.note (h : Accounted p t s b) (e : Event) : Accounted p t (s.note e) b := by
  rcases h with h | h | ⟨position, d, isLast, he, hd⟩
  · exact .inl h
  · exact .inr (.inl h)
  · exact .inr (.inr ⟨position, d, isLast, List.mem_cons_of_mem _ he, hd⟩)

theorem Accounted.attach (h : Accounted p t s b) (c : CommentId) (owner : NodeId)
    (placement : Placement) : Accounted p t (s.attach c owner placement) b := by
  rcases h with h | h | h
  · left
    rw [attachments_attach, Attachments.get?_add]
    split
    · exact Option.some_ne_none _
    · exact h
  · exact .inr (.inl h)
  · exact .inr (.inr h)

theorem accounted_attach_self : Accounted p t (s.attach c owner placement) c :=
  .inl (by simp)

theorem Accounted.resolve (h : Accounted p t s b) (ht : s.tie = some tie) (tie' : Option Tie) :
    Accounted p t (resolve p t tie { s with tie := tie' }) b := by
  rcases h with h | h | ⟨position, d, isLast, he, hd⟩
  · left
    rw [get?_resolve]
    split
    · exact Option.some_ne_none _
    split
    · exact Option.some_ne_none _
    · exact h
  · rw [waiting_some ht, ← leaders_append_trailers, List.mem_append] at h
    left
    rw [get?_resolve]
    split
    · exact Option.some_ne_none _
    · rw [if_pos (h.resolve_left ‹_›)]
      exact Option.some_ne_none _
  · refine .inr (.inr ⟨position, d, isLast, ?_, hd⟩)
    rw [resolve_eq]
    exact List.mem_cons_of_mem _ he

theorem Accounted.defer (h : Accounted p t s b) (preceding following : NodeId) :
    Accounted p t (s.defer p t d preceding following) b := by
  rw [Assignment.defer]
  split
  · rename_i htie
    rcases h with h | h | h
    · exact .inl h
    · simp [waiting_none htie] at h
    · exact .inr (.inr h)
  · rename_i tie htie
    split
    · rcases h with h | h | h
      · exact .inl h
      · refine .inr (.inl ?_)
        rw [waiting_some htie] at h
        rw [waiting_some rfl]
        exact List.mem_cons_of_mem _ h
      · exact .inr (.inr h)
    · exact h.resolve htie _

theorem accounted_defer_self (preceding following : NodeId) :
    Accounted p t (s.defer p t d preceding following) d.comment := by
  refine .inr (.inl ?_)
  rw [Assignment.defer]
  split
  · simp [waiting]
  · split <;> simp [waiting]

theorem Accounted.placeByRule (h : Accounted p t s b) (position : LinePosition) :
    Accounted p t (s.placeByRule p t position d) b := by
  unfold Assignment.placeByRule
  split
  case h_5 => exact h.defer _ _
  all_goals exact h.attach _ _ _

theorem accounted_placeByRule_self (position : LinePosition) :
    Accounted p t (s.placeByRule p t position d) d.comment := by
  unfold Assignment.placeByRule
  split
  case h_5 => exact accounted_defer_self _ _
  all_goals exact accounted_attach_self

theorem Accounted.places (h : Accounted p t s b) (c : CommentId)
    (places : List (Placement × NodeId)) :
    Accounted p t (places.foldl (fun s (placement, owner) => s.attach c owner placement) s) b := by
  induction places generalizing s with
  | nil => exact h
  | cons place places ih => exact ih (h.attach _ _ _)

theorem Accounted.place (h : Accounted p t s b) (position : LinePosition) (isLast : Bool) :
    Accounted p t (s.place p t position d isLast) b := by
  simp only [Assignment.place, placeByPolicy]
  split
  · exact h.attach _ _ _
  split
  · exact h.attach _ _ _
  split
  · exact (h.note _).places _ _
  · exact ((h.note _).places _ _).placeByRule position

theorem accounted_place_self (position : LinePosition) (isLast : Bool) :
    Accounted p t (s.place p t position d isLast) d.comment := by
  simp only [Assignment.place, placeByPolicy]
  split
  · exact accounted_attach_self
  split
  · exact accounted_attach_self
  split
  · rename_i hsettled
    cases hplaces : (p.place { tree := t, neighbours := d, position, isLast }).places with
    | nil =>
      exact .inr (.inr ⟨position, d, isLast, List.mem_cons_self, rfl, hsettled, hplaces⟩)
    | cons place places => exact accounted_attach_self.places _ _
  · exact accounted_placeByRule_self position

theorem placeAll_progress {l : List (Neighbours × LinePosition)}
    (hl : l.map (·.1.comment) = List.range' k l.length) (hs : Sound k s)
    (ha : ∀ c < k, Accounted p t s c) :
    Sound (k + l.length) (placeAll p t s l) ∧
      ∀ c < k + l.length, Accounted p t (placeAll p t s l) c := by
  induction l generalizing s k with
  | nil => exact ⟨hs, ha⟩
  | cons x later ih =>
    obtain ⟨d, position⟩ := x
    rw [List.map_cons, List.length_cons, List.range'_succ, List.cons.injEq] at hl
    obtain ⟨rfl, hlater⟩ := hl
    have hnext : ∀ c < d.comment + 1,
        Accounted p t (s.place p t position d later.isEmpty) c := by
      intro c hc
      rcases Nat.lt_succ_iff_lt_or_eq.mp hc with hc | rfl
      · exact (ha c hc).place position _
      · exact accounted_place_self position _
    have hrest := ih hlater (hs.place position later.isEmpty) hnext
    rwa [List.length_cons, Nat.add_comm later.length, ← Nat.add_assoc]

theorem Sound.finish (h : Sound k s) : Sound k (s.finish p t) := by
  rw [Assignment.finish]
  split
  · rename_i tie htie
    refine Sound.resolve (h.withTie fun _ hnone => by cases hnone) ?_
    rw [← waiting_some htie]
    exact h.waiting_lt
  · exact h

theorem Accounted.finish (h : Accounted p t s b) :
    (s.finish p t).attachments.get? b ≠ none ∨ Dismissed p t (s.finish p t).events b := by
  rw [Assignment.finish]
  split
  · rename_i tie htie
    rcases h.resolve htie none with h | h | h
    · exact .inl h
    · simp [waiting] at h
    · exact .inr h
  · rename_i htie
    rcases h with h | h | h
    · exact .inl h
    · simp [waiting_none htie] at h
    · exact .inr h

section Whole

variable {all : List Neighbours}

theorem length_runStarts (previous : Option (Neighbours × Nat)) (all : List Neighbours) :
    (runStarts t previous all).length = all.length := by
  induction all generalizing previous with
  | nil => rfl
  | cons d later ih => simp [runStarts, ih]

theorem length_runEnds (all : List Neighbours) : (runEnds t all).length = all.length := by
  induction all with
  | nil => rfl
  | cons d later ih =>
    unfold runEnds
    dsimp only
    split <;> simp [ih]

theorem length_linePositions (all : List Neighbours) :
    (linePositions t all).length = all.length := by
  simp [linePositions, length_runStarts, length_runEnds]

theorem map_fst_zip_linePositions (all : List Neighbours) :
    (all.zip (linePositions t all)).map Prod.fst = all :=
  List.map_fst_zip (Nat.le_of_eq (length_linePositions all).symm)

theorem map_comment_zip_linePositions (h : p.allNeighbours t = .ok all) :
    (all.zip (linePositions t all)).map (·.1.comment) = t.commentIds := by
  rw [← CommentPolicy.map_comment_allNeighbours h]
  conv_rhs => rw [← map_fst_zip_linePositions (t := t) all, List.map_map]
  rfl

variable (p t) in
/-- The assignment after all comments with the given neighbours have been placed. -/
def outcome (all : List Neighbours) : Assignment :=
  (placeAll p t {} (all.zip (linePositions t all))).finish p t

theorem assignComments_eq (h : p.allNeighbours t = .ok all) :
    assignComments p t =
      .ok ((outcome p t all).attachments, (outcome p t all).events.reverse) := by
  rw [assignComments, h]
  rfl

theorem exists_of_assignComments_eq {a : Attachments} {events : List Event}
    (h : assignComments p t = .ok (a, events)) :
    ∃ all, p.allNeighbours t = .ok all ∧ a = (outcome p t all).attachments ∧
      events = (outcome p t all).events.reverse := by
  obtain ⟨all, hall, -⟩ := bind_eq_ok_iff.mp h
  rw [assignComments_eq hall] at h
  injection h with h
  injection h with ha he
  exact ⟨all, hall, ha.symm, he.symm⟩

theorem sound_outcome (h : p.allNeighbours t = .ok all) :
    Sound t.comments.size (outcome p t all) ∧
      ∀ c ∈ t.commentIds, (outcome p t all).attachments.get? c ≠ none ∨
        Dismissed p t (outcome p t all).events c := by
  have hcomments := map_comment_zip_linePositions h
  have hlen : (all.zip (linePositions t all)).length = t.comments.size := by
    simpa [Tree.commentIds] using congrArg List.length hcomments
  have hrange : (all.zip (linePositions t all)).map (·.1.comment) =
      List.range' 0 (all.zip (linePositions t all)).length := by
    rw [hcomments, hlen, Tree.commentIds, List.range_eq_range']
  obtain ⟨hsound, haccounted⟩ := placeAll_progress (p := p) (t := t) hrange Sound.init (by simp)
  rw [Nat.zero_add, hlen] at hsound haccounted
  refine ⟨hsound.finish, fun c hc => ?_⟩
  exact (haccounted c (List.mem_range.mp hc)).finish

end Whole

def IsQuestion (e : Event) : Prop :=
  (∃ position d isLast, e = .placing position d isLast) ∨ ∃ enclosing, e = .gap enclosing

theorem events_foldl_attach {places : List (Placement × NodeId)} :
    (places.foldl (fun s (placement, owner) => s.attach c owner placement) s).events = s.events := by
  induction places generalizing s with
  | nil => rfl
  | cons x places ih => rw [List.foldl_cons, ih, events_attach]

theorem questions_resolve (h : ∀ e ∈ s.events, IsQuestion e) :
    ∀ e ∈ (resolve p t tie s).events, IsQuestion e := by
  rw [resolve_eq]
  exact List.forall_mem_cons.mpr ⟨.inr ⟨_, rfl⟩, h⟩

theorem questions_placeByRule {d : Neighbours} {position : LinePosition}
    (h : ∀ e ∈ s.events, IsQuestion e) :
    ∀ e ∈ (s.placeByRule p t position d).events, IsQuestion e := by
  have hdefer : ∀ preceding following,
      ∀ e ∈ (s.defer p t d preceding following).events, IsQuestion e := by
    intro preceding following
    unfold defer
    dsimp only
    split
    · exact h
    · split
      · exact h
      · exact questions_resolve h
  unfold placeByRule
  split
  case h_5 => exact hdefer _ _
  all_goals exact h

theorem questions_place {d : Neighbours} {position : LinePosition} {isLast : Bool}
    (h : ∀ e ∈ s.events, IsQuestion e) :
    ∀ e ∈ (s.place p t position d isLast).events, IsQuestion e := by
  unfold place
  dsimp only
  split
  · exact h
  · split
    · exact h
    · have hnote : ∀ e ∈ (s.note (.placing position d isLast)).events, IsQuestion e :=
        List.forall_mem_cons.mpr ⟨.inl ⟨_, _, _, rfl⟩, h⟩
      unfold placeByPolicy
      dsimp only
      split
      · rw [events_foldl_attach]
        exact hnote
      · exact questions_placeByRule (by rw [events_foldl_attach]; exact hnote)

theorem questions_placeAll {placed : List (Neighbours × LinePosition)}
    (h : ∀ e ∈ s.events, IsQuestion e) : ∀ e ∈ (placeAll p t s placed).events, IsQuestion e := by
  induction placed generalizing s with
  | nil => exact h
  | cons x placed ih => exact ih (questions_place h)

theorem questions_outcome {all : List Neighbours} :
    ∀ e ∈ (outcome p t all).events, IsQuestion e := by
  have hall : ∀ e ∈ (placeAll p t {} (all.zip (linePositions t all))).events, IsQuestion e :=
    questions_placeAll fun _ he => (nomatch he)
  unfold outcome finish
  split
  · exact questions_resolve hall
  · exact hall

theorem questions_of_assignComments {a : Attachments} {events : List Event}
    (h : assignComments p t = .ok (a, events)) : ∀ e ∈ events, IsQuestion e := by
  obtain ⟨all, -, -, rfl⟩ := exists_of_assignComments_eq h
  exact fun e he => questions_outcome e (List.mem_reverse.mp he)

end Assignment

/-- Whatever the policy answers, the two views of the attachments agree in the end, the comments
of every node are in the order of the source without repetition, and a comment is unattached only
if the policy settled it without giving it a place. -/
theorem assignComments_coherent {p : CommentPolicy} {t : Tree} {a : Attachments}
    {events : List Event} (h : assignComments p t = .ok (a, events)) :
    a.Coherent ∧ (∀ n, a.InOrder n) ∧
      ∀ c ∈ t.commentIds, a.get? c = none → Assignment.Dismissed p t events c := by
  obtain ⟨all, hall, rfl, rfl⟩ := Assignment.exists_of_assignComments_eq h
  obtain ⟨hsound, haccounted⟩ := Assignment.sound_outcome hall
  refine ⟨hsound.coherent, hsound.inOrder, fun c hc hnone => ?_⟩
  obtain ⟨position, d, isLast, he, hd⟩ := (haccounted c hc).resolve_left (fun hsome => hsome hnone)
  exact ⟨position, d, isLast, List.mem_reverse.mpr he, hd⟩

def twoNames : Tree where
  source := .ofText "x /*a*/ y /*b*/".toList
  nodes := #[{ kind := "Name", span := ⟨0, 1⟩ }, { kind := "Name", span := ⟨8, 9⟩ },
    { kind := "Names", span := ⟨0, 15⟩, fields := [("all", .list [.node 0, .node 1])] }]
  comments := #[⟨⟨2, 7⟩, .block, "/*a*/".toList⟩, ⟨⟨10, 15⟩, .block, "/*b*/".toList⟩]
  root := 2

def restlessPolicy : CommentPolicy where
  place s :=
    if s.isLast then { settled := true }
    else { places := [(.dangling, 2), (.trailing, 1)] }

theorem assignComments_coherent_restless :
    ∃ a events, assignComments restlessPolicy twoNames = .ok (a, events) ∧
      a.Coherent ∧ (∀ n, a.InOrder n) ∧
      ∀ c ∈ twoNames.commentIds, a.get? c = none →
        Assignment.Dismissed restlessPolicy twoNames events c := by
  have h : restlessPolicy.allNeighbours twoNames =
      .ok [⟨0, none, some 0, some 1⟩, ⟨1, none, some 1, none⟩] := by decide +kernel
  exact ⟨_, _, Assignment.assignComments_eq h,
    assignComments_coherent (Assignment.assignComments_eq h)⟩

end SourceLayout
