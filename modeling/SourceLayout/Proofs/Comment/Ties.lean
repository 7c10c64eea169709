import Mathlib.Data.List.SplitBy
import SourceLayout.Proofs.Comment.Assignment

/-! # Ties resolved at once

Comments between two nodes wait until the next pair of nodes comes up, while comments of other
kinds are attached in between. For a policy that leaves everything to the general rules this comes
to the same as looking at each comment by itself, and at each maximal run of waiting comments
between the same two nodes as a whole.
-/

namespace SourceLayout

namespace Assignment

variable {p : CommentPolicy} {t : Tree} {s : Assignment} {tie : Tie} {d : Neighbours}
  {c : CommentId} {position : LinePosition} {run : List Neighbours}

/-- Whether a comment could belong to the node before it as well as to the one after it. -/
def isTied (x : Neighbours × LinePosition) : Bool :=
  x.2 == .remaining && x.1.preceding.isSome && x.1.following.isSome

def samePair (d e : Neighbours) : Bool := d.preceding == e.preceding && d.following == e.following

theorem samePair_iff {d e : Neighbours} :
    samePair d e = true ↔ d.preceding = e.preceding ∧ d.following = e.following := by
  simp [samePair]

def tied (placed : List (Neighbours × LinePosition)) : List Neighbours :=
  (placed.filter isTied).map Prod.fst

/-- The comments that could belong to either side, in maximal runs between the same two nodes. -/
def tieRuns (placed : List (Neighbours × LinePosition)) : List (List Neighbours) :=
  (tied placed).splitBy samePair

/-- Where a comment goes that cannot belong to either side. -/
def eagerPlace (t : Tree) (d : Neighbours) (position : LinePosition) : Attachment :=
  let leads : Option Attachment := d.following.map (⟨·, .leading⟩)
  let trails : Option Attachment := d.preceding.map (⟨·, .trailing⟩)
  let dangles : Attachment := ⟨d.enclosing.getD t.root, .dangling⟩
  match position with
  | .ownLine => (leads <|> trails).getD dangles
  | .endOfLine | .remaining => (trails <|> leads).getD dangles

def gapBehind (t : Tree) (next : Nat) (cs : List CommentId) (i : Nat) : Text :=
  match cs[i]? with
  | some c =>
    t.source.slice (t.comment c).span.stop
      ((cs[i + 1]?.map fun c => (t.comment c).span.start).getD next)
  | none => []

/-- Nothing but gaps lies behind the comments from number `j` on. -/
def GapsFrom (t : Tree) (accepts : Text → Bool) (next : Nat) (cs : List CommentId) (j : Nat) :
    Prop :=
  ∀ i < cs.length, j ≤ i → accepts (gapBehind t next cs i) = true

instance (accepts : Text → Bool) (next : Nat) (cs : List CommentId) (j : Nat) :
    Decidable (GapsFrom t accepts next cs j) :=
  inferInstanceAs (Decidable (∀ i < cs.length, j ≤ i → accepts (gapBehind t next cs i) = true))

section Counting

variable {accepts : Text → Bool} {next : Nat} {cs : List CommentId}

theorem gapBehind_append_singleton {i : Nat} (h : i < cs.length) (c : CommentId) :
    gapBehind t next (cs ++ [c]) i = gapBehind t (t.comment c).span.start cs i := by
  unfold gapBehind
  rw [List.getElem?_append_left h]
  rcases Nat.lt_or_ge (i + 1) cs.length with hi | hi
  · rw [List.getElem?_append_left hi, List.getElem?_eq_getElem hi]
    rfl
  · have hlen : cs.length = i + 1 := Nat.le_antisymm hi h
    simp [← hlen]

theorem gapBehind_last (cs : List CommentId) (c : CommentId) :
    gapBehind t next (cs ++ [c]) cs.length = t.source.slice (t.comment c).span.stop next := by
  simp [gapBehind]

theorem gapsFrom_append_singleton {j : Nat} (hj : j ≤ cs.length) (c : CommentId) :
    GapsFrom t accepts next (cs ++ [c]) j ↔
      accepts (t.source.slice (t.comment c).span.stop next) = true ∧
        GapsFrom t accepts (t.comment c).span.start cs j := by
  constructor
  · intro h
    refine ⟨?_, fun i hi hji => ?_⟩
    · rw [← gapBehind_last cs]
      exact h cs.length (by simp) hj
    · rw [← gapBehind_append_singleton hi]
      exact h i (by simp; omega) hji
  · rintro ⟨hc, h⟩ i hi hji
    rcases Nat.lt_or_ge i cs.length with hlt | hge
    · rw [gapBehind_append_singleton hlt]
      exact h i hlt hji
    · obtain rfl : i = cs.length := by simp at hi; omega
      rwa [gapBehind_last]

theorem countLeading_le (accepts : Text → Bool) (next : Nat) (cs : List CommentId) :
    countLeading t accepts next cs ≤ cs.length := by
  induction cs generalizing next with
  | nil => rfl
  | cons c earlier ih =>
    rw [countLeading]
    split
    · exact Nat.succ_le_succ (ih _)
    · exact Nat.zero_le _

theorem length_sub_countLeading_le_iff {j : Nat} (hj : j < cs.length) :
    cs.length - countLeading t accepts next cs.reverse ≤ j ↔ GapsFrom t accepts next cs j := by
  induction cs using List.reverseRecOn generalizing next j with
  | nil => simp at hj
  | append_singleton cs c ih =>
    have hle := countLeading_le (t := t) accepts (t.comment c).span.start cs.reverse
    rw [List.length_append, List.length_singleton, Nat.lt_succ_iff] at hj
    rw [gapsFrom_append_singleton hj, List.reverse_append, List.reverse_singleton,
      List.singleton_append, countLeading]
    simp only [List.length_append, List.length_singleton, List.length_reverse] at hle ⊢
    split
    · rename_i hc
      rcases Nat.lt_or_ge j cs.length with hlt | hge
      · rw [← ih hlt]
        simp [hc]
      · obtain rfl : j = cs.length := Nat.le_antisymm hj hge
        have hall : GapsFrom t accepts (t.comment c).span.start cs cs.length := by
          intro i hi hji
          omega
        simp only [hc, hall, and_self, iff_true]
        omega
    · rename_i hc
      refine ⟨fun h => ?_, fun h => absurd h.1 hc⟩
      rw [Nat.sub_zero] at h
      omega

end Counting

variable (p t) in
/-- The members of a run lead the following node from the first one on behind which there are only
gaps, and those before it trail the preceding node. -/
def ResolvedRun (a : Attachments) (run : List Neighbours) : Prop :=
  ∃ first preceding following, run.head? = some first ∧
    (∀ d ∈ run, d.preceding = some preceding ∧ d.following = some following) ∧
    ∀ j d, run[j]? = some d → a.get? d.comment = some
      (if GapsFrom t ((p.gap t first.enclosing).getD defaultGap) (t.node following).span.start
          (run.map Neighbours.comment) j
        then ⟨following, .leading⟩ else ⟨preceding, .trailing⟩)

/-- A tie waits with the members of a run. -/
structure Gathers (tie : Tie) (run : List Neighbours) : Prop where
  members : tie.members = (run.map Neighbours.comment).reverse
  pair : ∀ d ∈ run, d.preceding = some tie.preceding ∧ d.following = some tie.following
  first : run.head?.map Neighbours.enclosing = some tie.enclosing

theorem Gathers.ne_nil (h : Gathers tie run) : run ≠ [] := by
  rintro rfl
  simpa using h.first

theorem Gathers.isChain (h : Gathers tie run) : run.IsChain fun d e => samePair d e = true := by
  refine List.Pairwise.isChain (List.pairwise_of_forall_mem_list fun d hd e he => ?_)
  rw [samePair_iff, (h.pair d hd).1, (h.pair d hd).2, (h.pair e he).1, (h.pair e he).2]
  exact ⟨rfl, rfl⟩

theorem Gathers.append_singleton (h : Gathers tie run) (hp : d.preceding = some tie.preceding)
    (hf : d.following = some tie.following) :
    Gathers { tie with members := d.comment :: tie.members } (run ++ [d]) where
  members := by simp [h.members]
  pair e he := by
    rcases List.mem_append.mp he with he | he
    · exact h.pair e he
    · rw [List.mem_singleton.mp he]
      exact ⟨hp, hf⟩
  first := by
    rw [List.head?_append_of_ne_nil _ h.ne_nil]
    exact h.first

theorem gathers_singleton {preceding following : NodeId} (hp : d.preceding = some preceding)
    (hf : d.following = some following) :
    Gathers { preceding, following, enclosing := d.enclosing, members := [d.comment] } [d] where
  members := rfl
  pair e he := by
    rw [List.mem_singleton.mp he]
    exact ⟨hp, hf⟩
  first := rfl

theorem mem_drop_iff_of_nodup {cs : List CommentId} (hn : cs.Nodup) {j k : Nat}
    (hj : cs[j]? = some c) : c ∈ cs.drop k ↔ k ≤ j := by
  rw [List.mem_iff_getElem?]
  simp only [List.getElem?_drop]
  constructor
  · rintro ⟨i, hi⟩
    have hlt : j < cs.length := (List.getElem?_eq_some_iff.mp hj).1
    have := (List.getElem?_inj hlt hn).mp (hj.trans hi.symm)
    omega
  · intro hk
    exact ⟨j - k, by rw [Nat.add_sub_cancel' hk]; exact hj⟩

/-- Resolving a tie places the run it has gathered. -/
theorem Gathers.resolvedRun (h : Gathers tie run) (hn : (run.map Neighbours.comment).Nodup)
    (s : Assignment) : ResolvedRun p t (resolve p t tie s).attachments run := by
  obtain ⟨first, hfirst, henclosing⟩ := Option.map_eq_some_iff.mp h.first
  refine ⟨first, tie.preceding, tie.following, hfirst, h.pair, fun j d hd => ?_⟩
  have hc : (run.map Neighbours.comment)[j]? = some d.comment := by simp [hd]
  have hj : j < (run.map Neighbours.comment).length := (List.getElem?_eq_some_iff.mp hc).1
  have hleads : d.comment ∈ leaders p t tie ↔ GapsFrom t (gapOf p t tie)
      (t.node tie.following).span.start (run.map Neighbours.comment) j := by
    rw [← length_sub_countLeading_le_iff hj, leaders, h.members, List.take_reverse,
      List.mem_reverse, mem_drop_iff_of_nodup hn hc]
  have htrails : d.comment ∈ leaders p t tie ∨ d.comment ∈ trailers p t tie := by
    rw [← List.mem_append, leaders_append_trailers, h.members, List.mem_reverse]
    exact List.mem_of_getElem? hc
  have hgap : gapOf p t tie = (p.gap t first.enclosing).getD defaultGap := by
    rw [gapOf, henclosing]
  rw [get?_resolve, ← hgap]
  by_cases hlead : d.comment ∈ leaders p t tie
  · rw [if_pos hlead, if_pos (hleads.mp hlead)]
  · rw [if_neg hlead, if_pos (htrails.resolve_left hlead), if_neg (fun hg => hlead (hleads.mpr hg))]

theorem get?_resolve_of_notMem (h : c ∉ tie.members) (s : Assignment) :
    (resolve p t tie s).attachments.get? c = s.attachments.get? c := by
  rw [← leaders_append_trailers (p := p) (t := t), List.mem_append, not_or] at h
  rw [get?_resolve, if_neg h.1, if_neg h.2]

/-- The policy gives no comment a place of its own and attaches none to the root. -/
structure Inert (p : CommentPolicy) : Prop where
  places : ∀ s, (p.place s).places = []
  settled : ∀ s, (p.place s).settled = false
  outer : p.outerToRoot = false

theorem Inert.place_eq (hp : Inert p) (s : Assignment) (position : LinePosition) (d : Neighbours)
    (isLast : Bool) :
    s.place p t position d isLast =
      (s.note (.placing position d isLast)).placeByRule p t position d := by
  simp [Assignment.place, placeByPolicy, hp.places, hp.settled, hp.outer]

theorem placeByRule_of_not_tied (h : isTied (d, position) = false) (s : Assignment) :
    s.placeByRule p t position d =
      s.attach d.comment (eagerPlace t d position).owner (eagerPlace t d position).placement := by
  obtain ⟨c, enclosing, preceding, following⟩ := d
  cases position <;> cases preceding <;> cases following <;>
    first | rfl | simp [isTied] at h

theorem placeByRule_of_tied (h : isTied (d, position) = true) (s : Assignment) :
    ∃ preceding following, d.preceding = some preceding ∧ d.following = some following ∧
      s.placeByRule p t position d = s.defer p t d preceding following := by
  obtain ⟨c, enclosing, preceding, following⟩ := d
  cases position <;> cases preceding <;> cases following <;>
    first | exact ⟨_, _, rfl, rfl, rfl⟩ | simp [isTied] at h

/-- What waits in an assignment is a run of tied comments. -/
def Pending (s : Assignment) (run : List Neighbours) : Prop :=
  match s.tie with
  | none => run = []
  | some tie => Gathers tie run

theorem pending_of_none (h : s.tie = none) : Pending s run ↔ run = [] := by simp [Pending, h]

theorem pending_of_some (h : s.tie = some tie) : Pending s run ↔ Gathers tie run := by
  simp [Pending, h]

theorem Gathers.splitBy_append_cons (h : Gathers tie run)
    (hd : ¬ (d.preceding = some tie.preceding ∧ d.following = some tie.following))
    (later : List Neighbours) :
    (run ++ d :: later).splitBy samePair = run :: (d :: later).splitBy samePair := by
  have hlast : ∀ e ∈ run.getLast?, samePair e d = false := by
    intro e he
    have hpair := h.pair e (List.mem_of_getLast? he)
    rw [Bool.eq_false_iff, ne_eq, samePair_iff, hpair.1, hpair.2]
    exact fun heq => hd ⟨heq.1.symm, heq.2.symm⟩
  rw [List.splitBy_append_cons _ hlast, List.splitBy_of_isChain h.ne_nil h.isChain,
    List.singleton_append]

/-- What a whole run of the assignment leaves behind, given the comments that wait at its start. -/
structure Settles (p : CommentPolicy) (t : Tree) (run : List Neighbours)
    (placed : List (Neighbours × LinePosition)) (a b : Attachments) : Prop where
  untied : ∀ x ∈ placed, isTied x = false → b.get? x.1.comment = some (eagerPlace t x.1 x.2)
  runs : ∀ r ∈ (run ++ tied placed).splitBy samePair, ResolvedRun p t b r
  others : ∀ c, c ∉ run.map Neighbours.comment → c ∉ placed.map (·.1.comment) →
    b.get? c = a.get? c

theorem ResolvedRun.congr {a b : Attachments} (h : ResolvedRun p t a run)
    (hab : ∀ d ∈ run, b.get? d.comment = a.get? d.comment) : ResolvedRun p t b run := by
  obtain ⟨first, preceding, following, hfirst, hpair, hget⟩ := h
  refine ⟨first, preceding, following, hfirst, hpair, fun j d hd => ?_⟩
  rw [hab d (List.mem_of_getElem? hd)]
  exact hget j d hd

theorem finish_settles (hs : Pending s run) (hn : (run.map Neighbours.comment).Nodup) :
    Settles p t run [] s.attachments (s.finish p t).attachments := by
  rw [Assignment.finish]
  split
  · rename_i tie htie
    have hg := (pending_of_some htie).mp hs
    refine ⟨by simp, fun r hr => ?_, fun c hc _ => get?_resolve_of_notMem ?_ _⟩
    · obtain rfl : r = run := by
        simpa [tied, List.splitBy_of_isChain hg.ne_nil hg.isChain] using hr
      exact hg.resolvedRun hn _
    · rwa [hg.members, List.mem_reverse]
  · rename_i htie
    obtain rfl := (pending_of_none htie).mp hs
    exact ⟨by simp, by simp [tied], fun _ _ _ => rfl⟩

theorem Settles.cons_untied {placed : List (Neighbours × LinePosition)} {a b : Attachments}
    (hx : isTied (d, position) = false)
    (h : Settles p t run placed
      (a.add d.comment (eagerPlace t d position).owner (eagerPlace t d position).placement) b)
    (hrun : d.comment ∉ run.map Neighbours.comment)
    (hplaced : d.comment ∉ placed.map (·.1.comment)) :
    Settles p t run ((d, position) :: placed) a b where
  untied x hmem hx' := by
    rcases List.mem_cons.mp hmem with rfl | hmem
    · rw [h.others _ hrun hplaced, Attachments.get?_add_self]
    · exact h.untied x hmem hx'
  runs := by simpa [tied, hx] using h.runs
  others c hc hc' := by
    rw [List.map_cons, List.mem_cons, not_or] at hc'
    rw [h.others c hc hc'.2, Attachments.get?_add_of_ne hc'.1]

theorem Settles.cons_tied {placed : List (Neighbours × LinePosition)} {a b : Attachments}
    (hx : isTied (d, position) = true) (h : Settles p t (run ++ [d]) placed a b) :
    Settles p t run ((d, position) :: placed) a b where
  untied x hmem hx' := by
    rcases List.mem_cons.mp hmem with rfl | hmem
    · simp [hx] at hx'
    · exact h.untied x hmem hx'
  runs := by simpa [tied, hx] using h.runs
  others c hc hc' := by
    rw [List.map_cons, List.mem_cons, not_or] at hc'
    have hrun : c ∉ (run ++ [d]).map Neighbours.comment := by
      rw [List.map_append, List.mem_append, not_or]
      exact ⟨hc, by simpa using hc'.1⟩
    exact h.others c hrun hc'.2

theorem Settles.cons_fresh {placed : List (Neighbours × LinePosition)} {b : Attachments}
    (hx : isTied (d, position) = true) (hg : Gathers tie run)
    (hd : ¬ (d.preceding = some tie.preceding ∧ d.following = some tie.following))
    (hn : (run.map Neighbours.comment ++ ((d, position) :: placed).map (·.1.comment)).Nodup)
    (h : Settles p t [d] placed (resolve p t tie s).attachments b) :
    Settles p t run ((d, position) :: placed) s.attachments b where
  untied x hmem hx' := by
    rcases List.mem_cons.mp hmem with rfl | hmem
    · simp [hx] at hx'
    · exact h.untied x hmem hx'
  runs r hr := by
    have hsplit := hg.splitBy_append_cons hd (tied placed)
    rw [List.nodup_append] at hn
    simp only [tied, List.filter_cons_of_pos hx, List.map_cons] at hr hsplit
    rw [hsplit, List.mem_cons] at hr
    rcases hr with rfl | hr
    · apply (hg.resolvedRun hn.1 s).congr
      intro e he
      have hne := hn.2.2 e.comment (List.mem_map_of_mem he)
      refine h.others _ ?_ fun hmem => hne _ (List.mem_cons_of_mem _ hmem) rfl
      simpa using hne d.comment (by simp)
    · exact h.runs r hr
  others c hc hc' := by
    rw [List.map_cons, List.mem_cons, not_or] at hc'
    rw [h.others c (by simpa using hc'.1) hc'.2, get?_resolve_of_notMem]
    rwa [hg.members, List.mem_reverse]

/-- A tied comment goes on with the run that waits, or has it resolved and starts another. -/
theorem Pending.defer {preceding following : NodeId} (hs : Pending s run)
    (hp : d.preceding = some preceding) (hf : d.following = some following) :
    (Pending (s.defer p t d preceding following) (run ++ [d]) ∧
      (s.defer p t d preceding following).attachments = s.attachments) ∨
    ∃ tie, Gathers tie run ∧
      ¬ (d.preceding = some tie.preceding ∧ d.following = some tie.following) ∧
      Pending (s.defer p t d preceding following) [d] ∧
      (s.defer p t d preceding following).attachments = (resolve p t tie s).attachments := by
  rw [Assignment.defer]
  split
  · rename_i htie
    obtain rfl := (pending_of_none htie).mp hs
    exact .inl ⟨(pending_of_some rfl).mpr (gathers_singleton hp hf), rfl⟩
  · rename_i tie htie
    have hg := (pending_of_some htie).mp hs
    split
    · rename_i hsame
      rw [Bool.and_eq_true, beq_iff_eq, beq_iff_eq] at hsame
      refine .inl ⟨(pending_of_some rfl).mpr (hg.append_singleton ?_ ?_), rfl⟩
      · rw [hsame.1, hp]
      · rw [hsame.2, hf]
    · rename_i hsame
      refine .inr ⟨tie, hg, ?_, (pending_of_some (tie_resolve.trans rfl)).mpr
        (gathers_singleton hp hf), ?_⟩
      · rintro ⟨hp', hf'⟩
        rw [hp] at hp'
        rw [hf] at hf'
        simp [Option.some.inj hp', Option.some.inj hf'] at hsame
      · rw [resolve_eq, resolve_eq]

theorem placeAll_settles (hp : Inert p) {placed : List (Neighbours × LinePosition)}
    (hs : Pending s run)
    (hn : (run.map Neighbours.comment ++ placed.map (·.1.comment)).Nodup) :
    Settles p t run placed s.attachments ((placeAll p t s placed).finish p t).attachments := by
  induction placed generalizing s run with
  | nil => exact finish_settles hs (by simpa using hn)
  | cons x placed ih =>
    obtain ⟨d, position⟩ := x
    have hparts := List.nodup_append.mp hn
    have hrun : d.comment ∉ run.map Neighbours.comment :=
      fun hmem => hparts.2.2 _ hmem _ List.mem_cons_self rfl
    have hnoted : Pending (s.note (.placing position d placed.isEmpty)) run := hs
    rw [placeAll, hp.place_eq]
    cases hx : isTied (d, position) with
    | false =>
      rw [placeByRule_of_not_tied hx]
      have hlater : (run.map Neighbours.comment ++ placed.map (·.1.comment)).Nodup :=
        hn.sublist ((List.Sublist.refl _).append (List.sublist_cons_self ..))
      exact .cons_untied hx (ih (s := (s.note _).attach ..) hs hlater) hrun
        (List.nodup_cons.mp hparts.2.1).1
    | true =>
      obtain ⟨preceding, following, hpre, hfol, heq⟩ := placeByRule_of_tied (p := p) (t := t) hx
        (s.note (.placing position d placed.isEmpty))
      rw [heq]
      rcases hnoted.defer (p := p) (t := t) hpre hfol with ⟨hpend, hatt⟩ | ⟨tie, hg, hd, hpend, hatt⟩
      · have hlonger := ih hpend (by simpa using hn)
        rw [hatt] at hlonger
        exact hlonger.cons_tied hx
      · have hown := ih hpend hparts.2.1
        rw [hatt] at hown
        exact Settles.cons_fresh (s := s.note _) hx hg hd hn hown

theorem settles_outcome {all : List Neighbours} (hp : Inert p)
    (hall : p.allNeighbours t = .ok all) :
    Settles p t [] (all.zip (linePositions t all)) {} (outcome p t all).attachments := by
  have hnodup : ((all.zip (linePositions t all)).map (·.1.comment)).Nodup := by
    rw [map_comment_zip_linePositions hall]
    exact List.nodup_range
  exact placeAll_settles (s := {}) hp ((pending_of_none rfl).mpr rfl) hnodup

variable (t) in
/-- A comment leads its following node, trails its preceding node, or has neither and dangles in
the node around it. -/
inductive Beside (d : Neighbours) : Attachment → Prop where
  | leads {n : NodeId} (h : d.following = some n) : Beside d ⟨n, .leading⟩
  | trails {n : NodeId} (h : d.preceding = some n) : Beside d ⟨n, .trailing⟩
  | dangles (hp : d.preceding = none) (hf : d.following = none) :
    Beside d ⟨d.enclosing.getD t.root, .dangling⟩

theorem beside_eagerPlace (d : Neighbours) (position : LinePosition) :
    Beside t d (eagerPlace t d position) := by
  unfold eagerPlace
  cases hp : d.preceding with
  | none =>
    cases hf : d.following with
    | none => cases position <;> exact .dangles hp hf
    | some n => cases position <;> exact .leads hf
  | some m =>
    cases hf : d.following with
    | none => cases position <;> exact .trails hp
    | some n =>
      cases position with
      | ownLine => exact .leads hf
      | endOfLine | remaining => exact .trails hp

theorem beside_outcome {all : List Neighbours} (hp : Inert p) (hall : p.allNeighbours t = .ok all)
    (hd : d ∈ all) :
    ∃ x, (outcome p t all).attachments.get? d.comment = some x ∧ Beside t d x := by
  have hsettles := settles_outcome hp hall
  rw [← map_fst_zip_linePositions (t := t) all, List.mem_map] at hd
  obtain ⟨x, hx, rfl⟩ := hd
  cases htied : isTied x with
  | false => exact ⟨_, hsettles.untied x hx htied, beside_eagerPlace x.1 x.2⟩
  | true =>
    have hmem : x.1 ∈ tied (all.zip (linePositions t all)) :=
      List.mem_map_of_mem (List.mem_filter.mpr ⟨hx, htied⟩)
    rw [← List.flatten_splitBy samePair (tied _), List.mem_flatten] at hmem
    obtain ⟨run, hrun, hmem⟩ := hmem
    obtain ⟨first, preceding, following, -, hpair, hget⟩ := hsettles.runs run hrun
    obtain ⟨j, hj⟩ := List.getElem?_of_mem hmem
    refine ⟨_, hget j x.1 hj, ?_⟩
    split
    · exact .leads (hpair x.1 hmem).2
    · exact .trails (hpair x.1 hmem).1

end Assignment

/-- For a policy that leaves every comment to the general rules, a comment that cannot belong to
either side goes where its own neighbours and position say, and the members of a maximal run of
comments between the same two nodes lead the following node from the first on behind which there
are only gaps. -/
theorem assignComments_eq_eager {p : CommentPolicy} {t : Tree} {all : List Neighbours}
    (hall : p.allNeighbours t = .ok all)
    (hhooks : ∀ s, (p.place s).places = [] ∧ (p.place s).settled = false)
    (houter : p.outerToRoot = false) :
    ∃ a events, assignComments p t = .ok (a, events) ∧
      (∀ x ∈ all.zip (Assignment.linePositions t all), Assignment.isTied x = false →
        a.get? x.1.comment = some (Assignment.eagerPlace t x.1 x.2)) ∧
      ∀ run ∈ Assignment.tieRuns (all.zip (Assignment.linePositions t all)),
        Assignment.ResolvedRun p t a run := by
  have hinert : Assignment.Inert p :=
    ⟨fun s => (hhooks s).1, fun s => (hhooks s).2, houter⟩
  have hsettles := Assignment.settles_outcome hinert hall
  exact ⟨_, _, Assignment.assignComments_eq hall, hsettles.untied, hsettles.runs⟩

/-- Two names with four comments between them and one behind them. The first and the last of the four
wait in one tie, and meanwhile the other two, which end a line and have one of their own, are
attached. -/
def partedNames : Tree where
  source := .ofText "x /*a*/ , // b\n/*c*/\n, /*d*/ y /*e*/".toList
  nodes := #[{ kind := "Name", span := ⟨0, 1⟩ }, { kind := "Name", span := ⟨29, 30⟩ },
    { kind := "Names", span := ⟨0, 36⟩, fields := [("all", .list [.node 0, .node 1])] }]
  comments := #[⟨⟨2, 7⟩, .block, "/*a*/".toList⟩, ⟨⟨10, 14⟩, .line, "// b".toList⟩,
    ⟨⟨15, 20⟩, .block, "/*c*/".toList⟩, ⟨⟨23, 28⟩, .block, "/*d*/".toList⟩,
    ⟨⟨31, 36⟩, .block, "/*e*/".toList⟩]
  root := 2

theorem assignComments_eq_eager_partedNames :
    ∃ all a events, CommentPolicy.allNeighbours {} partedNames = .ok all ∧
      Assignment.linePositions partedNames all =
        [.remaining, .endOfLine, .ownLine, .remaining, .remaining] ∧
      assignComments {} partedNames = .ok (a, events) ∧
      a.get? 0 = some ⟨0, .trailing⟩ ∧ a.get? 1 = some ⟨0, .trailing⟩ ∧
      a.get? 2 = some ⟨1, .leading⟩ ∧ a.get? 3 = some ⟨1, .leading⟩ ∧
      a.get? 4 = some ⟨1, .trailing⟩ := by
  let between (c : CommentId) : Neighbours := ⟨c, none, some 0, some 1⟩
  let behind : Neighbours := ⟨4, none, some 1, none⟩
  have hall : CommentPolicy.allNeighbours {} partedNames =
      .ok [between 0, between 1, between 2, between 3, behind] := by
    decide +kernel
  obtain ⟨a, events, h, huntied, hruns⟩ :=
    assignComments_eq_eager hall (fun _ => ⟨rfl, rfl⟩) rfl
  obtain ⟨d, preceding, following, hd, hpair, hget⟩ :=
    hruns [between 0, between 3] (by decide +kernel)
  obtain rfl : between 0 = d := Option.some.inj hd
  obtain ⟨hp, hf⟩ := hpair (between 0) List.mem_cons_self
  obtain rfl : 0 = preceding := Option.some.inj hp
  obtain rfl : 1 = following := Option.some.inj hf
  refine ⟨_, a, events, hall, by decide +kernel, h, (hget 0 (between 0) rfl).trans ?_, ?_, ?_,
    (hget 1 (between 3) rfl).trans ?_, ?_⟩
  · decide +kernel
  · exact huntied (between 1, .endOfLine) (by decide +kernel) rfl
  · exact huntied (between 2, .ownLine) (by decide +kernel) rfl
  · decide +kernel
  · exact huntied (behind, .remaining) (by decide +kernel) rfl

end SourceLayout
