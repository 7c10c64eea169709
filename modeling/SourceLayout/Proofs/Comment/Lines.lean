import SourceLayout.Proofs.Comment.Ties

/-! # Comments on one line

Comments on one line with a common neighbour make a run. The first of a run says whether all of
them stand on a line of their own, and the last whether they end one. So two comments in a row
with the same neighbours on both sides and nothing between them but white space within a line are
placed alike.
-/

namespace SourceLayout

section Split

variable {α : Type} {r : α → α → Bool} {a b : α} {ys : List α}

theorem exists_mem_of_flatten_eq {runs : List (List α)} {xs : List α} (hne : [] ∉ runs)
    (hparted : runs.IsChain fun g g' => ∃ hg hg', r (g.getLast hg) (g'.head hg') = false)
    (hflat : runs.flatten = xs ++ a :: b :: ys) (hr : r a b = true) :
    ∃ run ∈ runs, ∃ us vs, run = us ++ a :: b :: vs := by
  induction runs generalizing xs with
  | nil => simp at hflat
  | cons run runs ih =>
    have hlater : ∀ zs, runs.flatten = zs ++ a :: b :: ys →
        ∃ run' ∈ run :: runs, ∃ us vs, run' = us ++ a :: b :: vs := by
      intro zs hzs
      obtain ⟨run', hmem, hrun'⟩ := ih (fun h => hne (by simp [h])) hparted.tail hzs
      exact ⟨run', by simp [hmem], hrun'⟩
    rw [List.flatten_cons, List.append_eq_append_iff] at hflat
    rcases hflat with ⟨m, rfl, hm⟩ | ⟨m, rfl, hm⟩
    · exact hlater m hm
    · rcases m with _ | ⟨x, _ | ⟨y, m⟩⟩
      · exact hlater [] (by simpa using hm.symm)
      · obtain ⟨rfl, hm⟩ : a = x ∧ b :: ys = runs.flatten := by simpa using hm
        rcases runs with _ | ⟨next, others⟩
        · simp at hm
        · obtain ⟨_, hnext, hfalse⟩ := (List.isChain_cons_cons.mp hparted).1
          obtain ⟨y, next, rfl⟩ := List.exists_cons_of_ne_nil hnext
          obtain ⟨rfl, -⟩ : b = y ∧ _ := by simpa using hm
          simp [hr] at hfalse
      · obtain ⟨rfl, rfl, -⟩ : a = x ∧ b = y ∧ _ := by simpa using hm
        exact ⟨_, by simp, xs, m, rfl⟩

theorem exists_mem_splitBy {l xs : List α} (hl : l = xs ++ a :: b :: ys) (hr : r a b = true) :
    ∃ run ∈ l.splitBy r, ∃ us vs, run = us ++ a :: b :: vs :=
  exists_mem_of_flatten_eq (List.nil_notMem_splitBy r l) (List.isChain_getLast_head_splitBy r l)
    (by simpa using hl) hr

end Split

namespace CommentPolicy

variable {p : CommentPolicy} {t : Tree} {all : List Neighbours} {d : Neighbours} {c : CommentId}

theorem getElem?_comment (hall : p.allNeighbours t = .ok all) (hd : d ∈ all) :
    all[d.comment]? = some d := by
  obtain ⟨i, hi⟩ := List.getElem?_of_mem hd
  have hcomment : (all.map Neighbours.comment)[i]? = some d.comment := by
    rw [List.getElem?_map, hi]
    rfl
  rw [map_comment_allNeighbours hall, Tree.commentIds] at hcomment
  obtain ⟨hlt, hget⟩ := List.getElem?_eq_some_iff.mp hcomment
  rw [List.getElem_range] at hget
  rw [← hget]
  exact hi

theorem comment_of_getElem? (hall : p.allNeighbours t = .ok all) (hd : all[c]? = some d) :
    d.comment = c := by
  have hcomment : (all.map Neighbours.comment)[c]? = some d.comment := by simp [hd]
  rw [map_comment_allNeighbours hall, Tree.commentIds] at hcomment
  obtain ⟨hlt, hget⟩ := List.getElem?_eq_some_iff.mp hcomment
  simpa using hget.symm

end CommentPolicy

namespace Assignment

open CommentPolicy

variable {p : CommentPolicy} {t : Tree} {all : List Neighbours} {d e : Neighbours}
    {i start stop : Nat}
  {c first last : CommentId}

/-- Two comments have the same node on a side, and nothing parts them on their line. -/
def Linked (t : Tree) (side : Neighbours → Option NodeId) (d e : Neighbours) : Prop :=
  (side d).isSome = true ∧ side d = side e ∧ sharesLine t d e = true

instance (side : Neighbours → Option NodeId) (d e : Neighbours) : Decidable (Linked t side d e) :=
  inferInstanceAs (Decidable (_ ∧ _ ∧ _))

theorem linked_iff {side : Neighbours → Option NodeId} (hd : (side d).isSome = true) :
    Linked t side d e ↔ (side d == side e && sharesLine t d e) = true := by
  simp [Linked, hd]

section Runs

theorem getElem?_runStarts_zero (hd : all[0]? = some d) :
    (runStarts t none all)[0]? = some (t.comment d.comment).span.start := by
  cases all with
  | nil => simp at hd
  | cons first later =>
    obtain rfl := Option.some.inj hd
    rfl

theorem getElem?_runStarts_succ {previous : Option (Neighbours × Nat)}
    (hd : all[i]? = some d) (he : all[i + 1]? = some e)
    (hstart : (runStarts t previous all)[i]? = some start) :
    (runStarts t previous all)[i + 1]? =
      some (if d.preceding == e.preceding && sharesLine t d e then start
        else (t.comment e.comment).span.start) := by
  induction all generalizing previous i with
  | nil => cases hd
  | cons first later ih =>
    cases i with
    | zero =>
      obtain rfl := Option.some.inj hd
      cases later with
      | nil => cases he
      | cons second others =>
        obtain rfl := Option.some.inj he
        obtain rfl := Option.some.inj hstart
        rfl
    | succ i => exact ih hd he hstart

theorem exists_runEnds_cons (t : Tree) (d : Neighbours) (later : List Neighbours) :
    ∃ stop, runEnds t (d :: later) = stop :: runEnds t later := by
  simp only [runEnds]
  split <;> exact ⟨_, rfl⟩

theorem getElem?_runEnds_last (hd : all[i]? = some d) (hlast : all[i + 1]? = none) :
    (runEnds t all)[i]? = some (t.comment d.comment).span.stop := by
  induction all generalizing i with
  | nil => cases hd
  | cons first later ih =>
    cases i with
    | zero =>
      obtain rfl := Option.some.inj hd
      obtain rfl : later = [] := by simpa using hlast
      rfl
    | succ i =>
      obtain ⟨own, hown⟩ := exists_runEnds_cons t first later
      rw [hown]
      exact ih hd hlast

theorem getElem?_runEnds_of_next (hd : all[i]? = some d) (he : all[i + 1]? = some e)
    (hstop : (runEnds t all)[i + 1]? = some stop) :
    (runEnds t all)[i]? =
      some (if d.following == e.following && sharesLine t d e then stop
        else (t.comment d.comment).span.stop) := by
  induction all generalizing i with
  | nil => cases hd
  | cons first later ih =>
    obtain ⟨own, hown⟩ := exists_runEnds_cons t first later
    rw [hown] at hstop
    cases i with
    | zero =>
      obtain rfl := Option.some.inj hd
      cases later with
      | nil => cases he
      | cons second others =>
        obtain rfl := Option.some.inj he
        obtain ⟨next, hnext⟩ := exists_runEnds_cons t second others
        obtain rfl : next = stop := by simpa [hnext] using hstop
        rw [runEnds.eq_2 _ _ _ _ _ _ hnext]
        rfl
    | succ i =>
      rw [hown]
      exact ih hd he hstop

theorem exists_runs (hd : all[i]? = some d) : ∃ start stop,
    (runStarts t none all)[i]? = some start ∧ (runEnds t all)[i]? = some stop := by
  have hi : i < all.length := (List.getElem?_eq_some_iff.mp hd).1
  have hstarts : i < (runStarts t none all).length := by rwa [length_runStarts]
  have hends : i < (runEnds t all).length := by rwa [length_runEnds]
  exact ⟨_, _, List.getElem?_eq_getElem hstarts, List.getElem?_eq_getElem hends⟩

theorem getElem?_linePositions_of_runs (hd : all[i]? = some d)
    (hstart : (runStarts t none all)[i]? = some start) (hstop : (runEnds t all)[i]? = some stop) :
    (linePositions t all)[i]? = some (linePosition t d start stop) := by
  rw [linePositions, List.getElem?_map, Option.map_eq_some_iff]
  exact ⟨(d, start, stop), List.getElem?_zip_eq_some.mpr ⟨hd, List.getElem?_zip_eq_some.mpr
    ⟨hstart, hstop⟩⟩, rfl⟩

end Runs

section Positions

theorem linePosition_eq_ownLine_iff : linePosition t d start stop = .ownLine ↔
    t.source.startsLine
      (if d.preceding.isSome then start else (t.comment d.comment).span.start) = true := by
  unfold linePosition
  dsimp only
  generalize t.source.startsLine _ = own
  generalize t.source.endsLine _ = ended
  cases own <;> cases ended <;> simp

theorem linePosition_eq_endOfLine_iff (hown : linePosition t d start stop ≠ .ownLine) :
    linePosition t d start stop = .endOfLine ↔
      t.source.endsLine
        (if d.following.isSome then stop else (t.comment d.comment).span.stop) = true := by
  rw [Ne, linePosition_eq_ownLine_iff] at hown
  unfold linePosition
  dsimp only
  rw [if_neg hown]
  split <;> simp [*]

/-- Comments in a row that are linked on both sides have the same position on their line. -/
theorem linePositions_succ (hd : all[i]? = some d) (he : all[i + 1]? = some e)
    (hp : Linked t Neighbours.preceding d e) (hf : Linked t Neighbours.following d e) :
    (linePositions t all)[i + 1]? = (linePositions t all)[i]? := by
  obtain ⟨start, stop, hstart, hstop⟩ := exists_runs (t := t) hd
  obtain ⟨start', stop', hstart', hstop'⟩ := exists_runs (t := t) he
  rw [getElem?_linePositions_of_runs hd hstart hstop, getElem?_linePositions_of_runs he hstart' hstop']
  rw [getElem?_runStarts_succ hd he hstart, if_pos ((linked_iff hp.1).mp hp)] at hstart'
  rw [getElem?_runEnds_of_next hd he hstop', if_pos ((linked_iff hf.1).mp hf)] at hstop
  obtain rfl := Option.some.inj hstart'
  obtain rfl := Option.some.inj hstop
  have hp' : e.preceding.isSome = true := hp.2.1 ▸ hp.1
  have hf' : e.following.isSome = true := hf.2.1 ▸ hf.1
  simp only [linePosition, hp.1, hp', hf.1, hf', if_true]

end Positions

section Begins

def GoesOn (t : Tree) (side : Neighbours → Option NodeId) (all : List Neighbours) (c : CommentId) :
    Prop :=
  ∃ b d e, c = b + 1 ∧ all[b]? = some d ∧ all[c]? = some e ∧ Linked t side d e

/-- The run of comments up to `c` that count as one with it begins with `first`. -/
inductive Begins (t : Tree) (all : List Neighbours) : (first c : CommentId) → Prop
  | self {c : CommentId} (h : ¬ GoesOn t Neighbours.preceding all c) : Begins t all c c
  | next {first c : CommentId} (h : Begins t all first c)
    (hc : GoesOn t Neighbours.preceding all (c + 1)) : Begins t all first (c + 1)

inductive Ends (t : Tree) (all : List Neighbours) : (last c : CommentId) → Prop
  | self {c : CommentId} (h : ¬ GoesOn t Neighbours.following all (c + 1)) : Ends t all c c
  | next {last c : CommentId} (hc : GoesOn t Neighbours.following all (c + 1))
    (h : Ends t all last (c + 1)) : Ends t all last c

theorem exists_begins (t : Tree) (all : List Neighbours) (c : CommentId) :
    ∃ first, Begins t all first c := by
  induction c with
  | zero =>
    refine ⟨0, .self ?_⟩
    rintro ⟨b, _, _, hb, _⟩
    simp at hb
  | succ c ih =>
    by_cases hc : GoesOn t Neighbours.preceding all (c + 1)
    · obtain ⟨first, h⟩ := ih
      exact ⟨first, .next h hc⟩
    · exact ⟨c + 1, .self hc⟩

theorem exists_ends (t : Tree) (all : List Neighbours) (c : CommentId) :
    ∃ last, Ends t all last c := by
  induction hn : all.length - c generalizing c with
  | zero =>
    refine ⟨c, .self ?_⟩
    rintro ⟨b, _, e, _, _, he, _⟩
    have hlt := (List.getElem?_eq_some_iff.mp he).1
    omega
  | succ n ih =>
    by_cases hc : GoesOn t Neighbours.following all (c + 1)
    · obtain ⟨last, h⟩ := ih (c + 1) (by omega)
      exact ⟨last, .next hc h⟩
    · exact ⟨c, .self hc⟩

theorem Begins.eq_or_goesOn (h : Begins t all first c) :
    first = c ∨ first < c ∧ GoesOn t Neighbours.preceding all c := by
  induction h with
  | self h => exact .inl rfl
  | next h hc ih =>
    right
    constructor
    · rcases ih with rfl | ⟨hlt, -⟩
      · exact Nat.lt_succ_self _
      · exact Nat.lt_succ_of_lt hlt
    · exact hc

theorem Begins.unique {first' : CommentId} (h : Begins t all first c) (h' : Begins t all first' c) :
    first = first' := by
  induction h with
  | self h =>
    rcases h'.eq_or_goesOn with heq | ⟨-, hc⟩
    · exact heq.symm
    · exact absurd hc h
  | next h hc ih =>
    cases h' with
    | self h' => exact absurd hc h'
    | next h' _ => exact ih h'

theorem Ends.eq_or_goesOn (h : Ends t all last c) :
    last = c ∨ c < last ∧ GoesOn t Neighbours.following all (c + 1) := by
  induction h with
  | self h => exact .inl rfl
  | next hc h ih =>
    right
    constructor
    · rcases ih with rfl | ⟨hlt, -⟩
      · exact Nat.lt_succ_self _
      · exact Nat.lt_of_succ_lt hlt
    · exact hc

theorem Ends.unique {last' : CommentId} (h : Ends t all last c) (h' : Ends t all last' c) :
    last = last' := by
  induction h with
  | self h =>
    rcases h'.eq_or_goesOn with heq | ⟨-, hc⟩
    · exact heq.symm
    · exact absurd hc h
  | next hc h ih =>
    cases h' with
    | self h' => exact absurd hc h'
    | next _ h' => exact ih h'

variable (hall : p.allNeighbours t = .ok all)
include hall

theorem Begins.start_eq (h : Begins t all first c) (hd : all[c]? = some d)
    (hstart : (runStarts t none all)[c]? = some start) :
    (if d.preceding.isSome then start else (t.comment d.comment).span.start) =
      (t.comment first).span.start := by
  induction h generalizing d start with
  | self h =>
    obtain rfl := comment_of_getElem? hall hd
    split
    · rename_i hsome
      rcases hc : d.comment with _ | b
      · rw [hc] at hd hstart
        rw [getElem?_runStarts_zero hd, hc] at hstart
        exact (Option.some.inj hstart).symm
      · rw [hc] at hd hstart h
        obtain ⟨before, hbefore⟩ : ∃ before, all[b]? = some before :=
          ⟨_, List.getElem?_eq_getElem (Nat.lt_of_succ_lt (List.getElem?_eq_some_iff.mp hd).1)⟩
        obtain ⟨start', _, hstart', -⟩ := exists_runs (t := t) hbefore
        have hnot : ¬ (before.preceding == d.preceding && sharesLine t before d) = true := by
          intro hlinked
          have heq : before.preceding = d.preceding := by
            simp only [Bool.and_eq_true, beq_iff_eq] at hlinked
            exact hlinked.1
          exact h ⟨b, before, d, rfl, hbefore, hd, (linked_iff (heq ▸ hsome)).mpr hlinked⟩
        rw [getElem?_runStarts_succ hbefore hd hstart', if_neg hnot, hc] at hstart
        exact (Option.some.inj hstart).symm
    · rfl
  | next h hc ih =>
    obtain ⟨b, before, d', hb, hbefore, hd', hlinked⟩ := hc
    obtain rfl := Nat.succ.inj hb
    obtain rfl := Option.some.inj (hd.symm.trans hd')
    obtain ⟨start', _, hstart', -⟩ := exists_runs (t := t) hbefore
    rw [getElem?_runStarts_succ hbefore hd hstart',
      if_pos ((linked_iff hlinked.1).mp hlinked)] at hstart
    obtain rfl := Option.some.inj hstart
    have hfirst := ih hbefore hstart'
    rw [if_pos hlinked.1] at hfirst
    rw [if_pos (hlinked.2.1 ▸ hlinked.1), hfirst]

theorem Ends.stop_eq (h : Ends t all last c) (hd : all[c]? = some d)
    (hstop : (runEnds t all)[c]? = some stop) :
    (if d.following.isSome then stop else (t.comment d.comment).span.stop) =
      (t.comment last).span.stop := by
  induction h generalizing d stop with
  | self h =>
    obtain rfl := comment_of_getElem? hall hd
    split
    · rename_i hsome
      cases hafter : all[d.comment + 1]? with
      | none =>
        rw [getElem?_runEnds_last hd hafter] at hstop
        exact (Option.some.inj hstop).symm
      | some after =>
        obtain ⟨_, stop', -, hstop'⟩ := exists_runs (t := t) hafter
        have hnot : ¬ (d.following == after.following && sharesLine t d after) = true :=
          fun hlinked => h ⟨_, d, after, rfl, hd, hafter, (linked_iff hsome).mpr hlinked⟩
        rw [getElem?_runEnds_of_next hd hafter hstop', if_neg hnot] at hstop
        exact (Option.some.inj hstop).symm
    · rfl
  | next hc h ih =>
    obtain ⟨b, d', after, hb, hd', hafter, hlinked⟩ := hc
    obtain rfl := Nat.succ.inj hb
    obtain rfl := Option.some.inj (hd.symm.trans hd')
    obtain ⟨_, stop', -, hstop'⟩ := exists_runs (t := t) hafter
    rw [getElem?_runEnds_of_next hd hafter hstop',
      if_pos ((linked_iff hlinked.1).mp hlinked)] at hstop
    obtain rfl := Option.some.inj hstop
    have hlast := ih hafter hstop'
    rw [if_pos (hlinked.2.1 ▸ hlinked.1)] at hlast
    rw [if_pos hlinked.1, hlast]

theorem ownLine_iff_of_begins (hd : all[c]? = some d) (h : Begins t all first c) :
    (linePositions t all)[c]? = some .ownLine ↔
      t.source.startsLine (t.comment first).span.start = true := by
  obtain ⟨start, stop, hstart, hstop⟩ := exists_runs (t := t) hd
  rw [getElem?_linePositions_of_runs hd hstart hstop, Option.some.injEq,
    linePosition_eq_ownLine_iff, h.start_eq hall hd hstart]

theorem endOfLine_iff_of_ends (hd : all[c]? = some d) (h : Ends t all last c)
    (hown : (linePositions t all)[c]? ≠ some .ownLine) :
    (linePositions t all)[c]? = some .endOfLine ↔
      t.source.endsLine (t.comment last).span.stop = true := by
  obtain ⟨start, stop, hstart, hstop⟩ := exists_runs (t := t) hd
  rw [getElem?_linePositions_of_runs hd hstart hstop, Ne, Option.some.injEq] at hown
  rw [getElem?_linePositions_of_runs hd hstart hstop, Option.some.injEq,
    linePosition_eq_endOfLine_iff hown, h.stop_eq hall hd hstop]

end Begins

section Alike

variable {a : Attachments} {run us vs : List Neighbours} {accepts : Text → Bool} {next j : Nat}
  {cs : List CommentId}

theorem gapsFrom_iff_succ (hj : j < cs.length) : GapsFrom t accepts next cs j ↔
    accepts (gapBehind t next cs j) = true ∧ GapsFrom t accepts next cs (j + 1) := by
  constructor
  · intro h
    exact ⟨h j hj (Nat.le_refl j), fun i hi hji => h i hi (Nat.le_of_succ_le hji)⟩
  · rintro ⟨hgap, h⟩ i hi hji
    rcases Nat.eq_or_lt_of_le hji with rfl | hji
    · exact hgap
    · exact h i hi hji

/-- Comments on one line are parted by nothing that the default pattern does not let pass. -/
theorem defaultGap_of_joinsLine {gap : Text} (h : gap.joinsLine = true) :
    defaultGap gap = true := by
  simp only [Text.joinsLine, List.all_eq_true, Bool.and_eq_true] at h
  simp only [defaultGap, List.all_eq_true, Bool.or_eq_true]
  exact fun c hc => .inl (h c hc).1.1.1

theorem ResolvedRun.get?_eq (h : ResolvedRun p t a run) (hgap : ∀ n, p.gap t n = none)
    (hrun : run = us ++ d :: e :: vs) (hshares : sharesLine t d e = true) :
    a.get? d.comment = a.get? e.comment ∧ a.get? d.comment ≠ none := by
  obtain ⟨first, preceding, following, -, -, hget⟩ := h
  simp only [hgap, Option.getD_none] at hget
  have hd : run[us.length]? = some d := by simp [hrun]
  have he : run[us.length + 1]? = some e := by simp [hrun]
  have hlt : us.length < (run.map Neighbours.comment).length := by simp [hrun]
  have hbetween : gapBehind t (t.node following).span.start (run.map Neighbours.comment) us.length =
      t.source.slice (t.comment d.comment).span.stop (t.comment e.comment).span.start := by
    simp [gapBehind, hd, he]
  have hiff : GapsFrom t defaultGap (t.node following).span.start (run.map Neighbours.comment)
      us.length ↔ _ := gapsFrom_iff_succ hlt
  rw [hbetween, defaultGap_of_joinsLine hshares, eq_self, true_and] at hiff
  rw [hget _ d hd, hget _ e he]
  simp [hiff]

theorem eagerPlace_eq_of_linked (hp : Linked t Neighbours.preceding d e)
    (hf : Linked t Neighbours.following d e) (position : LinePosition) :
    eagerPlace t d position = eagerPlace t e position := by
  obtain ⟨m, hm⟩ := Option.isSome_iff_exists.mp hp.1
  obtain ⟨n, hn⟩ := Option.isSome_iff_exists.mp hf.1
  have hm' := hp.2.1.symm.trans hm
  have hn' := hf.2.1.symm.trans hn
  cases position <;> simp [eagerPlace, hm, hm', hn, hn']

/-- Tied comments in a row between the same two nodes wait in one run. -/
theorem exists_tieRun {placed : List (Neighbours × LinePosition)}
    (hd : placed[i]? = some (d, .remaining)) (he : placed[i + 1]? = some (e, .remaining))
    (hp : Linked t Neighbours.preceding d e) (hf : Linked t Neighbours.following d e) :
    ∃ run ∈ tieRuns placed, ∃ us vs, run = us ++ d :: e :: vs := by
  have htied : ∀ {x : Neighbours × LinePosition}, x.2 = .remaining → x.1.preceding.isSome = true →
      x.1.following.isSome = true → isTied x = true := by
    rintro x hx hx' hx''
    simp [isTied, hx, hx', hx'']
  obtain ⟨hi, hget⟩ := List.getElem?_eq_some_iff.mp hd
  obtain ⟨hi', hget'⟩ := List.getElem?_eq_some_iff.mp he
  have hrow : tied placed = tied (placed.take i) ++ d :: e :: tied (placed.drop (i + 2)) := by
    have hparts : placed = placed.take i ++ (d, .remaining) :: (e, .remaining) ::
        placed.drop (i + 2) := by
      rw [← hget, ← hget', List.getElem_cons_drop, List.getElem_cons_drop, List.take_append_drop]
    have htied' := htied (x := (d, .remaining)) rfl hp.1 hf.1
    have htied'' := htied (x := (e, .remaining)) rfl (hp.2.1 ▸ hp.1) (hf.2.1 ▸ hf.1)
    conv_lhs => rw [hparts]
    simp [tied, htied', htied'']
  exact exists_mem_splitBy hrow (samePair_iff.mpr ⟨hp.2.1, hf.2.1⟩)

end Alike

section Placings

variable {s : Assignment} {tie : Tie} {position : LinePosition} {isLast : Bool}

def placing? : Event → Option (Neighbours × LinePosition)
  | .placing position d _ => some (d, position)
  | _ => none

/-- The comments that a policy is asked to place, each with its position on its line. -/
def placings (events : List Event) : List (Neighbours × LinePosition) :=
  events.filterMap placing?

@[simp] theorem placings_resolve : placings (resolve p t tie s).events = placings s.events := by
  rw [resolve_eq]
  rfl

@[simp] theorem placings_placeByRule :
    placings (s.placeByRule p t position d).events = placings s.events := by
  unfold placeByRule
  split
  case h_5 =>
    unfold defer
    dsimp only
    split
    · rfl
    · split
      · rfl
      · exact placings_resolve
  all_goals rfl

theorem placings_place (houter : p.outerToRoot = false) :
    placings (s.place p t position d isLast).events = (d, position) :: placings s.events := by
  simp only [place, houter, Bool.false_and, Bool.false_eq_true, if_false, placeByPolicy]
  split
  · rw [events_foldl_attach]
    rfl
  · rw [placings_placeByRule, events_foldl_attach]
    rfl

theorem placings_placeAll (houter : p.outerToRoot = false)
    (placed : List (Neighbours × LinePosition)) :
    placings (placeAll p t s placed).events = placed.reverse ++ placings s.events := by
  induction placed generalizing s with
  | nil => rfl
  | cons x later ih => simp [placeAll, ih, placings_place houter]

theorem placings_finish : placings (s.finish p t).events = placings s.events := by
  unfold finish
  split
  · exact placings_resolve
  · rfl

/-- A policy is asked to place the comments one after the other, each with its position on its
line. -/
theorem placings_outcome (houter : p.outerToRoot = false) (all : List Neighbours) :
    placings (outcome p t all).events.reverse = all.zip (linePositions t all) := by
  rw [placings, List.filterMap_reverse, List.reverse_eq_iff]
  change placings _ = _
  rw [outcome, placings_finish, placings_placeAll houter]
  exact List.append_nil _

end Placings

end Assignment

/-- For a policy that leaves every comment to the general rules, comments in a row with the same
node before them and the same node behind them go to the same place if nothing parts them on their
line. -/
theorem assignComments_alike {p : CommentPolicy} {t : Tree} {all : List Neighbours}
    (hall : p.allNeighbours t = .ok all)
    (hhooks : ∀ s, (p.place s).places = [] ∧ (p.place s).settled = false)
    (hgap : ∀ n, p.gap t n = none) (houter : p.outerToRoot = false) :
    ∃ a events, assignComments p t = .ok (a, events) ∧
      ∀ d ∈ all, ∀ e ∈ all, e.comment = d.comment + 1 →
        Assignment.Linked t Neighbours.preceding d e →
        Assignment.Linked t Neighbours.following d e →
        ∃ x, a.get? d.comment = some x ∧ a.get? e.comment = some x := by
  have hinert : Assignment.Inert p :=
    ⟨fun s => (hhooks s).1, fun s => (hhooks s).2, houter⟩
  have hsettles := Assignment.settles_outcome hinert hall
  refine ⟨_, _, Assignment.assignComments_eq hall, fun d hd e he hnext hp hf => ?_⟩
  have hd' := CommentPolicy.getElem?_comment hall hd
  have he' := hnext ▸ CommentPolicy.getElem?_comment hall he
  obtain ⟨start, stop, hstart, hstop⟩ := Assignment.exists_runs (t := t) hd'
  have hposition := Assignment.getElem?_linePositions_of_runs hd' hstart hstop
  have hposition' := (Assignment.linePositions_succ hd' he' hp hf).trans hposition
  generalize Assignment.linePosition t d start stop = position at hposition hposition'
  have hplaced : (all.zip (Assignment.linePositions t all))[d.comment]? = some (d, position) :=
    List.getElem?_zip_eq_some.mpr ⟨hd', hposition⟩
  have hplaced' : (all.zip (Assignment.linePositions t all))[d.comment + 1]? = some (e, position) :=
    List.getElem?_zip_eq_some.mpr ⟨he', hposition'⟩
  by_cases hremaining : position = .remaining
  · subst hremaining
    obtain ⟨run, hrun, us, vs, heq⟩ := Assignment.exists_tieRun hplaced hplaced' hp hf
    obtain ⟨hsame, hne⟩ := (hsettles.runs run hrun).get?_eq hgap heq hp.2.2
    obtain ⟨x, hx⟩ := Option.ne_none_iff_exists'.mp hne
    exact ⟨x, hx, hsame ▸ hx⟩
  · have huntied : ∀ d' : Neighbours, Assignment.isTied (d', position) = false := by
      simp [Assignment.isTied, hremaining]
    have hget := hsettles.untied _ (List.mem_of_getElem? hplaced) (huntied d)
    have hget' := hsettles.untied _ (List.mem_of_getElem? hplaced') (huntied e)
    rw [← Assignment.eagerPlace_eq_of_linked hp hf] at hget'
    exact ⟨_, hget, hget'⟩

def bracketedNext : Tree where
  source := .ofText "x /*a*/\t/*b*/ (\ny".toList
  nodes := #[{ kind := "Name", span := ⟨0, 1⟩ }, { kind := "Name", span := ⟨16, 17⟩ },
    { kind := "Names", span := ⟨0, 17⟩, fields := [("all", .list [.node 0, .node 1])] }]
  comments := #[⟨⟨2, 7⟩, .block, "/*a*/".toList⟩, ⟨⟨8, 13⟩, .block, "/*b*/".toList⟩]
  root := 2

theorem assignComments_alike_bracketedNext :
    ∃ a events x, assignComments {} bracketedNext = .ok (a, events) ∧
      a.get? 0 = some x ∧ a.get? 1 = some x := by
  let first : Neighbours := ⟨0, none, some 0, some 1⟩
  let second : Neighbours := ⟨1, none, some 0, some 1⟩
  have hall : CommentPolicy.allNeighbours {} bracketedNext = .ok [first, second] := by
    decide +kernel
  obtain ⟨a, events, h, halike⟩ :=
    assignComments_alike hall (fun _ => ⟨rfl, rfl⟩) (fun _ => rfl) rfl
  obtain ⟨x, hx, hx'⟩ := halike first (by simp) second (by simp) rfl (by decide +kernel)
    (by decide +kernel)
  exact ⟨a, events, x, h, hx, hx'⟩

end SourceLayout
