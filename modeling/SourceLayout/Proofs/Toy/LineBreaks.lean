import SourceLayout.Proofs.Comment.Lines
import SourceLayout.Proofs.Text.LineBreaks
import SourceLayout.Proofs.Toy.Offsets
import SourceLayout.Proofs.Toy.Placement

/-! # Line breaks between comments

A comment ends with a slash, or where its line or the text ends, and the next one starts with a
slash. So a line break next to one of two comments that count as one stands between them, and it is
a carriage return on its own, the only one that is also white space within a line. It keeps the
second comment from being seen to start a line and the first from being seen to end one; nothing
else does.
-/

namespace SourceLayout

namespace Toy

open CommentPolicy Assignment

open Text (isBlank isLineBreak)

/-- A comment may end behind a slash, or where a line or the text ends. -/
def CommentEnd (front rest : Text) : Prop :=
  front.getLast? = some '/' ∨ ∀ x ∈ rest.head?, isLineEnd x = true

theorem CommentEnd.append {front rest : Text} (h : CommentEnd front rest) (done : Text) :
    CommentEnd (done ++ front) rest := by
  rcases h with h | h
  · left
    rw [List.getLast?_append, h]
    rfl
  · exact .inr h

theorem commentEnd_lineLength (t : Text) :
    CommentEnd (t.take (lineLength t)) (t.drop (lineLength t)) := by
  right
  intro x hx
  have hdrop : t.drop (lineLength t) = t.dropWhile (!isLineEnd ·) := by
    calc t.drop (lineLength t)
      _ = (t.takeWhile (!isLineEnd ·) ++ t.dropWhile (!isLineEnd ·)).drop (lineLength t) := by
        rw [List.takeWhile_append_dropWhile]
      _ = t.dropWhile (!isLineEnd ·) := List.drop_left
  rw [hdrop, ← List.find?_not_eq_head?_dropWhile] at hx
  simpa using List.find?_some hx

theorem commentEnd_blockLength (t : Text) :
    CommentEnd (t.take (blockLength t)) (t.drop (blockLength t)) := by
  fun_induction blockLength t with
  | case1 => exact .inr nofun
  | case2 => exact .inl rfl
  | case3 c t _ ih => exact ih.append [c]

namespace Reader

variable {text : Text} {r : Reader}

structure Ended (text : Text) (r : Reader) : Prop where
  traced : r.Traced text
  comments : ∀ c ∈ r.tree.comments, ∃ front rest, text = front ++ rest ∧
    c.span.stop = front.byteSize ∧ CommentEnd front rest

namespace Ended

theorem ofText (text : Text) : (Reader.ofText text).Ended text :=
  ⟨.ofText text, fun _ hc => (nomatch hc)⟩

theorem skip (h : r.Ended text) (n : Nat) : (r.skip n).Ended text :=
  ⟨h.traced.skip n, h.comments⟩

theorem comment (h : r.Ended text) {rest : Text} (hr : r.rest = '/' :: rest) (kind : CommentKind)
    {n : Nat} (hn : CommentEnd (r.rest.take n) (r.rest.drop n)) : (r.comment kind n).Ended text := by
  constructor
  · exact h.traced.comment hr kind n
  · intro c hc
    rcases Array.mem_push.mp hc with hc | rfl
    · exact h.comments c hc
    · obtain ⟨done, htext, hoffset⟩ := h.traced.read
      refine ⟨done ++ r.rest.take n, r.rest.drop n, ?_, ?_, hn.append done⟩
      · rw [List.append_assoc, List.take_append_drop]
        exact htext
      · rw [Text.byteSize_append, ← hoffset]
        rfl

theorem node (h : r.Ended text) {start : Nat} (hstart : text.IsCut start) (kind : String)
    (fields : List (String × Value)) : (r.node kind start fields).2.Ended text :=
  ⟨h.traced.node hstart kind fields, h.comments⟩

theorem kept (text : Text) : Reader.Kept (Reader.Ended text) where
  skip _ n h := h.skip n
  lineComment _ _ hr h := h.comment hr _ (commentEnd_lineLength _)
  blockComment _ _ hr h := h.comment hr _ (commentEnd_blockLength _)
  ident _ _ h := (h.skip _).node h.traced.isCut_offset _ _
  quasi _ _ _ h := (h.skip _).node h.traced.isCut_offset _ _
  embed _ _ _ _ _ _ _ h hopened := ((hopened.skip _).skip 1).node h.traced.isCut_offset _ _
  bracket _ _ _ _ _ _ _ _ h hafter := hafter.node h.traced.isCut_offset _ _

end Ended

end Reader

variable {text : Text} {t : Tree} {b c : CommentId}

theorem commentEnd_of_parse (h : parse text = .ok t) (hc : c ∈ t.commentIds) :
    ∃ front rest, text = front ++ rest ∧ (t.comment c).span.stop = front.byteSize ∧
      CommentEnd front rest := by
  obtain ⟨body, r, hr, rfl⟩ := (Reader.Ended.kept text).exists_of_parse (.ofText text) h
  have hmem := comment_finish_mem hc
  exact hr.comments _ hmem

/-- What stands between two comments: the first ends where comments may end, and the second starts
with a slash. -/
theorem exists_gap (h : parse text = .ok t) (hb : b ∈ t.commentIds) (hc : c ∈ t.commentIds)
    (hbc : b < c) : ∃ front gap rest, t.source.text = front ++ gap ++ '/' :: rest ∧
      (t.comment b).span.stop = front.byteSize ∧
      (t.comment c).span.start = (front ++ gap).byteSize ∧
      t.source.slice (t.comment b).span.stop (t.comment c).span.start = gap ∧
      CommentEnd front (gap ++ '/' :: rest) := by
  have hl := laid_of_parse h
  obtain ⟨front, behind, htext, hstop, hend⟩ := commentEnd_of_parse h hb
  obtain ⟨before, rest, htext', hstart⟩ := hl.slashes c hc
  have hle := hl.inOrder b hb c hc hbc
  obtain ⟨gap, rfl⟩ := Text.exists_append_of_byteSize_le (htext.symm.trans htext')
    (by rwa [← hstop, ← hstart])
  obtain rfl : behind = gap ++ '/' :: rest := by
    rw [htext] at htext'
    simpa using htext'
  have hbetween : text.between? (t.comment b).span.stop (t.comment c).span.start = some gap :=
    Text.between?_eq_some_iff.mpr ⟨front, '/' :: rest, htext', hstop, by simp [hstart]⟩
  refine ⟨front, gap, rest, ?_, hstop, hstart, ?_, hend⟩
  · rw [hl.source, Source.text_ofText, htext']
  · rw [Source.slice_eq, hl.source, Source.text_ofText, Text.slice, hbetween, Option.getD_some]

theorem isLineBreak_eq_false_of_isBlank {x : Char} (h : isBlank x = true) :
    isLineEnd x = false := by
  simp only [isBlank, Bool.or_eq_true, beq_iff_eq] at h
  rcases h with rfl | rfl <;> rfl

section Gap

variable {front gap rest : Text}

theorem return_mem_of_find? {l : Text} (hjoins : gap.joinsLine = true) (hl : ∀ x ∈ l, x ∈ gap)
    (h : (l.find? (!isBlank ·)).any isLineBreak = true) : '\r' ∈ gap := by
  obtain ⟨x, hx, hbreak⟩ := (Option.any_eq_true _ _).mp h
  have hmem := hl x (List.mem_of_find?_eq_some hx)
  exact Text.eq_return_of_joinsLine hjoins hmem hbreak ▸ hmem

theorem return_mem_of_startsLine (hjoins : gap.joinsLine = true)
    (hend : CommentEnd front (gap ++ '/' :: rest))
    (h : ((front ++ gap).reverse.find? (!isBlank ·)).any isLineBreak = true) : '\r' ∈ gap := by
  rw [List.reverse_append, List.find?_append] at h
  cases hfind : gap.reverse.find? (!isBlank ·) with
  | some x =>
    rw [hfind, Option.some_or, ← hfind] at h
    exact return_mem_of_find? hjoins (fun _ => List.mem_reverse.mp) h
  | none =>
    exfalso
    rw [hfind, Option.none_or] at h
    rcases hend with hlast | hhead
    · rw [← List.head?_reverse] at hlast
      obtain ⟨front', hfront⟩ := List.head?_eq_some_iff.mp hlast
      rw [hfront, List.find?_cons_of_pos (by decide)] at h
      exact absurd h (by decide)
    · cases gap with
      | nil => exact absurd (hhead '/' rfl) (by decide)
      | cons x gap =>
        have hblank := List.find?_eq_none.mp hfind x (by simp)
        rw [Bool.not_eq_true, Bool.not_eq_false'] at hblank
        have hx := hhead x rfl
        rw [isLineBreak_eq_false_of_isBlank hblank] at hx
        cases hx

theorem return_mem_of_endsLine (hjoins : gap.joinsLine = true)
    (h : ((gap ++ '/' :: rest).find? (!isBlank ·)).any isLineBreak = true) : '\r' ∈ gap := by
  rw [List.find?_append] at h
  cases hfind : gap.find? (!isBlank ·) with
  | some x =>
    rw [hfind, Option.some_or, ← hfind] at h
    exact return_mem_of_find? hjoins (fun _ => id) h
  | none =>
    rw [hfind, Option.none_or, List.find?_cons_of_pos (by decide)] at h
    exact absurd h (by decide)

end Gap

/-- The source between a comment and the one before it. -/
def gapBefore (t : Tree) (c : CommentId) : Text :=
  t.source.slice (t.comment (c - 1)).span.stop (t.comment c).span.start

section Hidden

variable {p : CommentPolicy} {all : List Neighbours} {side : Neighbours → Option NodeId}

theorem mem_commentIds_of_goesOn (hall : p.allNeighbours t = .ok all)
    (h : GoesOn t side all (b + 1)) : b ∈ t.commentIds ∧ b + 1 ∈ t.commentIds ∧
      (gapBefore t (b + 1)).joinsLine = true := by
  obtain ⟨_, d, e, hb, hd, he, -, -, hshares⟩ := h
  obtain rfl := Nat.succ.inj hb
  have hd' := comment_of_getElem? hall hd
  have he' := comment_of_getElem? hall he
  rw [sharesLine, hd', he'] at hshares
  have hmem := (neighbours_of_mem hall (List.mem_of_getElem? hd)).1
  have hmem' := (neighbours_of_mem hall (List.mem_of_getElem? he)).1
  rw [hd'] at hmem
  rw [he'] at hmem'
  exact ⟨hmem, hmem', hshares⟩

/-- A comment that starts a line, behind a carriage return, counts as one with comments of which
the first does not. -/
def HiddenStart (t : Tree) (all : List Neighbours) (c : CommentId) : Prop :=
  ∃ first < c, Begins t all first c ∧ t.source.startsLine (t.comment first).span.start = false ∧
    '\r' ∈ gapBefore t c

/-- A comment that ends a line, before a carriage return, counts as one with comments of which the
last does not. -/
def HiddenEnd (t : Tree) (all : List Neighbours) (c : CommentId) : Prop :=
  ∃ last > c, Ends t all last c ∧ t.source.endsLine (t.comment last).span.stop = false ∧
    '\r' ∈ gapBefore t (c + 1)

variable (h : parse text = .ok t) (hall : p.allNeighbours t = .ok all)
include h hall

theorem return_mem_gapBefore_of_startsLine (hgoes : GoesOn t side all (b + 1))
    (hstarts : t.source.startsLine (t.comment (b + 1)).span.start = true) :
    '\r' ∈ gapBefore t (b + 1) := by
  obtain ⟨hb, hc, hjoins⟩ := mem_commentIds_of_goesOn hall hgoes
  obtain ⟨front, gap, rest, htext, -, hstart, hslice, hend⟩ :=
    exists_gap h hb hc (Nat.lt_succ_self b)
  rw [gapBefore, Nat.add_sub_cancel, hslice] at hjoins ⊢
  rw [hstart, Source.startsLine_eq htext] at hstarts
  exact return_mem_of_startsLine hjoins hend hstarts

theorem return_mem_gapBefore_of_endsLine (hgoes : GoesOn t side all (b + 1))
    (hends : t.source.endsLine (t.comment b).span.stop = true) : '\r' ∈ gapBefore t (b + 1) := by
  obtain ⟨hb, hc, hjoins⟩ := mem_commentIds_of_goesOn hall hgoes
  obtain ⟨front, gap, rest, htext, hstop, -, hslice, -⟩ := exists_gap h hb hc (Nat.lt_succ_self b)
  rw [gapBefore, Nat.add_sub_cancel, hslice] at hjoins ⊢
  rw [hstop, Source.endsLine_eq (htext.trans (List.append_assoc ..))] at hends
  exact return_mem_of_endsLine hjoins hends

/-- A comment that starts a line is seen to do so unless a carriage return hides it. -/
theorem ownLine_iff_not_hiddenStart {d : Neighbours} (hd : all[c]? = some d)
    (hstarts : t.source.startsLine (t.comment c).span.start = true) :
    (linePositions t all)[c]? = some .ownLine ↔ ¬ HiddenStart t all c := by
  obtain ⟨first, hbegins⟩ := exists_begins t all c
  rw [ownLine_iff_of_begins hall hd hbegins]
  constructor
  · rintro hfirst ⟨first', -, hbegins', hfirst', -⟩
    rw [hbegins.unique hbegins', hfirst'] at hfirst
    cases hfirst
  · intro hnot
    rcases hbegins.eq_or_goesOn with rfl | ⟨hlt, hgoes⟩
    · exact hstarts
    · obtain ⟨b, rfl⟩ := Nat.exists_eq_add_of_lt (Nat.zero_lt_of_lt hlt)
      rw [Nat.zero_add] at *
      by_contra hfirst
      refine hnot ⟨first, hlt, hbegins, by simpa using hfirst, ?_⟩
      exact return_mem_gapBefore_of_startsLine h hall hgoes hstarts

theorem endOfLine_iff_not_hiddenEnd {d : Neighbours} (hd : all[c]? = some d)
    (hown : (linePositions t all)[c]? ≠ some .ownLine)
    (hends : t.source.endsLine (t.comment c).span.stop = true) :
    (linePositions t all)[c]? = some .endOfLine ↔ ¬ HiddenEnd t all c := by
  obtain ⟨last, hlast⟩ := exists_ends t all c
  rw [endOfLine_iff_of_ends hall hd hlast hown]
  constructor
  · rintro hstop ⟨last', -, hlast', hstop', -⟩
    rw [hlast.unique hlast', hstop'] at hstop
    cases hstop
  · intro hnot
    rcases hlast.eq_or_goesOn with rfl | ⟨hlt, hgoes⟩
    · exact hends
    · by_contra hstop
      refine hnot ⟨last, hlt, hlast, by simpa using hstop, ?_⟩
      exact return_mem_gapBefore_of_endsLine h hall hgoes hends

end Hidden

/-- A policy that gets to place every comment of a toy text is told that a comment which starts a
line is on its own line, and that any other one which ends a line is at the end of it, unless a
carriage return that counts as white space hides the line break. -/
theorem exists_placings_iff_not_hidden {p : CommentPolicy} (hoff : ∀ n, p.offspring t n = none)
    (houter : p.outerToRoot = false) (h : parse text = .ok t) :
    ∃ a events all, assignComments p t = .ok (a, events) ∧ p.allNeighbours t = .ok all ∧
      (placings events).map Prod.fst = all ∧ all.map Neighbours.comment = t.commentIds ∧
      ∀ d position, (d, position) ∈ placings events →
        (t.source.startsLine (t.comment d.comment).span.start = true →
          (position = .ownLine ↔ ¬ HiddenStart t all d.comment)) ∧
        (position ≠ .ownLine → t.source.endsLine (t.comment d.comment).span.stop = true →
          (position = .endOfLine ↔ ¬ HiddenEnd t all d.comment)) := by
  obtain ⟨all, hall⟩ := exists_allNeighbours hoff (parsed_of_parse h)
  refine ⟨_, _, all, assignComments_eq hall, hall, ?_⟩
  rw [placings_outcome houter]
  refine ⟨map_fst_zip_linePositions all, map_comment_allNeighbours hall, fun d position hmem => ?_⟩
  obtain ⟨i, hi⟩ := List.getElem?_of_mem hmem
  obtain ⟨hd, hposition⟩ := List.getElem?_zip_eq_some.mp hi
  obtain rfl : d.comment = i := comment_of_getElem? hall hd
  have heq : ∀ x : LinePosition, position = x ↔ (linePositions t all)[d.comment]? = some x := by
    intro x
    rw [hposition, Option.some.injEq]
  rw [Ne, heq .ownLine, heq .endOfLine]
  exact ⟨ownLine_iff_not_hiddenStart h hall hd, endOfLine_iff_not_hiddenEnd h hall hd⟩

def returnedComments : Text := "a /*x*/\r/*y*/ b".toList

theorem exists_placings_iff_not_hidden_returnedComments :
    ∃ t a events all, parse returnedComments = .ok t ∧
      assignComments policy t = .ok (a, events) ∧ all.map Neighbours.comment = [0, 1] ∧
      placings events = all.map (·, .remaining) ∧ HiddenEnd t all 0 ∧ HiddenStart t all 1 := by
  let first : Neighbours := ⟨0, none, some 0, some 1⟩
  let second : Neighbours := ⟨1, none, some 0, some 1⟩
  have hreport : (parse returnedComments).toOption.map (fun t =>
      ((assignComments policy t).toOption.map fun x => placings x.2,
        t.source.endsLine (t.comment 0).span.stop, t.source.startsLine (t.comment 1).span.start)) =
      some (some [(first, .remaining), (second, .remaining)], true, true) := by
    decide +kernel
  obtain ⟨t, hparse, hreport⟩ := Option.map_eq_some_iff.mp hreport
  obtain ⟨hreport, hboth⟩ := Prod.mk.inj hreport
  obtain ⟨hends, hstarts⟩ := Prod.mk.inj hboth
  obtain ⟨⟨a, events⟩, hassign, hplacings⟩ := Option.map_eq_some_iff.mp hreport
  have hparse := toOption_eq_some_iff.mp hparse
  have hassign := toOption_eq_some_iff.mp hassign
  obtain ⟨a', events', all, hassign', -, rfl, -, hseen⟩ :=
    exists_placings_iff_not_hidden (p := policy) (fun _ => rfl) rfl hparse
  obtain ⟨rfl, rfl⟩ := Prod.mk.inj (Except.ok.inj (hassign.symm.trans hassign'))
  rw [hplacings] at hseen
  obtain ⟨-, hfirst⟩ := hseen first .remaining (by simp)
  obtain ⟨hsecond, -⟩ := hseen second .remaining (by simp)
  refine ⟨t, a, events, [first, second], hparse, hassign, rfl, hplacings, ?_, ?_⟩
  · by_contra hnot
    exact absurd ((hfirst (by simp) hends).mpr hnot) (by simp)
  · by_contra hnot
    exact absurd ((hsecond hstarts).mpr hnot) (by simp)

end Toy

end SourceLayout
