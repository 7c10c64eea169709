import SourceLayout.Proofs.Syntax.Sorting
import SourceLayout.Proofs.Toy.Reading

/-! # Where the parser stands in the text

What the parser has read and what is left make up the text. So nodes and comments start and end
between two characters, a comment starts with a slash, and the comments of the tree are in order.
-/

namespace SourceLayout

def Text.IsCut (text : Text) (i : Nat) : Prop := ∃ a b, text = a ++ b ∧ i = a.byteSize

namespace Text

variable {text : Text} {i j : Nat}

theorem isCut_zero (text : Text) : text.IsCut 0 := ⟨[], text, rfl, rfl⟩

theorem exists_append_of_byteSize_le {a a' b b' : Text} (h : a ++ b = a' ++ b')
    (hle : a.byteSize ≤ a'.byteSize) : ∃ m, a' = a ++ m := by
  rcases List.append_eq_append_iff.mp h with ⟨m, rfl, -⟩ | ⟨m, rfl, -⟩
  · exact ⟨m, rfl⟩
  · have hm : m = [] := by
      cases m with
      | nil => rfl
      | cons c m =>
        have hc := c.utf8Size_pos
        rw [byteSize_append, byteSize_cons] at hle
        omega
    exact ⟨[], by simp [hm]⟩

theorem mem_slice {a b : Text} {c : Char} (htext : text = a ++ c :: b) (hi : text.IsCut i)
    (hj : text.IsCut j) (hia : i ≤ a.byteSize) (haj : a.byteSize < j) : c ∈ text.slice i j := by
  obtain ⟨before, after, htext', rfl⟩ := hi
  obtain ⟨before', after', htext'', rfl⟩ := hj
  obtain ⟨m, rfl⟩ := exists_append_of_byteSize_le (htext'.symm.trans htext) hia
  obtain ⟨m', rfl⟩ := exists_append_of_byteSize_le (htext.symm.trans htext'') (Nat.le_of_lt haj)
  have hrest : c :: b = m' ++ after' := by
    rw [htext''] at htext
    simpa using htext.symm
  cases m' with
  | nil => simp at haj
  | cons d m' =>
    obtain ⟨rfl, rfl⟩ := List.cons.inj hrest
    have hslice : text.between? before.byteSize (before ++ m ++ c :: m').byteSize =
        some (m ++ c :: m') := by
      rw [between?_eq_some_iff]
      exact ⟨before, after', by simp [htext''], rfl, by simp⟩
    rw [slice, hslice]
    exact List.mem_append_right _ List.mem_cons_self

end Text

namespace Toy

/-- A property of readers that no step of reading destroys. -/
structure Reader.Kept (I : Reader → Prop) : Prop where
  skip : ∀ r n, I r → I (r.skip n)
  lineComment : ∀ r rest, r.rest = '/' :: '/' :: rest → I r →
    I (r.comment .line (lineLength r.rest))
  blockComment : ∀ r rest, r.rest = '/' :: '*' :: rest → I r →
    I (r.comment .block (blockLength r.rest))
  ident : ∀ r, word r.rest ≠ [] → I r →
    I ((r.skip (word r.rest).length).node "Ident" r.offset [("name", .str (word r.rest))]).2
  quasi : ∀ r raw, raw <+: r.rest → I r →
    I ((r.skip raw.length).node "Quasi" r.offset [("raw", .str raw)]).2
  embed : ∀ r opened lang code rest, r.rest = '%' :: rest →
    code = opened.rest.takeWhile (· != '\x7d') ∧ code ≠ opened.rest → I r → I opened →
    I (((opened.skip code.length).skip 1).node "Embed" r.offset
      [("lang", .str lang), ("code", .str code)]).2
  bracket : ∀ r after kind fields first rest, r.rest = first :: rest →
    first = '(' ∧ kind = "List" ∨ first = '"' ∧ kind = "Template" →
    I r → I after → I (after.node kind r.offset fields).2

namespace Reader.Kept

variable {I : Reader → Prop} (hI : Reader.Kept I) {r r' : Reader} {fuel : Nat}
include hI

theorem expect (h : I r) {c : Char} (hr : r.expect c = .ok r') : I r' := by
  unfold Reader.expect at hr
  split at hr
  · obtain rfl := Except.ok.inj hr
    exact hI.skip r 1 h
  · cases hr

theorem triviaWithin (h : I r) (steps : Text) : I (triviaWithin steps r) := by
  induction steps generalizing r with
  | nil => exact h
  | cons _ steps ih =>
    rw [Toy.triviaWithin]
    split
    · rename_i hr
      exact ih (hI.blockComment r _ hr h)
    · rename_i hr
      exact ih (hI.lineComment r _ hr h)
    · split
      · exact ih (hI.skip r 1 h)
      · exact h
    · exact h

theorem trivia (h : I r) : I (trivia r) := hI.triviaWithin h r.rest

theorem block (h : I r) {rest : Text} (hrest : r.rest = '%' :: rest) {result : NodeId × Reader}
    (hr : block r.offset (r.skip 1) = .ok result) : I result.2 := by
  unfold Toy.block at hr
  obtain ⟨opened, hopened, hr⟩ := bind_eq_ok_iff.mp hr
  dsimp only at hr
  split at hr
  · cases hr
  · rename_i hclosing
    obtain rfl := pure_eq_ok_iff.mp hr
    refine hI.embed r opened _ _ rest hrest ⟨rfl, fun hcode => hclosing ?_⟩ h
      (hI.expect (hI.skip _ _ (hI.skip r 1 h)) hopened)
    rw [hcode, Reader.skip, List.drop_length]
    rfl

theorem readQuasi (h : I r) {result : NodeId × Reader} (hr : Toy.quasi r = .ok result) :
    I result.2 := by
  unfold Toy.quasi at hr
  dsimp only at hr
  split at hr
  · cases hr
  · obtain rfl := pure_eq_ok_iff.mp hr
    exact hI.quasi r _ (List.takeWhile_prefix _) h

theorem item_succ (hlist : ∀ r result, listItems fuel r = .ok result → I r → I result.2)
    (hparts : ∀ r result, templateParts fuel r = .ok result → I r → I result.2.2)
    (h : I r) {result : NodeId × Reader} (hr : item (fuel + 1) r = .ok result) : I result.2 := by
  unfold item at hr
  split at hr
  · rename_i hrest
    obtain ⟨⟨values, after⟩, hitems, hr⟩ := bind_eq_ok_iff.mp hr
    obtain rfl := pure_eq_ok_iff.mp hr
    exact hI.bracket r after _ _ _ _ hrest (.inl ⟨rfl, rfl⟩) h (hlist _ _ hitems (hI.skip r 1 h))
  · rename_i hrest
    obtain ⟨⟨quasis, expressions, after⟩, hparts', hr⟩ := bind_eq_ok_iff.mp hr
    obtain rfl := pure_eq_ok_iff.mp hr
    exact hI.bracket r after _ _ _ _ hrest (.inr ⟨rfl, rfl⟩) h (hparts _ _ hparts' (hI.skip r 1 h))
  · rename_i hrest
    exact hI.block h hrest hr
  · dsimp only at hr
    split at hr
    · cases hr
    · rename_i hname
      obtain rfl := Except.ok.inj hr
      exact hI.ident r (by simpa using hname) h

theorem listItems_succ (hitem : ∀ r result, item fuel r = .ok result → I r → I result.2)
    (hlist : ∀ r result, listItems fuel r = .ok result → I r → I result.2)
    (h : I r) {result : List Value × Reader} (hr : listItems (fuel + 1) r = .ok result) :
    I result.2 := by
  unfold listItems at hr
  dsimp only at hr
  split at hr
  · cases hr
  · obtain rfl := Except.ok.inj hr
    exact hI.skip _ 1 (hI.trivia h)
  · obtain ⟨⟨first, after⟩, hfirst, hr⟩ := bind_eq_ok_iff.mp hr
    obtain ⟨⟨others, last⟩, hothers, hr⟩ := bind_eq_ok_iff.mp hr
    obtain rfl := pure_eq_ok_iff.mp hr
    have hlast := hlist _ _ hothers (hitem _ _ hfirst (hI.trivia h))
    exact hlast

theorem templateParts_succ (hitem : ∀ r result, item fuel r = .ok result → I r → I result.2)
    (hparts : ∀ r result, templateParts fuel r = .ok result → I r → I result.2.2)
    (h : I r) {result : List Value × List Value × Reader}
    (hr : templateParts (fuel + 1) r = .ok result) : I result.2.2 := by
  unfold templateParts at hr
  obtain ⟨⟨q, literal⟩, hliteral, hr⟩ := bind_eq_ok_iff.mp hr
  have hquasi := hI.readQuasi h hliteral
  dsimp only at hr
  split at hr
  · obtain rfl := pure_eq_ok_iff.mp hr
    exact hI.skip _ 1 hquasi
  · obtain ⟨opened, hopened, hr⟩ := bind_eq_ok_iff.mp hr
    obtain ⟨⟨e, after⟩, hexpression, hr⟩ := bind_eq_ok_iff.mp hr
    obtain ⟨closed, hclosed, hr⟩ := bind_eq_ok_iff.mp hr
    obtain ⟨⟨quasis, expressions, last⟩, hlast, hr⟩ := bind_eq_ok_iff.mp hr
    obtain rfl := pure_eq_ok_iff.mp hr
    have hopened := hI.expect (hI.skip _ 1 hquasi) hopened
    have hinner := hitem _ _ hexpression (hI.trivia hopened)
    have hend := hparts _ _ hlast (hI.expect (hI.trivia hinner) hclosed)
    exact hend

theorem reads (fuel : Nat) :
    (∀ r result, item fuel r = .ok result → I r → I result.2) ∧
    (∀ r result, listItems fuel r = .ok result → I r → I result.2) ∧
    (∀ r result, templateParts fuel r = .ok result → I r → I result.2.2) := by
  induction fuel with
  | zero =>
    refine ⟨fun r result h => ?_, fun r result h => ?_, fun r result h => ?_⟩
    · unfold item at h; cases h
    · unfold listItems at h; cases h
    · unfold templateParts at h; cases h
  | succ fuel ih =>
    obtain ⟨hitem, hlist, hparts⟩ := ih
    exact ⟨fun r result hr h => hI.item_succ hlist hparts h hr,
      fun r result hr h => hI.listItems_succ hitem hlist h hr,
      fun r result hr h => hI.templateParts_succ hitem hparts h hr⟩

theorem items (h : I r) {result : List Value × Reader} (hr : items fuel r = .ok result) :
    I result.2 := by
  induction fuel generalizing r result with
  | zero => cases hr
  | succ fuel ih =>
    unfold Toy.items at hr
    dsimp only at hr
    split at hr
    · obtain rfl := Except.ok.inj hr
      exact hI.trivia h
    · obtain ⟨⟨first, after⟩, hfirst, hr⟩ := bind_eq_ok_iff.mp hr
      obtain ⟨⟨others, last⟩, hothers, hr⟩ := bind_eq_ok_iff.mp hr
      obtain rfl := pure_eq_ok_iff.mp hr
      have hlast : I (others, last).2 := ih ((hI.reads fuel).1 _ _ hfirst (hI.trivia h)) hothers
      exact hlast

end Reader.Kept

/-- A tree that was parsed is what a reader has made at the end of the text. -/
theorem parse_eq_ok {text : Text} {t : Tree} (h : parse text = .ok t) : ∃ body r,
    items (2 * text.length + 2) (.ofText text) = .ok (body, r) ∧
      t = (r.node "Program" 0 [("body", .list body)]).2.tree.finish r.tree.nodes.size := by
  unfold parse at h
  obtain ⟨⟨body, r⟩, hitems, h⟩ := bind_eq_ok_iff.mp h
  exact ⟨body, r, hitems, (pure_eq_ok_iff.mp h).symm⟩

theorem Reader.Kept.exists_of_parse {I : Reader → Prop} (hI : Reader.Kept I) {text : Text}
    {t : Tree} (h : I (.ofText text)) (hparse : parse text = .ok t) : ∃ body r, I r ∧
      t = (r.node "Program" 0 [("body", .list body)]).2.tree.finish r.tree.nodes.size := by
  obtain ⟨body, r, hitems, ht⟩ := parse_eq_ok hparse
  exact ⟨body, r, hI.items h hitems, ht⟩

/-- What has been read and what is left make up the text, and all offsets of the tree are
offsets in the text. -/
structure Reader.Traced (text : Text) (r : Reader) : Prop where
  source : r.tree.source = .ofText text
  read : ∃ done, text = done ++ r.rest ∧ r.offset = done.byteSize
  starts : ∀ n ∈ r.tree.nodes, text.IsCut n.span.start
  comments : ∀ c ∈ r.tree.comments, text.IsCut c.span.stop ∧
    ∃ a b, text = a ++ '/' :: b ∧ c.span.start = a.byteSize
  ended : ∀ c ∈ r.tree.comments, c.span.start ≤ c.span.stop ∧ c.span.stop ≤ r.offset
  inOrder : r.tree.comments.toList.Pairwise fun c d => c.span.stop ≤ d.span.start

namespace Reader.Traced

variable {text : Text} {r : Reader}

theorem ofText (text : Text) : (Reader.ofText text).Traced text where
  source := rfl
  read := ⟨[], rfl, rfl⟩
  starts _ hn := nomatch hn
  comments _ hc := nomatch hc
  ended _ hc := nomatch hc
  inOrder := .nil

theorem isCut_offset (h : r.Traced text) : text.IsCut r.offset := by
  obtain ⟨done, htext, hoffset⟩ := h.read
  exact ⟨done, r.rest, htext, hoffset⟩

theorem skip (h : r.Traced text) (n : Nat) : (r.skip n).Traced text where
  source := h.source
  read := by
    obtain ⟨done, htext, hoffset⟩ := h.read
    refine ⟨done ++ r.rest.take n, ?_, ?_⟩
    · rw [List.append_assoc, Reader.skip, List.take_append_drop]
      exact htext
    · rw [Text.byteSize_append, Reader.skip, hoffset]
  starts := h.starts
  comments := h.comments
  ended c hc := ⟨(h.ended c hc).1, Nat.le_trans (h.ended c hc).2 (Nat.le_add_right ..)⟩
  inOrder := h.inOrder

theorem comment (h : r.Traced text) {rest : Text} (hr : r.rest = '/' :: rest) (kind : CommentKind)
    (n : Nat) : (r.comment kind n).Traced text := by
  have hskip := h.skip n
  refine ⟨hskip.source, hskip.read, hskip.starts, fun c hc => ?_, fun c hc => ?_, ?_⟩
  · rcases Array.mem_push.mp hc with hc | rfl
    · exact h.comments c hc
    · obtain ⟨done, htext, hoffset⟩ := h.read
      exact ⟨hskip.isCut_offset, done, rest, hr ▸ htext, hoffset⟩
  · rcases Array.mem_push.mp hc with hc | rfl
    · exact hskip.ended c hc
    · exact ⟨Nat.le_add_right .., Nat.le_refl _⟩
  · change (r.tree.comments.push _).toList.Pairwise _
    rw [Array.toList_push, List.pairwise_append]
    refine ⟨h.inOrder, List.pairwise_singleton .., fun c hc d hd => ?_⟩
    rw [List.mem_singleton.mp hd]
    exact (h.ended c (Array.mem_toList_iff.mp hc)).2

theorem node (h : r.Traced text) {start : Nat} (hstart : text.IsCut start) (kind : String)
    (fields : List (String × Value)) : (r.node kind start fields).2.Traced text where
  source := h.source
  read := h.read
  starts n hn := by
    rcases Array.mem_push.mp hn with hn | rfl
    · exact h.starts n hn
    · exact hstart
  comments := h.comments
  ended := h.ended
  inOrder := h.inOrder

theorem kept (text : Text) : Reader.Kept (Reader.Traced text) where
  skip _ n h := h.skip n
  lineComment _ _ hr h := h.comment hr _ _
  blockComment _ _ hr h := h.comment hr _ _
  ident _ _ h := (h.skip _).node h.isCut_offset _ _
  quasi _ _ _ h := (h.skip _).node h.isCut_offset _ _
  embed _ _ _ _ _ _ _ h hopened := ((hopened.skip _).skip 1).node h.isCut_offset _ _
  bracket _ _ _ _ _ _ _ _ h hafter := hafter.node h.isCut_offset _ _

end Reader.Traced

/-- The offsets of a tree are offsets in its text: a comment starts with a slash there, and the
comments come one behind the other. -/
structure Laid (text : Text) (t : Tree) : Prop where
  source : t.source = .ofText text
  starts : ∀ n < t.nodes.size, text.IsCut (t.node n).span.start
  stops : ∀ c ∈ t.commentIds, text.IsCut (t.comment c).span.stop
  slashes : ∀ c ∈ t.commentIds, ∃ a b, text = a ++ '/' :: b ∧ (t.comment c).span.start = a.byteSize
  inOrder : ∀ c ∈ t.commentIds, ∀ d ∈ t.commentIds, c < d →
    (t.comment c).span.stop ≤ (t.comment d).span.start

/-- Comments are read in the order of their spans, so sorting them changes nothing. -/
theorem Reader.Traced.comments_finish {text : Text} {r : Reader} (h : r.Traced text)
    (root : NodeId) : (r.tree.finish root).comments = r.tree.comments := by
  have hordered : r.tree.comments.toList.Pairwise fun c d => c.span.le d.span := by
    refine h.inOrder.imp_of_mem fun {c d} hc hd hcd => ?_
    have hc := (h.ended c (Array.mem_toList_iff.mp hc)).1
    have hd := (h.ended d (Array.mem_toList_iff.mp hd)).1
    rw [Span.le_iff]
    omega
  rw [Sapling.finish, sortBySpan_eq_self hordered, Array.toArray_toList]

theorem Reader.Traced.laid {text : Text} {r : Reader} (h : r.Traced text) (root : NodeId) :
    Laid text (r.tree.finish root) := by
  refine ⟨h.source, fun n hn => ?_, fun c hc => ?_, fun c hc => ?_, fun c hc d hd hcd => ?_⟩
  · exact h.starts _ (node_finish_mem hn)
  · exact (h.comments _ (comment_finish_mem hc)).1
  · exact (h.comments _ (comment_finish_mem hc)).2
  · simp only [Tree.commentIds, List.mem_range, h.comments_finish root] at hc hd
    have hpair := List.pairwise_iff_getElem.mp h.inOrder c d hc hd hcd
    rw [Array.getElem_toList, Array.getElem_toList] at hpair
    simpa [Tree.comment, h.comments_finish root, Array.getD_eq_getD_getElem?, hc, hd] using hpair

theorem laid_of_parse {text : Text} {t : Tree} (h : parse text = .ok t) : Laid text t := by
  obtain ⟨body, r, htraced, rfl⟩ := (Reader.Traced.kept text).exists_of_parse (.ofText text) h
  exact (htraced.node text.isCut_zero "Program" [("body", .list body)]).laid _

namespace Laid

variable {text : Text} {t : Tree} (h : Laid text t)
include h

theorem slash_mem_slice {c : CommentId} (hc : c ∈ t.commentIds) {i j : Nat} (hi : text.IsCut i)
    (hj : text.IsCut j) (hic : i ≤ (t.comment c).span.start) (hcj : (t.comment c).span.start < j) :
    '/' ∈ t.source.slice i j := by
  obtain ⟨a, b, htext, hstart⟩ := h.slashes c hc
  rw [hstart] at hic hcj
  rw [Source.slice_eq, h.source, Source.text_ofText]
  exact Text.mem_slice htext hi hj hic hcj

theorem isCut_start {c : CommentId} (hc : c ∈ t.commentIds) :
    text.IsCut (t.comment c).span.start := by
  obtain ⟨a, b, htext, hstart⟩ := h.slashes c hc
  exact ⟨a, _, htext, hstart⟩

end Laid

end Toy

end SourceLayout
