import SourceLayout.Proofs.Pass.Comments
import SourceLayout.Proofs.Toy.Offsets

/-! # What the text says of nodes and comments

A line comment is written with two slashes and a block comment with a slash and a star. An item
shows some character that ends no line, and an embedded block ends at the first brace behind it,
so its code holds no other block.
-/

namespace SourceLayout

def Text.ShowsAt (text : Text) (i : Nat) : Prop :=
  ∃ (a b : Text) (c : Char), text = a ++ c :: b ∧ i = a.byteSize ∧ isLineBreak c = false

namespace Toy

open Text (isLineBreak)

structure Spelt (text : Text) (n : Node) : Prop where
  stop : text.IsCut n.span.stop
  item : n.kind ∈ itemKinds → text.ShowsAt n.span.start
  name : n.kind = "Ident" → ∀ name, n.text? "name" = some name → name ≠ [] ∧ name.getLast? ≠ some '\n'
  code : n.kind = "Embed" → '\x7d' ∈ text ∧ ∀ code, n.text? "code" = some code → '\x7d' ∉ code

def Comment.Spelt (c : Comment) : Prop :=
  ∃ second rest, c.text = '/' :: second :: rest ∧
    (second = '/' ∧ c.kind = .line ∨ second = '*' ∧ c.kind = .block)

structure Reader.Spelled (text : Text) (r : Reader) : Prop where
  traced : r.Traced text
  nodes : ∀ n ∈ r.tree.nodes, Spelt text n
  comments : ∀ c ∈ r.tree.comments, Comment.Spelt c

namespace Reader

variable {text : Text} {r : Reader}

theorem Traced.slice_skip (h : r.Traced text) (n : Nat) :
    r.tree.source.slice r.offset (r.skip n).offset = r.rest.take n := by
  obtain ⟨done, htext, hoffset⟩ := h.read
  have hbetween : text.between? r.offset (r.skip n).offset = some (r.rest.take n) := by
    rw [Text.between?_eq_some_iff]
    refine ⟨done, r.rest.drop n, ?_, hoffset, ?_⟩
    · rw [List.append_assoc, List.take_append_drop]
      exact htext
    · rw [Reader.skip, hoffset]
  rw [Source.slice_eq, h.source, Source.text_ofText, Text.slice, hbetween]
  rfl

theorem take_lineLength (rest : Text) : ∃ others,
    List.take (lineLength ('/' :: '/' :: rest)) ('/' :: '/' :: rest) = '/' :: '/' :: others :=
  ⟨_, rfl⟩

theorem take_blockLength (rest : Text) : ∃ others,
    List.take (blockLength ('/' :: '*' :: rest)) ('/' :: '*' :: rest) = '/' :: '*' :: others := by
  have hlength : ∃ k, blockLength ('*' :: rest) = k + 1 := by
    unfold blockLength
    split
    · rename_i h
      cases h
    · exact ⟨1, rfl⟩
    · exact ⟨_, rfl⟩
  obtain ⟨k, hk⟩ := hlength
  refine ⟨rest.take k, ?_⟩
  rw [blockLength, hk]
  · rfl
  · simp

theorem not_isLineBreak_of_isWordChar {c : Char} (hc : isWordChar c = true) :
    isLineBreak c = false := by
  by_contra hbreak
  simp only [isLineBreak, Bool.not_eq_false, Bool.or_eq_true, beq_iff_eq, or_assoc] at hbreak
  rcases hbreak with rfl | rfl | rfl | rfl <;> cases hc

namespace Spelled

theorem ofText (text : Text) : (Reader.ofText text).Spelled text :=
  ⟨.ofText text, fun _ hn => (nomatch hn), fun _ hc => (nomatch hc)⟩

theorem skip (h : r.Spelled text) (n : Nat) : (r.skip n).Spelled text :=
  ⟨h.traced.skip n, h.nodes, h.comments⟩

theorem comment (h : r.Spelled text) {second : Char} {rest : Text}
    (hr : r.rest = '/' :: second :: rest)
    {kind : CommentKind} {n : Nat} (hn : ∃ others, r.rest.take n = '/' :: second :: others)
    (hkind : second = '/' ∧ kind = .line ∨ second = '*' ∧ kind = .block) :
    (r.comment kind n).Spelled text := by
  refine ⟨h.traced.comment hr kind n, h.nodes, fun c hc => ?_⟩
  rcases Array.mem_push.mp hc with hc | rfl
  · exact h.comments c hc
  · obtain ⟨others, htake⟩ := hn
    exact ⟨second, others, (h.traced.slice_skip n).trans htake, hkind⟩

theorem node (h : r.Spelled text) {start : Nat} (hstart : text.IsCut start) {kind : String}
    {fields : List (String × Value)} (hn : Spelt text ⟨kind, ⟨start, r.offset⟩, fields⟩) :
    (r.node kind start fields).2.Spelled text := by
  refine ⟨h.traced.node hstart kind fields, fun n hn' => ?_, h.comments⟩
  rcases Array.mem_push.mp hn' with hn' | rfl
  · exact h.nodes n hn'
  · exact hn

theorem showsAt_offset (h : r.Spelled text) {c : Char} {rest : Text} (hr : r.rest = c :: rest)
    (hc : isLineBreak c = false) : text.ShowsAt r.offset := by
  obtain ⟨done, htext, hoffset⟩ := h.traced.read
  exact ⟨done, rest, c, hr ▸ htext, hoffset, hc⟩

theorem kept (text : Text) : Reader.Kept (Reader.Spelled text) where
  skip _ n h := h.skip n
  lineComment r rest hr h := h.comment hr (by rw [hr]; exact take_lineLength rest) (.inl ⟨rfl, rfl⟩)
  blockComment r rest hr h :=
    h.comment hr (by rw [hr]; exact take_blockLength rest) (.inr ⟨rfl, rfl⟩)
  ident r hword h := by
    have hskip := h.skip (word r.rest).length
    obtain ⟨c, rest, hr⟩ := List.exists_cons_of_ne_nil (show r.rest ≠ [] from fun hr =>
      hword (by rw [hr]; rfl))
    have hchar : ∀ c ∈ word r.rest, isWordChar c = true := fun c hc => List.mem_takeWhile_imp hc
    have hc : isWordChar c = true := by
      by_contra hc
      exact hword (by rw [hr, word, List.takeWhile_cons_of_neg hc])
    refine hskip.node h.traced.isCut_offset ⟨hskip.traced.isCut_offset, fun _ => ?_, ?_, ?_⟩
    · exact h.showsAt_offset hr (not_isLineBreak_of_isWordChar hc)
    · rintro - name hname
      obtain rfl : word r.rest = name := Option.some.inj hname
      refine ⟨hword, fun hlast => ?_⟩
      cases hchar _ (List.mem_of_getLast? hlast)
    · simp
  quasi r raw _ h := by
    refine (h.skip _).node h.traced.isCut_offset ⟨(h.skip _).traced.isCut_offset, ?_, ?_, ?_⟩
    all_goals simp [itemKinds]
  embed r opened lang code rest hr hcode h hopened := by
    have hskip := (hopened.skip code.length).skip 1
    obtain ⟨hcode, hne⟩ := hcode
    refine hskip.node h.traced.isCut_offset
      ⟨hskip.traced.isCut_offset, fun _ => ?_, ?_, fun _ => ?_⟩
    · exact h.showsAt_offset hr (by decide)
    · simp
    · constructor
      · obtain ⟨done, htext, -⟩ := hopened.traced.read
        rw [hcode, Ne, List.takeWhile_eq_self_iff] at hne
        push Not at hne
        obtain ⟨c, hc, hbrace⟩ := hne
        obtain rfl : c = '\x7d' := by simpa using hbrace
        rw [htext]
        exact List.mem_append_right _ hc
      · rintro _ hcode'
        obtain rfl : code = _ := Option.some.inj hcode'
        rw [hcode]
        intro hmem
        have := List.mem_takeWhile_imp hmem
        simp at this
  bracket r after kind fields first rest hr hfirst h hafter := by
    refine hafter.node h.traced.isCut_offset ⟨hafter.traced.isCut_offset, fun _ => ?_, ?_, ?_⟩
    · refine h.showsAt_offset hr ?_
      rcases hfirst with ⟨rfl, -⟩ | ⟨rfl, -⟩ <;> decide
    · rcases hfirst with ⟨-, rfl⟩ | ⟨-, rfl⟩ <;> simp
    · rcases hfirst with ⟨-, rfl⟩ | ⟨-, rfl⟩ <;> simp

end Spelled

end Reader

/-- What the text of a tree says of its nodes and comments. -/
structure Spelling (text : Text) (t : Tree) : Prop where
  nodes : ∀ n < t.nodes.size, Spelt text (t.node n)
  comments : ∀ c ∈ t.commentIds, Comment.Spelt (t.comment c)

theorem Reader.Spelled.spelling {text : Text} {r : Reader} (h : r.Spelled text) (root : NodeId) :
    Spelling text (r.tree.finish root) := by
  constructor
  · exact fun n hn => h.nodes _ (node_finish_mem hn)
  · exact fun c hc => h.comments _ (comment_finish_mem hc)

theorem spelling_of_parse {text : Text} {t : Tree} (h : parse text = .ok t) : Spelling text t := by
  obtain ⟨body, r, hspelled, rfl⟩ := (Reader.Spelled.kept text).exists_of_parse (.ofText text) h
  have hroot : (r.node "Program" 0 [("body", .list body)]).2.Spelled text := by
    refine hspelled.node text.isCut_zero ⟨hspelled.traced.isCut_offset, ?_, ?_, ?_⟩
    all_goals simp [itemKinds]
  exact hroot.spelling _

variable {text : Text} {t : Tree} (h : parse text = .ok t)
include h

theorem exists_mem_slice {n : NodeId} (hn : n < t.nodes.size) (hk : (t.node n).kind ∈ itemKinds) :
    ∃ c ∈ t.slice (t.node n).span, isLineBreak c = false := by
  have hspelt := (spelling_of_parse h).nodes n hn
  have hlaid := laid_of_parse h
  have hlt := ((parsed_of_parse h).shaped n hn).start_lt_stop hk
  obtain ⟨a, b, c, htext, hstart, hc⟩ := hspelt.item hk
  refine ⟨c, ?_, hc⟩
  rw [Tree.slice, Source.slice_eq, hlaid.source, Source.text_ofText]
  exact Text.mem_slice htext (hlaid.starts n hn) hspelt.stop (Nat.le_of_eq hstart) (hstart ▸ hlt)

theorem kind_ne_embed (hbrace : '\x7d' ∉ text) {n : NodeId} (hn : n < t.nodes.size) :
    (t.node n).kind ≠ "Embed" :=
  fun hk => hbrace (((spelling_of_parse h).nodes n hn).code hk).1

theorem isLineComment_comment [TextWidth] {c : CommentId} (hc : c ∈ t.commentIds) :
    (Doc.linesOf (t.comment c).text).isLineComment = ((t.comment c).kind == .line) := by
  obtain ⟨second, rest, htext, ⟨rfl, hkind⟩ | ⟨rfl, hkind⟩⟩ := (spelling_of_parse h).comments c hc
  · rw [htext, hkind, Doc.isLineComment_linesOf (by decide)]
    rfl
  · rw [htext, hkind, Doc.isLineComment_linesOf (by decide)]
    rfl

end Toy

end SourceLayout
