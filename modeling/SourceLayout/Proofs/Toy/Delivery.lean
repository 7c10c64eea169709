import SourceLayout.Proofs.Toy.Spelling

/-! # What the parser delivers

All that the placing of comments takes for granted holds of the trees that are read: they are well
nested, every list and template stands in the order of the text, all offsets fall between two
characters, and the comments are found in the order they are kept in.
-/

namespace SourceLayout.Toy

variable {text : Text} {t : Tree} {r : Reader} {look : NodeId → Node}

section Order

/-- The first elements of two lists, the second ones, and so on. -/
def alternate : List NodeId → List NodeId → List NodeId
  | q :: qs, e :: es => q :: e :: alternate qs es
  | qs, [] => qs
  | [], es => es

theorem alternate_cons (q e : NodeId) (qs es : List NodeId) :
    alternate (q :: qs) (e :: es) = q :: e :: alternate qs es := rfl

theorem sublist_alternate (qs es : List NodeId) : es.Sublist (alternate qs es) := by
  fun_induction alternate qs es with
  | case1 q qs e es ih => exact (ih.cons_cons e).cons q
  | case2 qs => exact List.nil_sublist qs
  | case3 es => exact List.Sublist.refl es

variable (look) in
/-- The nodes stand in the order of the text, without overlaps. -/
def InOrder (ns : List NodeId) : Prop :=
  ns.Pairwise fun n m => (look n).span.stop ≤ (look m).span.start

/-- In a template each expression lies between two literal parts. -/
theorem isChain_alternate {qs es : List NodeId} (hlength : qs.length = es.length + 1)
    (hhole : ∀ i e, es[i]? = some e → Hole look qs i (look e).span) :
    (alternate qs es).IsChain fun n m => (look n).span.stop ≤ (look m).span.start := by
  induction es generalizing qs with
  | nil =>
    obtain ⟨q, rfl⟩ := List.length_eq_one_iff.mp hlength
    exact .singleton q
  | cons e es ih =>
    obtain ⟨q, qs, rfl⟩ := List.exists_cons_of_length_eq_add_one hlength
    have hlength : qs.length = es.length + 1 := Nat.succ.inj hlength
    have htail := ih hlength fun i e' he' => hhole (i + 1) e' he'
    obtain ⟨q₀, q₁, hq₀, hq₁, hopen, hclose⟩ := hhole 0 e rfl
    obtain rfl : q = q₀ := Option.some.inj hq₀
    have hhead : (alternate qs es).head? = some q₁ := by
      obtain ⟨q', qs, rfl⟩ := List.exists_cons_of_length_eq_add_one hlength
      obtain rfl : q' = q₁ := Option.some.inj hq₁
      cases es <;> rfl
    obtain ⟨ns, hns⟩ := List.head?_eq_some_iff.mp hhead
    rw [alternate_cons, hns]
    rw [hns] at htail
    exact .cons_cons (by omega) (.cons_cons (by omega) htail)

variable (hforward : ∀ n, (look n).span.start ≤ (look n).span.stop)
include hforward

theorem Woven.inOrder_alternate {span : Span} {qs es : List NodeId}
    (h : Woven look span qs es) : InOrder look (alternate qs es) := by
  have htrans : IsTrans NodeId fun n m => (look n).span.stop ≤ (look m).span.start :=
    ⟨fun n m k hnm hmk => Nat.le_trans hnm (Nat.le_trans (hforward m) hmk)⟩
  exact List.isChain_iff_pairwise.mp (isChain_alternate h.length_eq h.hole)

theorem Shaped.inOrder {n : Node} (h : Shaped look n) :
    ∀ field ∈ n.fields, InOrder look field.2.nodes := by
  cases h with
  | ident | quasi | embed => simp [Value.nodes, InOrder]
  | list _ hr | program _ hr => simpa [Value.nodes, InOrder] using hr.inOrder
  | template _ hw =>
    have hexpressions := (hw.inOrder_alternate hforward).sublist (sublist_alternate _ _)
    simpa [Value.nodes, InOrder] using And.intro hw.inOrder hexpressions

omit hforward in
theorem Shaped.exists_woven_fields {n : Node} (h : Shaped look n) (hk : n.kind = "Template") :
    ∃ qs es : List NodeId, n.fields =
        [("quasis", .list (qs.map .node)), ("expressions", .list (es.map .node))] ∧
      Woven look n.span.interior qs es := by
  cases h with
  | ident | embed | quasi | list | program => simp at hk
  | @template span qs es _ hw => exact ⟨qs, es, rfl, hw⟩

end Order

section Quoted

/-- The text of an identifier or of a literal part is what is written between its ends. -/
structure Quoted (text : Text) (n : Node) : Prop where
  ident : n.kind = "Ident" → n.text? "name" = some (text.slice n.span.start n.span.stop)
  quasi : n.kind = "Quasi" → n.text? "raw" = some (text.slice n.span.start n.span.stop)

theorem quoted_of_kind {kind : String} {span : Span} {fields : List (String × Value)}
    (hkind : kind ∉ ["Ident", "Quasi"]) : Quoted text ⟨kind, span, fields⟩ := by
  constructor <;> (rintro rfl; simp at hkind)

structure Reader.Quotes (text : Text) (r : Reader) : Prop where
  traced : r.Traced text
  nodes : ∀ n ∈ r.tree.nodes, Quoted text n

namespace Reader

theorem Traced.slice_of_prefix (h : r.Traced text) {front : Text} (hfront : front <+: r.rest) :
    text.slice r.offset (r.skip front.length).offset = front := by
  have hslice := h.slice_skip front.length
  rwa [Source.slice_eq, h.source, Source.text_ofText, ← List.prefix_iff_eq_take.mp hfront] at hslice

namespace Quotes

theorem ofText (text : Text) : (Reader.ofText text).Quotes text := ⟨.ofText text, nofun⟩

theorem skip (h : r.Quotes text) (n : Nat) : (r.skip n).Quotes text := ⟨h.traced.skip n, h.nodes⟩

theorem node (h : r.Quotes text) {start : Nat} (hstart : text.IsCut start) {kind : String}
    {fields : List (String × Value)} (hn : Quoted text ⟨kind, ⟨start, r.offset⟩, fields⟩) :
    (r.node kind start fields).2.Quotes text := by
  refine ⟨h.traced.node hstart kind fields, fun n hmem => ?_⟩
  rcases Array.mem_push.mp hmem with hmem | rfl
  · exact h.nodes n hmem
  · exact hn

theorem kept (text : Text) : Reader.Kept (Reader.Quotes text) where
  skip _ n h := h.skip n
  lineComment _ _ hr h := ⟨h.traced.comment hr _ _, h.nodes⟩
  blockComment _ _ hr h := ⟨h.traced.comment hr _ _, h.nodes⟩
  ident r _ h := by
    have hslice := h.traced.slice_of_prefix (List.takeWhile_prefix isWordChar)
    exact (h.skip _).node h.traced.isCut_offset
      ⟨fun _ => congrArg some hslice.symm, fun hk => absurd hk (by simp)⟩
  quasi r raw hraw h := by
    have hslice := h.traced.slice_of_prefix hraw
    exact (h.skip _).node h.traced.isCut_offset
      ⟨fun hk => absurd hk (by simp), fun _ => congrArg some hslice.symm⟩
  embed _ _ _ _ _ _ _ h hopened :=
    ((hopened.skip _).skip 1).node h.traced.isCut_offset (quoted_of_kind (by decide))
  bracket _ _ _ _ _ _ _ hkind h hafter := by
    apply hafter.node h.traced.isCut_offset
    rcases hkind with ⟨-, rfl⟩ | ⟨-, rfl⟩ <;> exact quoted_of_kind (by decide)

end Quotes

end Reader

theorem quoted_of_parse (h : parse text = .ok t) : ∀ n < t.nodes.size, Quoted text (t.node n) := by
  obtain ⟨body, r, hquotes, rfl⟩ := (Reader.Quotes.kept text).exists_of_parse (.ofText text) h
  have hroot : (r.node "Program" 0 [("body", .list body)]).2.Quotes text :=
    hquotes.node text.isCut_zero (quoted_of_kind (by decide))
  exact fun n hn => hroot.nodes _ (node_finish_mem hn)

end Quoted

section Root

theorem rest_eq_nil_of_items {fuel : Nat} {result : List Value × Reader}
    (h : items fuel r = .ok result) : result.2.rest = [] := by
  induction fuel generalizing r result with
  | zero => cases h
  | succ fuel ih =>
    unfold items at h
    dsimp only at h
    split at h
    · rename_i hrest
      obtain rfl := Except.ok.inj h
      exact List.isEmpty_iff.mp hrest
    · obtain ⟨⟨first, after⟩, -, h⟩ := bind_eq_ok_iff.mp h
      obtain ⟨⟨others, last⟩, hothers, h⟩ := bind_eq_ok_iff.mp h
      obtain rfl := pure_eq_ok_iff.mp h
      have hlast : (others, last).2.rest = [] := ih hothers
      exact hlast

theorem Reader.Traced.offset_eq (h : r.Traced text) (hrest : r.rest = []) :
    r.offset = text.byteSize := by
  obtain ⟨done, htext, hoffset⟩ := h.read
  rw [htext, hrest, List.append_nil, hoffset]

theorem span_root_of_parse (h : parse text = .ok t) :
    (t.node t.root).span = ⟨0, text.byteSize⟩ := by
  obtain ⟨body, r, hitems, rfl⟩ := parse_eq_ok h
  have htraced : r.Traced text := (Reader.Traced.kept text).items (.ofText text) hitems
  have hlook := Reader.look_node (agrees_finish
    (r.node "Program" 0 [("body", .list body)]).2 r.tree.nodes.size)
  rw [← htraced.offset_eq (rest_eq_nil_of_items hitems)]
  exact congrArg Node.span hlook

end Root

variable (text t) in
/-- What the parser delivers for a text that it accepts. -/
structure Delivered : Prop where
  source : t.source = .ofText text
  wellNested : t.WellNested
  inOrder : ∀ n < t.nodes.size, ∀ field ∈ (t.node n).fields, InOrder t.node field.2.nodes
  template : ∀ n < t.nodes.size, (t.node n).kind = "Template" → ∃ qs es : List NodeId,
    (t.node n).fields =
        [("quasis", .list (qs.map .node)), ("expressions", .list (es.map .node))] ∧
      (∀ q ∈ qs, (t.node q).kind = "Quasi") ∧ qs.length = es.length + 1 ∧
      InOrder t.node (alternate qs es)
  root_lt : t.root < t.nodes.size
  span_root : (t.node t.root).span = ⟨0, text.byteSize⟩
  cuts : ∀ n < t.nodes.size, text.IsCut (t.node n).span.start ∧ text.IsCut (t.node n).span.stop
  quoted : ∀ n < t.nodes.size, Quoted text (t.node n)
  commentCuts : ∀ c ∈ t.commentIds,
    text.IsCut (t.comment c).span.start ∧ text.IsCut (t.comment c).span.stop
  nonempty : ∀ c ∈ t.commentIds, (t.comment c).span.start < (t.comment c).span.stop
  commentsInOrder : t.commentIds.Pairwise fun c d =>
    (t.comment c).span.stop ≤ (t.comment d).span.start
  recorded : ∃ body r, items (2 * text.length + 2) (.ofText text) = .ok (body, r) ∧
    t = (r.node "Program" 0 [("body", .list body)]).2.tree.finish r.tree.nodes.size ∧
    t.comments = r.tree.comments
  insideOrApart : ∀ n < t.nodes.size, ∀ c ∈ t.commentIds,
    (t.node n).span.contains (t.comment c).span = true ∨
      (t.node n).span.Apart (t.comment c).span

/-- Whatever text the parser accepts, it delivers what the placing of comments takes for granted. -/
theorem delivered_of_parse (h : parse text = .ok t) : Delivered text t := by
  have hparsed := parsed_of_parse h
  have hlaid := laid_of_parse h
  have hspelling := spelling_of_parse h
  have hforward := hparsed.wellNested.forward
  constructor
  case source => exact hlaid.source
  case wellNested => exact hparsed.wellNested
  case inOrder => exact fun n hn => (hparsed.shaped n hn).inOrder hforward
  case template =>
    intro n hn hkind
    obtain ⟨qs, es, hfields, hw⟩ := (hparsed.shaped n hn).exists_woven_fields hkind
    exact ⟨qs, es, hfields, hw.isQuasi, hw.length_eq, hw.inOrder_alternate hforward⟩
  case root_lt => exact hparsed.root_lt
  case span_root => exact span_root_of_parse h
  case cuts => exact fun n hn => ⟨hlaid.starts n hn, (hspelling.nodes n hn).stop⟩
  case quoted => exact quoted_of_parse h
  case commentCuts => exact fun c hc => ⟨hlaid.isCut_start hc, hlaid.stops c hc⟩
  case nonempty => exact hparsed.nonempty
  case commentsInOrder =>
    apply List.pairwise_lt_range.imp_of_mem
    exact fun hc hd hcd => hlaid.inOrder _ hc _ hd hcd
  case recorded =>
    obtain ⟨body, r, hitems, ht⟩ := parse_eq_ok h
    have htraced : r.Traced text := (Reader.Traced.kept text).items (.ofText text) hitems
    refine ⟨body, r, hitems, ht, ?_⟩
    rw [ht]
    exact (htraced.node text.isCut_zero "Program" [("body", .list body)]).comments_finish _
  case insideOrApart =>
    intro n hn c hc
    exact (hparsed.clear n hn c hc).symm.imp And.left id

def spacedSample : Text := "(a\u3000/*/b) \"é${/*c*/ d}q\" /*".toList

theorem delivered_of_parse_spacedSample : ∃ t, parse spacedSample = .ok t ∧
    (t.commentIds.map fun c => (t.comment c).span) = [⟨5, 8⟩, ⟨16, 21⟩, ⟨27, 29⟩] ∧
      Delivered spacedSample t := by
  have hreport : (parse spacedSample).toOption.any (fun t => decide
      ((t.commentIds.map fun c => (t.comment c).span) = [⟨5, 8⟩, ⟨16, 21⟩, ⟨27, 29⟩])) = true := by
    decide +kernel
  obtain ⟨t, hparse, hspans⟩ := (Option.any_eq_true _ _).mp hreport
  have hparse := toOption_eq_some_iff.mp hparse
  exact ⟨t, hparse, of_decide_eq_true hspans, delivered_of_parse hparse⟩

end SourceLayout.Toy
