import SourceLayout.Proofs.Outcomes
import SourceLayout.Proofs.Syntax.Sorting
import SourceLayout.Proofs.Toy.Shape

/-! # What the toy parser reads

The parser only moves on: what it has read ends where it stands, and what it reads next starts
there. So a node lies beside the comments read before it, and those read since its start lie in
an open place of it. The tree of every accepted text therefore has the shape of a toy tree.
-/

namespace SourceLayout

theorem Text.one_le_byteSize_take {t : Text} {n : Nat} (ht : t ≠ []) (hn : 0 < n) :
    1 ≤ Text.byteSize (t.take n) := by
  obtain ⟨c, t, rfl⟩ := List.exists_cons_of_ne_nil ht
  obtain ⟨n, rfl⟩ := Nat.exists_eq_add_of_lt hn
  have hc := c.utf8Size_pos
  simp only [Nat.zero_add, List.take_succ_cons, byteSize_cons]
  omega

namespace Toy

variable {look : NodeId → Node} {r r' r'' : Reader}

namespace Reader

def Agrees (look : NodeId → Node) (r : Reader) : Prop :=
  ∀ m, r.tree.nodes.size ≤ m ∨ r.tree.nodes[m]? = some (look m)

/-- Reading on from `r` leads to `r'`. -/
structure Follows (r r' : Reader) : Prop where
  offset_le : r.offset ≤ r'.offset
  nodes : ∃ ns, r'.tree.nodes = r.tree.nodes ++ ns
  later : ∀ c ∈ r'.tree.comments, c ∈ r.tree.comments ∨ r.offset ≤ c.span.start

namespace Follows

theorem trans (h : Follows r r') (h' : Follows r' r'') : Follows r r'' := by
  obtain ⟨ns, hns⟩ := h.nodes
  obtain ⟨ns', hns'⟩ := h'.nodes
  refine ⟨Nat.le_trans h.offset_le h'.offset_le, ⟨ns ++ ns', by rw [hns', hns, Array.append_assoc]⟩,
    fun c hc => ?_⟩
  rcases h'.later c hc with hc | hc
  · exact h.later c hc
  · exact .inr (Nat.le_trans h.offset_le hc)

theorem size_le (h : Follows r r') : r.tree.nodes.size ≤ r'.tree.nodes.size := by
  obtain ⟨ns, hns⟩ := h.nodes
  rw [hns, Array.size_append]
  exact Nat.le_add_right ..

theorem agrees (h : Follows r r') (ha : r'.Agrees look) : r.Agrees look := by
  intro m
  by_cases hm : m < r.tree.nodes.size
  · obtain ⟨ns, hns⟩ := h.nodes
    have hm' := (ha m).resolve_left (Nat.not_le_of_lt (Nat.lt_of_lt_of_le hm h.size_le))
    rw [hns, Array.getElem?_append_left hm] at hm'
    exact .inr hm'
  · exact .inl (Nat.le_of_not_lt hm)

end Follows

/-- What has been read ends here, has the right shape, and the comments disturb no node. -/
structure Sound (look : NodeId → Node) (r : Reader) : Prop where
  shaped : ∀ m < r.tree.nodes.size, Shaped look (look m)
  earlier : ∀ m < r.tree.nodes.size, ∀ c ∈ (look m).children, c < m
  ends : ∀ m < r.tree.nodes.size, (look m).span.stop ≤ r.offset
  comments : ∀ c ∈ r.tree.comments, c.span.start < c.span.stop ∧ c.span.stop ≤ r.offset
  clear : ∀ m < r.tree.nodes.size, ∀ c ∈ r.tree.comments, Clear look (look m) c.span

/-- Reading on from `r` leads to `r'` and keeps what is known. -/
structure Leads (look : NodeId → Node) (r r' : Reader) : Prop where
  follows : Follows r r'
  sound : r'.Agrees look → r.Sound look → r'.Sound look

theorem Leads.trans (h : Leads look r r') (h' : Leads look r' r'') : Leads look r r'' :=
  ⟨h.follows.trans h'.follows, fun ha hs => h'.sound ha (h.sound (h'.follows.agrees ha) hs)⟩

theorem offset_skip_lt {n : Nat} (hr : r.rest ≠ []) (hn : 0 < n) : r.offset < (r.skip n).offset :=
  Nat.lt_add_of_pos_right (Text.one_le_byteSize_take hr hn)

theorem leads_of_tree_eq (ho : r.offset ≤ r'.offset) (ht : r'.tree = r.tree) : Leads look r r' := by
  refine ⟨⟨ho, ⟨#[], by rw [ht, Array.append_empty]⟩, fun c hc => .inl (ht ▸ hc)⟩, fun _ hs => ?_⟩
  constructor
  · rw [ht]; exact hs.shaped
  · rw [ht]; exact hs.earlier
  · rw [ht]; exact fun m hm => Nat.le_trans (hs.ends m hm) ho
  · rw [ht]; exact fun c hc => ⟨(hs.comments c hc).1, Nat.le_trans (hs.comments c hc).2 ho⟩
  · rw [ht]; exact hs.clear

theorem leads_skip (r : Reader) (n : Nat) : Leads look r (r.skip n) :=
  leads_of_tree_eq (Nat.le_add_right ..) rfl

theorem leads_comment {kind : CommentKind} {n : Nat} (hr : r.rest ≠ []) (hn : 0 < n) :
    Leads look r (r.comment kind n) := by
  have ho : r.offset < (r.comment kind n).offset := offset_skip_lt hr hn
  have hmem : ∀ c ∈ (r.comment kind n).tree.comments, c ∈ r.tree.comments ∨
      c.span = ⟨r.offset, (r.comment kind n).offset⟩ := by
    intro c hc
    rcases Array.mem_push.mp hc with hc | rfl
    · exact .inl hc
    · exact .inr rfl
  refine ⟨⟨Nat.le_of_lt ho, ⟨#[], Array.append_empty.symm⟩, fun c hc => ?_⟩, fun _ hs => ?_⟩
  · rcases hmem c hc with hc | hc
    · exact .inl hc
    · exact .inr (Nat.le_of_eq (congrArg Span.start hc).symm)
  · refine ⟨hs.shaped, hs.earlier, fun m hm => Nat.le_trans (hs.ends m hm) (Nat.le_of_lt ho),
      fun c hc => ?_, fun m hm c hc => ?_⟩
    · rcases hmem c hc with hc | hc
      · exact ⟨(hs.comments c hc).1, Nat.le_trans (hs.comments c hc).2 (Nat.le_of_lt ho)⟩
      · rw [hc]
        exact ⟨ho, Nat.le_refl _⟩
    · rcases hmem c hc with hc | hc
      · exact hs.clear m hm c hc
      · rw [hc]
        exact .inl (.inl (hs.ends m hm))

theorem look_node {kind : String} {start : Nat} {fields : List (String × Value)}
    (ha : (r.node kind start fields).2.Agrees look) :
    look r.tree.nodes.size = { kind, span := ⟨start, r.offset⟩, fields } := by
  have hm := (ha r.tree.nodes.size).resolve_left (Nat.not_le_of_lt (by
    simp [node, Sapling.addNode]))
  rw [node, Sapling.addNode, Array.getElem?_push_size] at hm
  exact (Option.some.inj hm).symm

theorem follows_node (r : Reader) (kind : String) (start : Nat) (fields : List (String × Value)) :
    Follows r (r.node kind start fields).2 :=
  ⟨Nat.le_refl _, ⟨#[{ kind, span := ⟨start, r.offset⟩, fields }], Array.push_eq_append⟩,
    fun _ hc => .inl hc⟩

/-- A node that ends here keeps what is known if its children have been read and the comments do
not disturb it. -/
theorem Sound.node {kind : String} {start : Nat} {fields : List (String × Value)} {new : Node}
    (hs : r.Sound look) (ha : (r.node kind start fields).2.Agrees look)
    (hnew : look r.tree.nodes.size = new) (hshape : Shaped look new)
    (hearlier : ∀ c ∈ new.children, c < r.tree.nodes.size)
    (hclear : ∀ c ∈ r.tree.comments, Clear look new c.span) :
    (r.node kind start fields).2.Sound look := by
  have hstop : new.span.stop = r.offset := by
    rw [← hnew, look_node ha]
  subst hnew
  have hsize : ∀ m < (r.node kind start fields).2.tree.nodes.size,
      m < r.tree.nodes.size ∨ m = r.tree.nodes.size := by
    intro m hm
    have hpush : (r.node kind start fields).2.tree.nodes.size = r.tree.nodes.size + 1 :=
      Array.size_push ..
    rw [hpush] at hm
    exact Nat.lt_or_eq_of_le (Nat.le_of_lt_succ hm)
  refine ⟨fun m hm => ?_, fun m hm => ?_, fun m hm => ?_, hs.comments, fun m hm => ?_⟩
  · rcases hsize m hm with hm | rfl
    · exact hs.shaped m hm
    · exact hshape
  · rcases hsize m hm with hm | rfl
    · exact hs.earlier m hm
    · exact hearlier
  · rcases hsize m hm with hm | rfl
    · exact hs.ends m hm
    · exact Nat.le_of_eq hstop
  · rcases hsize m hm with hm | rfl
    · exact hs.clear m hm
    · exact hclear

theorem expect_eq_ok {c : Char} (h : r.expect c = .ok r') :
    r'.tree = r.tree ∧ r.offset < r'.offset := by
  unfold expect at h
  split at h
  · rename_i hc
    obtain rfl := Except.ok.inj h
    refine ⟨rfl, offset_skip_lt ?_ Nat.one_pos⟩
    intro hr
    rw [hr] at hc
    cases hc
  · cases h

end Reader

open Reader

theorem leads_triviaWithin (steps : Text) (r : Reader) : Leads look r (triviaWithin steps r) := by
  induction steps generalizing r with
  | nil => exact leads_of_tree_eq (Nat.le_refl _) rfl
  | cons _ steps ih =>
    rw [triviaWithin]
    split
    · rename_i hr
      refine (leads_comment (by simp [hr]) ?_).trans (ih _)
      rw [hr, blockLength]
      · exact Nat.succ_pos _
      · intro t ht
        cases ht
    · rename_i hr
      refine (leads_comment (by simp [hr]) ?_).trans (ih _)
      rw [hr, lineLength, List.takeWhile_cons_of_pos (by decide), List.length_cons]
      exact Nat.succ_pos _
    · split
      · exact (leads_skip r 1).trans (ih _)
      · exact leads_of_tree_eq (Nat.le_refl _) rfl
    · exact leads_of_tree_eq (Nat.le_refl _) rfl

theorem leads_trivia (r : Reader) : Leads look r (trivia r) := leads_triviaWithin r.rest r

structure Read (look : NodeId → Node) (kinds : List String) (r : Reader)
    (result : NodeId × Reader) : Prop where
  leads : Leads look r result.2
  lt_size : result.1 < result.2.tree.nodes.size
  kind_mem : result.2.Agrees look → (look result.1).kind ∈ kinds
  span_eq : result.2.Agrees look → (look result.1).span = ⟨r.offset, result.2.offset⟩

theorem Read.of_node {kinds : List String} {kind : String} {fields : List (String × Value)}
    (hf : Leads look r r') (hk : kind ∈ kinds)
    (hshape : r'.Agrees look →
      Shaped look { kind, span := ⟨r.offset, r'.offset⟩, fields })
    (hearlier : ∀ c ∈ fields.flatMap (·.2.nodes), c < r'.tree.nodes.size)
    (hclear : r'.Agrees look → r.Sound look → ∀ c ∈ r'.tree.comments, c ∉ r.tree.comments →
      Open look { kind, span := ⟨r.offset, r'.offset⟩, fields } c.span) :
    Read look kinds r (r'.node kind r.offset fields) := by
  have hnode := follows_node r' kind r.offset fields
  refine ⟨⟨hf.follows.trans hnode, fun ha hs => ?_⟩, ?_, fun ha => ?_, fun ha => ?_⟩
  · have ha' := hnode.agrees ha
    have hs' := hf.sound ha' hs
    refine hs'.node ha (look_node ha) (hshape ha') hearlier fun c hc => ?_
    by_cases hold : c ∈ r.tree.comments
    · exact .inl (.inr (hs.comments c hold).2)
    · refine .inr ⟨?_, hclear ha' hs c hc hold⟩
      exact Span.contains_iff.mpr ⟨(hf.follows.later c hc).resolve_left hold, (hs'.comments c hc).2⟩
  · exact Nat.lt_of_lt_of_eq (Nat.lt_succ_self _) (Array.size_push _).symm
  · change (look r'.tree.nodes.size).kind ∈ kinds
    rw [look_node ha]
    exact hk
  · change (look r'.tree.nodes.size).span = _
    rw [look_node ha]
    rfl

theorem Read.of_leaf {kinds : List String} {kind : String} {fields : List (String × Value)}
    (ho : r.offset ≤ r'.offset) (ht : r'.tree = r.tree) (hk : kind ∈ kinds)
    (hleaf : fields.flatMap (·.2.nodes) = [])
    (hshape : Shaped look { kind, span := ⟨r.offset, r'.offset⟩, fields }) :
    Read look kinds r (r'.node kind r.offset fields) := by
  refine .of_node (leads_of_tree_eq ho ht) hk (fun _ => hshape) (fun c hc => ?_)
    fun _ _ c hc hold => ?_
  · rw [hleaf] at hc
    cases hc
  · rw [ht] at hc
    exact absurd hc hold

theorem block_eq_ok {result : NodeId × Reader} (ho : r.offset < r'.offset) (ht : r'.tree = r.tree)
    (h : block r.offset r' = .ok result) : Read look itemKinds r result := by
  unfold block at h
  obtain ⟨opened, hopened, h⟩ := bind_eq_ok_iff.mp h
  obtain ⟨htree, hoffset⟩ := expect_eq_ok hopened
  dsimp only at h
  split at h
  · cases h
  obtain rfl := pure_eq_ok_iff.mp h
  have hlt :
      r.offset < ((opened.skip (opened.rest.takeWhile (· != '\x7d')).length).skip 1).offset := by
    have hskip : r'.offset ≤ (r'.skip (word r'.rest).length).offset := Nat.le_add_right ..
    simp only [Reader.skip] at hskip hoffset ⊢
    omega
  exact .of_leaf (Nat.le_of_lt hlt) (htree.trans ht) (by decide) rfl (.embed hlt)

theorem quasi_eq_ok {result : NodeId × Reader} (h : quasi r = .ok result) :
    Read look ["Quasi"] r result ∧ result.2.tree.comments = r.tree.comments ∧
      result.2.rest ≠ [] := by
  unfold quasi at h
  dsimp only at h
  split at h
  · cases h
  · rename_i hrest
    obtain rfl := pure_eq_ok_iff.mp h
    refine ⟨?_, rfl, fun hnil => hrest (List.isEmpty_iff.mpr hnil)⟩
    exact .of_leaf (Nat.le_add_right ..) rfl (List.mem_singleton_self _) rfl
      (.quasi (Nat.le_add_right ..))

structure ReadRow (look : NodeId → Node) (room : Nat) (r : Reader) (result : List Value × Reader)
    (items : List NodeId) : Prop where
  leads : Leads look r result.2
  values : result.1 = items.map .node
  lt_size : ∀ n ∈ items, n < result.2.tree.nodes.size
  closes : r.offset + room ≤ result.2.offset
  row : result.2.Agrees look → Row look ⟨r.offset, result.2.offset - room⟩ items
  within : result.2.Agrees look → r.Sound look → ∀ c ∈ result.2.tree.comments,
    c ∉ r.tree.comments → c.span.stop + room ≤ result.2.offset

theorem ReadRow.cons {room : Nat} {n : NodeId} {values : List Value} {items : List NodeId}
    {after : Reader} (hl : Leads look r r') (hn : Read look itemKinds r' (n, after))
    (h : ReadRow look room after (values, r'') items) :
    ReadRow look room r (.node n :: values, r'') (n :: items) := by
  have hfollows := h.leads.follows
  have hfirst := hl.trans hn.leads
  have hcloses : after.offset + room ≤ r''.offset := h.closes
  constructor
  · exact hfirst.trans h.leads
  · exact congrArg (Value.node n :: ·) h.values
  · rw [List.forall_mem_cons]
    exact ⟨Nat.lt_of_lt_of_le hn.lt_size hfollows.size_le, h.lt_size⟩
  · exact Nat.le_trans (Nat.add_le_add_right hfirst.follows.offset_le room) hcloses
  · intro ha
    have ha' := hfollows.agrees ha
    exact (h.row ha).cons (hn.kind_mem ha') (hn.span_eq ha') hl.follows.offset_le
      hn.leads.follows.offset_le (Nat.le_sub_of_add_le hcloses)
  · intro ha hs c hmem hold
    have hs' : after.Sound look := hfirst.sound (hfollows.agrees ha) hs
    by_cases hearly : c ∈ after.tree.comments
    · exact Nat.le_trans (Nat.add_le_add_right (hs'.comments c hearly).2 room) hcloses
    · exact h.within ha hs' c hmem hearly

theorem ReadRow.read_list {items : List NodeId}
    (h : ReadRow look 1 (r.skip 1) (items.map .node, r') items)
    (hlt : r.offset < (r.skip 1).offset) :
    Read look itemKinds r (r'.node "List" r.offset [("items", .list (items.map .node))]) := by
  have hskip : Leads look r (r.skip 1) := leads_skip r 1
  have hle := h.leads.follows.offset_le
  refine .of_node (hskip.trans h.leads) (by decide)
    (fun ha => .list (Nat.lt_of_lt_of_le hlt hle) ?_) ?_ ?_
  · exact (h.row ha).widen (Span.contains_iff.mpr ⟨hlt, Nat.le_refl _⟩)
  · simpa [Value.nodes] using h.lt_size
  · intro ha hs c hmem hold
    have hstart := (h.leads.follows.later c hmem).resolve_left hold
    have hstop := h.within ha (hskip.sound (h.leads.follows.agrees ha) hs) c hmem hold
    refine .inr (.inl ⟨rfl, Span.contains_iff.mpr ⟨?_, Nat.le_sub_of_add_le hstop⟩⟩)
    exact Nat.le_trans hlt hstart

/-- The parts of a template were read from `r` on. The comments among them lie between two literal
parts. -/
structure ReadParts (look : NodeId → Node) (r : Reader) (result : List Value × List Value × Reader)
    (qs es : List NodeId) : Prop where
  leads : Leads look r result.2.2
  quasis : result.1 = qs.map .node
  expressions : result.2.1 = es.map .node
  lt_size : ∀ n ∈ qs ++ es, n < result.2.2.tree.nodes.size
  closes : r.offset < result.2.2.offset
  woven : result.2.2.Agrees look → Woven look ⟨r.offset, result.2.2.offset - 1⟩ qs es
  head : result.2.2.Agrees look → ∃ q, qs.head? = some q ∧ (look q).span.start = r.offset
  holes : result.2.2.Agrees look → r.Sound look → ∀ c ∈ result.2.2.tree.comments,
    c ∉ r.tree.comments → ∃ i, Hole look qs i c.span

theorem ReadParts.single {q : NodeId} (hq : Read look ["Quasi"] r (q, r'))
    (hc : r'.tree.comments = r.tree.comments) (hrest : r'.rest ≠ []) :
    ReadParts look r ([.node q], [], r'.skip 1) [q] [] := by
  have hskip : Leads look r' (r'.skip 1) := leads_skip r' 1
  have hquote : r'.offset < (r'.skip 1).offset := offset_skip_lt hrest Nat.one_pos
  constructor
  · exact hq.leads.trans hskip
  · rfl
  · rfl
  · rw [List.append_nil, List.forall_mem_singleton]
    exact hq.lt_size
  · exact Nat.lt_of_le_of_lt hq.leads.follows.offset_le hquote
  · intro ha
    have ha' := hskip.follows.agrees ha
    exact .single (List.mem_singleton.mp (hq.kind_mem ha')) (hq.span_eq ha')
      (Nat.le_sub_one_of_lt hquote)
  · intro ha
    exact ⟨q, rfl, congrArg Span.start (hq.span_eq (hskip.follows.agrees ha))⟩
  · intro _ _ c hmem hold
    exact absurd (hc ▸ hmem) hold

theorem ReadParts.cons {q e : NodeId} {quasis expressions : List Value} {qs es : List NodeId}
    {literal opened inner after closed : Reader} (hq : Read look ["Quasi"] r (q, literal))
    (hc : literal.tree.comments = r.tree.comments) (ht : opened.tree = literal.tree)
    (ho : literal.offset + 2 ≤ opened.offset) (hi : Leads look opened inner)
    (he : Read look itemKinds inner (e, after)) (ha : Leads look after r')
    (hclosed : closed.tree = r'.tree) (hclose : r'.offset < closed.offset)
    (h : ReadParts look closed (quasis, expressions, r'') qs es) :
    ReadParts look r (.node q :: quasis, .node e :: expressions, r'') (q :: qs) (e :: es) := by
  have hopened : Leads look literal opened :=
    leads_of_tree_eq (Nat.le_trans (Nat.le_add_right ..) ho) ht
  have hclosing : Leads look r' closed := leads_of_tree_eq (Nat.le_of_lt hclose) hclosed
  have hend := hclosing.trans h.leads
  have hbehind := ha.trans hend
  have hexpr := he.leads.trans hbehind
  have hstart := hopened.trans hi
  have hwhole := hstart.trans hexpr
  constructor
  · exact hq.leads.trans hwhole
  · exact congrArg (Value.node q :: ·) h.quasis
  · exact congrArg (Value.node e :: ·) h.expressions
  · intro n hn
    have hmiddle : (q :: qs ++ e :: es).Perm (q :: e :: (qs ++ es)) := List.perm_middle.cons q
    rw [hmiddle.mem_iff, List.mem_cons, List.mem_cons] at hn
    rcases hn with rfl | rfl | hn
    · exact Nat.lt_of_lt_of_le hq.lt_size hwhole.follows.size_le
    · exact Nat.lt_of_lt_of_le he.lt_size hbehind.follows.size_le
    · exact h.lt_size n hn
  · exact Nat.lt_of_le_of_lt (hq.leads.trans (hstart.trans (he.leads.trans
      (ha.trans hclosing)))).follows.offset_le h.closes
  · intro hag
    have hag' := hwhole.follows.agrees hag
    have hag'' := hbehind.follows.agrees hag
    have hle := hi.follows.offset_le
    have hle' := ha.follows.offset_le
    exact (h.woven hag).cons (List.mem_singleton.mp (hq.kind_mem hag')) (hq.span_eq hag')
      hq.leads.follows.offset_le (he.kind_mem hag'') (he.span_eq hag'') he.leads.follows.offset_le
      (Nat.le_trans ho hle) (Nat.lt_of_le_of_lt hle' hclose) (Nat.le_sub_one_of_lt h.closes)
      (h.head hag)
  · intro hag
    exact ⟨q, rfl, congrArg Span.start (hq.span_eq (hwhole.follows.agrees hag))⟩
  · intro hag hs c hmem hold
    have hs' : r'.Sound look :=
      (hq.leads.trans (hstart.trans (he.leads.trans ha))).sound (hend.follows.agrees hag) hs
    by_cases hlate : c ∈ closed.tree.comments
    · rw [hclosed] at hlate
      have hnew : opened.offset ≤ c.span.start := by
        refine ((hi.trans (he.leads.trans ha)).follows.later c hlate).resolve_left fun hearly => ?_
        rw [ht, hc] at hearly
        exact hold hearly
      obtain ⟨q', hq', hstart'⟩ := h.head hag
      refine ⟨0, q, q', rfl, ?_, ?_, ?_⟩
      · rw [List.getElem?_cons_succ, ← List.head?_eq_getElem?, hq']
      · rw [hq.span_eq (hwhole.follows.agrees hag)]
        exact Nat.le_trans ho hnew
      · rw [hstart']
        exact Nat.lt_of_le_of_lt (hs'.comments c hlate).2 hclose
    · obtain ⟨i, hole⟩ := h.holes hag (hclosing.sound (h.leads.follows.agrees hag) hs') c hmem hlate
      exact ⟨i + 1, hole.cons q⟩

section Level

theorem ReadParts.read_template {qs es : List NodeId}
    (h : ReadParts look (r.skip 1) (qs.map .node, es.map .node, r') qs es)
    (hlt : r.offset < (r.skip 1).offset) :
    Read look itemKinds r (r'.node "Template" r.offset
      [("quasis", .list (qs.map .node)), ("expressions", .list (es.map .node))]) := by
  have hskip : Leads look r (r.skip 1) := leads_skip r 1
  have hle := h.leads.follows.offset_le
  refine .of_node (hskip.trans h.leads) (by decide)
    (fun ha => .template (Nat.lt_of_lt_of_le hlt hle) ?_) ?_ ?_
  · exact (h.woven ha).widen (Span.contains_iff.mpr ⟨hlt, Nat.le_refl _⟩)
  · simpa [Value.nodes] using h.lt_size
  · intro ha hs c hc hold
    refine .inr (.inr ⟨rfl, fun qs' hqs' => ?_⟩)
    obtain rfl : qs = qs' := Option.some.inj ((quasis_eq_some rfl rfl).symm.trans hqs')
    exact h.holes ha (hskip.sound (h.leads.follows.agrees ha) hs) c hc hold

variable {fuel : Nat}

theorem item_succ
    (hlist : ∀ r result, listItems fuel r = .ok result → ∃ ns, ReadRow look 1 r result ns)
    (hparts : ∀ r result, templateParts fuel r = .ok result → ∃ qs es, ReadParts look r result qs es)
    {result : NodeId × Reader} (h : item (fuel + 1) r = .ok result) :
    Read look itemKinds r result := by
  unfold item at h
  split at h
  · rename_i hr
    obtain ⟨⟨values, after⟩, hitems, h⟩ := bind_eq_ok_iff.mp h
    obtain rfl := pure_eq_ok_iff.mp h
    obtain ⟨ns, hrow⟩ := hlist _ _ hitems
    obtain rfl := hrow.values
    exact hrow.read_list (offset_skip_lt (by simp [hr]) Nat.one_pos)
  · rename_i hr
    obtain ⟨⟨quasis, expressions, after⟩, hread, h⟩ := bind_eq_ok_iff.mp h
    obtain rfl := pure_eq_ok_iff.mp h
    obtain ⟨qs, es, hp⟩ := hparts _ _ hread
    obtain rfl := hp.quasis
    obtain rfl := hp.expressions
    exact hp.read_template (offset_skip_lt (by simp [hr]) Nat.one_pos)
  · rename_i hr
    exact block_eq_ok (offset_skip_lt (by simp [hr]) Nat.one_pos) rfl h
  · dsimp only at h
    split at h
    · cases h
    · rename_i hname
      obtain rfl := Except.ok.inj h
      have hpos : 0 < (word r.rest).length := List.length_pos_iff.mpr fun hnil =>
        hname (List.isEmpty_iff.mpr hnil)
      have hrest : r.rest ≠ [] := by
        intro hnil
        rw [hnil] at hpos
        exact Nat.lt_irrefl 0 hpos
      have hlt := offset_skip_lt hrest hpos
      exact .of_leaf (Nat.le_of_lt hlt) rfl (by decide) rfl (.ident hlt)

theorem listItems_succ (hitem : ∀ r result, item fuel r = .ok result → Read look itemKinds r result)
    (hlist : ∀ r result, listItems fuel r = .ok result → ∃ ns, ReadRow look 1 r result ns)
    {result : List Value × Reader} (h : listItems (fuel + 1) r = .ok result) :
    ∃ ns, ReadRow look 1 r result ns := by
  unfold listItems at h
  dsimp only at h
  split at h
  · cases h
  · rename_i hr
    obtain rfl := Except.ok.inj h
    have htrivia : Leads look r (trivia r) := leads_trivia r
    have hskip : Leads look (trivia r) ((trivia r).skip 1) := leads_skip _ 1
    have hbracket : (trivia r).offset < ((trivia r).skip 1).offset :=
      offset_skip_lt (by simp [hr]) Nat.one_pos
    refine ⟨[], htrivia.trans hskip, rfl, fun _ hn => (nomatch hn),
      Nat.lt_of_le_of_lt htrivia.follows.offset_le hbracket, fun _ => .nil _,
        fun ha hs c hmem _ => ?_⟩
    have hs' := htrivia.sound (hskip.follows.agrees ha) hs
    exact Nat.lt_of_le_of_lt (hs'.comments c hmem).2 hbracket
  · obtain ⟨⟨first, after⟩, hfirst, h⟩ := bind_eq_ok_iff.mp h
    obtain ⟨⟨others, last⟩, hothers, h⟩ := bind_eq_ok_iff.mp h
    obtain rfl := pure_eq_ok_iff.mp h
    obtain ⟨ns, hrow⟩ := hlist _ _ hothers
    exact ⟨first :: ns, .cons (leads_trivia r) (hitem _ _ hfirst) hrow⟩

theorem templateParts_succ
    (hitem : ∀ r result, item fuel r = .ok result → Read look itemKinds r result)
    (hparts : ∀ r result, templateParts fuel r = .ok result → ∃ qs es, ReadParts look r result qs es)
    {result : List Value × List Value × Reader} (h : templateParts (fuel + 1) r = .ok result) :
    ∃ qs es, ReadParts look r result qs es := by
  unfold templateParts at h
  obtain ⟨⟨q, literal⟩, hliteral, h⟩ := bind_eq_ok_iff.mp h
  obtain ⟨hq, hcomments, hrest⟩ := quasi_eq_ok hliteral
  dsimp only at h
  split at h
  · obtain rfl := pure_eq_ok_iff.mp h
    exact ⟨[q], [], .single hq hcomments hrest⟩
  · obtain ⟨opened, hopened, h⟩ := bind_eq_ok_iff.mp h
    obtain ⟨⟨e, after⟩, hexpression, h⟩ := bind_eq_ok_iff.mp h
    obtain ⟨closed, hclosed, h⟩ := bind_eq_ok_iff.mp h
    obtain ⟨⟨quasis, expressions, last⟩, hlast, h⟩ := bind_eq_ok_iff.mp h
    obtain rfl := pure_eq_ok_iff.mp h
    obtain ⟨qs, es, hp⟩ := hparts _ _ hlast
    obtain ⟨hto, hoo⟩ := expect_eq_ok hopened
    obtain ⟨htc, hoc⟩ := expect_eq_ok hclosed
    have hdollar := offset_skip_lt hrest Nat.one_pos
    exact ⟨q :: qs, e :: es, .cons hq hcomments hto
      (Nat.le_trans (Nat.succ_le_succ hdollar) hoo) (leads_trivia opened)
      (hitem _ _ hexpression) (leads_trivia after) htc hoc hp⟩

end Level

theorem reads (look : NodeId → Node) (fuel : Nat) :
    (∀ r result, item fuel r = .ok result → Read look itemKinds r result) ∧
    (∀ r result, listItems fuel r = .ok result → ∃ ns, ReadRow look 1 r result ns) ∧
    (∀ r result, templateParts fuel r = .ok result → ∃ qs es, ReadParts look r result qs es) := by
  induction fuel with
  | zero =>
    refine ⟨fun r result h => ?_, fun r result h => ?_, fun r result h => ?_⟩
    · unfold item at h; cases h
    · unfold listItems at h; cases h
    · unfold templateParts at h; cases h
  | succ fuel ih =>
    obtain ⟨hitem, hlist, hparts⟩ := ih
    exact ⟨fun r result => item_succ hlist hparts, fun r result => listItems_succ hitem hlist,
      fun r result => templateParts_succ hitem hparts⟩

theorem items_eq_ok {fuel : Nat} {result : List Value × Reader} (h : items fuel r = .ok result) :
    ∃ ns, ReadRow look 0 r result ns := by
  induction fuel generalizing r result with
  | zero => cases h
  | succ fuel ih =>
    unfold items at h
    dsimp only at h
    split at h
    · obtain rfl := Except.ok.inj h
      have htrivia : Leads look r (trivia r) := leads_trivia r
      exact ⟨[], htrivia, rfl, fun _ hn => (nomatch hn), htrivia.follows.offset_le, fun _ => .nil _,
        fun ha hs c hmem _ => ((htrivia.sound ha hs).comments c hmem).2⟩
    · obtain ⟨⟨first, after⟩, hfirst, h⟩ := bind_eq_ok_iff.mp h
      obtain ⟨⟨others, last⟩, hothers, h⟩ := bind_eq_ok_iff.mp h
      obtain rfl := pure_eq_ok_iff.mp h
      obtain ⟨ns, hrow⟩ := ih hothers
      exact ⟨first :: ns, .cons (leads_trivia r) ((reads look fuel).1 _ _ hfirst) hrow⟩

theorem sound_ofText (text : Text) : (Reader.ofText text).Sound look :=
  ⟨fun _ hm => (nomatch hm), fun _ hm => (nomatch hm), fun _ hm => (nomatch hm),
    fun _ hc => (nomatch hc), fun _ hm => (nomatch hm)⟩

theorem comment_finish_mem {b : Sapling} {root : NodeId} {c : CommentId}
    (h : c ∈ (b.finish root).commentIds) : (b.finish root).comment c ∈ b.comments := by
  have hc : c < (b.finish root).comments.size := List.mem_range.mp h
  have hmem : (b.finish root).comment c ∈ (b.finish root).comments := by
    simp [Tree.comment, Array.getD_eq_getD_getElem?, hc]
  simpa [Sapling.finish] using hmem

theorem node_finish_mem {b : Sapling} {root n : NodeId} (h : n < (b.finish root).nodes.size) :
    (b.finish root).node n ∈ b.nodes := by
  have hn : n < b.nodes.size := h
  simp [Tree.node, Sapling.finish, Array.getD_eq_getD_getElem?, hn]

theorem agrees_finish (r : Reader) (root : NodeId) : r.Agrees (r.tree.finish root).node := by
  intro m
  by_cases hm : m < r.tree.nodes.size
  · right
    simp [Tree.node, Sapling.finish, Array.getD_eq_getD_getElem?, hm]
  · exact .inl (Nat.le_of_not_lt hm)

/-- The tree of an accepted text has the shape of a toy tree. -/
theorem parsed_of_parse {text : Text} {t : Tree} (h : parse text = .ok t) : Parsed t := by
  unfold parse at h
  obtain ⟨⟨body, r⟩, hitems, h⟩ := bind_eq_ok_iff.mp h
  obtain rfl := pure_eq_ok_iff.mp h
  let result := r.node "Program" 0 [("body", .list body)]
  let t := result.2.tree.finish result.1
  obtain ⟨ns, hrow⟩ : ∃ ns, ReadRow t.node 0 (.ofText text) (body, r) ns := items_eq_ok hitems
  obtain rfl := hrow.values
  have hread : Read t.node ["Program"] (.ofText text) result := by
    refine .of_node hrow.leads (List.mem_singleton_self _) (fun ha => ?_) ?_
      fun _ _ _ _ _ => .inl rfl
    · exact .program (Nat.zero_le _) (hrow.row ha)
    · simpa [Value.nodes] using hrow.lt_size
  have ha : result.2.Agrees t.node := agrees_finish result.2 result.1
  have hs : result.2.Sound t.node := hread.leads.sound ha (sound_ofText text)
  constructor
  · exact hread.lt_size
  · exact List.mem_singleton.mp (hread.kind_mem ha)
  · exact congrArg Span.start (hread.span_eq ha)
  · exact hs.shaped
  · exact hs.earlier
  · exact fun c hc => (hs.comments _ (comment_finish_mem hc)).1
  · intro c hc
    have hspan : (t.node result.1).span = ⟨0, result.2.offset⟩ := hread.span_eq ha
    refine Span.contains_iff.mpr ?_
    change (t.node result.1).span.start ≤ _ ∧ _ ≤ (t.node result.1).span.stop
    rw [hspan]
    exact ⟨Nat.zero_le _, (hs.comments _ (comment_finish_mem hc)).2⟩
  · exact fun n hn c hc => hs.clear n hn _ (comment_finish_mem hc)

end Toy

end SourceLayout
