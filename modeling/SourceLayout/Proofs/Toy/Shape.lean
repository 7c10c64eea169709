import SourceLayout.Proofs.Syntax.Nesting
import SourceLayout.Toy.Grammar

/-! # The shape of toy trees

Every kind of node has its own fields. The items of a list stand in a row between its
brackets, and the literal parts and expressions of a template alternate between its quotes. A
comment lies beside a node or in an open place of it: anywhere between the brackets of a list, but
only between two literal parts of a template.
-/

namespace SourceLayout

@[simp] theorem Value.nodesAll_map_node (ns : List NodeId) :
    Value.nodesAll (ns.map .node) = ns := by
  induction ns with
  | nil => rfl
  | cons n ns ih =>
    rw [List.map_cons, nodesAll, ih]
    rfl

def Span.interior (s : Span) : Span := ⟨s.start + 1, s.stop - 1⟩

theorem Span.contains_interior (s : Span) : s.contains s.interior = true :=
  Span.contains_iff.mpr ⟨Nat.le_succ _, Nat.sub_le _ _⟩

namespace Toy

def itemKinds : List String := ["Ident", "Embed", "List", "Template"]

def leafKinds : List String := ["Ident", "Embed", "Quasi"]

theorem quasis_eq_some {node : Node} {qs : List NodeId} (hk : node.kind = "Template")
    (hf : node.field? "quasis" = some (.list (qs.map .node))) : quasis node = some qs := by
  unfold quasis
  rw [if_neg (by simp [hk]), hf]
  change some ((qs.map Value.node).filterMap Value.node?) = some qs
  rw [List.filterMap_map]
  exact congrArg some List.filterMap_some

section Look

variable (look : NodeId → Node)

structure Row (span : Span) (items : List NodeId) : Prop where
  isItem : ∀ n ∈ items, (look n).kind ∈ itemKinds
  inside : ∀ n ∈ items, span.contains (look n).span = true
  inOrder : items.Pairwise fun n m => (look n).span.stop ≤ (look m).span.start

/-- A place in the interpolation behind the literal part with number `i`. The signs around the
interpolation part it from the literals. -/
def Hole (quasis : List NodeId) (i : Nat) (place : Span) : Prop :=
  ∃ q q', quasis[i]? = some q ∧ quasis[i + 1]? = some q' ∧
    (look q).span.stop + 2 ≤ place.start ∧ place.stop + 1 ≤ (look q').span.start

structure Woven (span : Span) (quasis expressions : List NodeId) : Prop where
  isQuasi : ∀ q ∈ quasis, (look q).kind = "Quasi"
  isItem : ∀ e ∈ expressions, (look e).kind ∈ itemKinds
  inside : ∀ n ∈ quasis ++ expressions, span.contains (look n).span = true
  apart : (quasis ++ expressions).Pairwise fun n m => (look n).span.Apart (look m).span
  inOrder : quasis.Pairwise fun q q' => (look q).span.stop ≤ (look q').span.start
  length_eq : quasis.length = expressions.length + 1
  hole : ∀ i e, expressions[i]? = some e → Hole look quasis i (look e).span

/-- The nodes of the toy language, each with its fields. -/
inductive Shaped : Node → Prop where
  | ident {span : Span} {name : Text} (h : span.start < span.stop) :
    Shaped { kind := "Ident", span, fields := [("name", .str name)] }
  | embed {span : Span} {lang code : Text} (h : span.start < span.stop) :
    Shaped { kind := "Embed", span, fields := [("lang", .str lang), ("code", .str code)] }
  | quasi {span : Span} {raw : Text} (h : span.start ≤ span.stop) :
    Shaped { kind := "Quasi", span, fields := [("raw", .str raw)] }
  | list {span : Span} {items : List NodeId} (h : span.start < span.stop)
    (hr : Row look span.interior items) :
    Shaped { kind := "List", span, fields := [("items", .list (items.map .node))] }
  | template {span : Span} {quasis expressions : List NodeId} (h : span.start < span.stop)
    (hr : Woven look span.interior quasis expressions) :
    Shaped { kind := "Template", span, fields :=
      [("quasis", .list (quasis.map .node)), ("expressions", .list (expressions.map .node))] }
  | program {span : Span} {items : List NodeId} (h : span.start ≤ span.stop)
    (hr : Row look span items) :
    Shaped { kind := "Program", span, fields := [("body", .list (items.map .node))] }

/-- What the kind of a node tells about its fields and its children. -/
inductive Form (node : Node) : Prop where
  | ident {name : Text} (kind : node.kind = "Ident") (children : node.children = [])
    (field : node.field? "name" = some (.str name))
  | embed (kind : node.kind = "Embed") (children : node.children = [])
  | quasi {raw : Text} (kind : node.kind = "Quasi") (children : node.children = [])
    (field : node.field? "raw" = some (.str raw))
  | list (kind : node.kind = "List") (row : Row look node.span.interior node.children)
    (field : node.field? "items" = some (.list (node.children.map .node)))
  | template {quasis expressions : List NodeId} (kind : node.kind = "Template")
    (children : node.children = quasis ++ expressions)
    (woven : Woven look node.span.interior quasis expressions)
    (literals : node.field? "quasis" = some (.list (quasis.map .node)))
    (holes : node.field? "expressions" = some (.list (expressions.map .node)))
  | program (kind : node.kind = "Program") (row : Row look node.span node.children)
    (field : node.field? "body" = some (.list (node.children.map .node)))

/-- A comment lies in an open place of a node. -/
def Open (n : Node) (place : Span) : Prop :=
  n.kind = "Program" ∨ n.kind = "List" ∧ n.span.interior.contains place = true ∨
    n.kind = "Template" ∧ ∀ qs, quasis n = some qs → ∃ i, Hole look qs i place

/-- A comment does not disturb a node. -/
def Clear (n : Node) (place : Span) : Prop :=
  n.span.Apart place ∨ n.span.contains place = true ∧ Open look n place

end Look

variable {look : NodeId → Node} {node : Node} {c : NodeId}

theorem Row.apart {span : Span} {items : List NodeId} (h : Row look span items) :
    items.Pairwise fun n m => (look n).span.Apart (look m).span :=
  h.inOrder.imp fun h => .inl h

theorem Row.widen {inner outer : Span} {items : List NodeId} (h : Row look inner items)
    (hs : outer.contains inner = true) : Row look outer items :=
  { h with inside := fun n hn => Span.contains_trans hs (h.inside n hn) }

theorem Woven.widen {inner outer : Span} {quasis expressions : List NodeId}
    (h : Woven look inner quasis expressions) (hs : outer.contains inner = true) :
    Woven look outer quasis expressions :=
  { h with inside := fun n hn => Span.contains_trans hs (h.inside n hn) }

theorem Row.nil (span : Span) : Row look span [] :=
  ⟨fun _ hn => (nomatch hn), fun _ hn => (nomatch hn), .nil⟩

theorem Row.cons {n : NodeId} {ns : List NodeId} {lo hi start stop : Nat}
    (hk : (look n).kind ∈ itemKinds) (hn : (look n).span = ⟨start, stop⟩) (hlo : lo ≤ start)
    (hspan : start ≤ stop) (hhi : stop ≤ hi) (h : Row look ⟨stop, hi⟩ ns) :
    Row look ⟨lo, hi⟩ (n :: ns) := by
  have hin : ∀ m ∈ ns, stop ≤ (look m).span.start ∧ (look m).span.stop ≤ hi := fun m hm =>
    Span.contains_iff.mp (h.inside m hm)
  constructor
  · rw [List.forall_mem_cons]
    exact ⟨hk, h.isItem⟩
  · rw [List.forall_mem_cons, Span.contains_iff, hn]
    refine ⟨⟨hlo, hhi⟩, fun m hm => Span.contains_iff.mpr ?_⟩
    have := hin m hm
    dsimp only
    omega
  · rw [List.pairwise_cons, hn]
    exact ⟨fun m hm => (hin m hm).1, h.inOrder⟩

theorem Hole.cons {qs : List NodeId} {i : Nat} {place : Span} (q : NodeId)
    (h : Hole look qs i place) :
    Hole look (q :: qs) (i + 1) place := h

theorem Woven.single {q : NodeId} {lo hi stop : Nat} (hk : (look q).kind = "Quasi")
    (hq : (look q).span = ⟨lo, stop⟩) (hhi : stop ≤ hi) : Woven look ⟨lo, hi⟩ [q] [] := by
  constructor
  · simpa using hk
  · simp
  · simp [Span.contains_iff, hq, hhi]
  · simp
  · simp
  · rfl
  · simp

theorem Woven.cons {q e : NodeId} {qs es : List NodeId} {lo mid hi stop start stop' : Nat}
    (hkq : (look q).kind = "Quasi") (hq : (look q).span = ⟨lo, stop⟩) (hlo : lo ≤ stop)
    (hke : (look e).kind ∈ itemKinds) (he : (look e).span = ⟨start, stop'⟩) (hspan : start ≤ stop')
    (hopen : stop + 2 ≤ start) (hclose : stop' + 1 ≤ mid) (hmid : mid ≤ hi)
    (hhead : ∃ q', qs.head? = some q' ∧ (look q').span.start = mid)
    (h : Woven look ⟨mid, hi⟩ qs es) : Woven look ⟨lo, hi⟩ (q :: qs) (e :: es) := by
  have hin : ∀ m ∈ qs ++ es, mid ≤ (look m).span.start ∧ (look m).span.stop ≤ hi := fun m hm =>
    Span.contains_iff.mp (h.inside m hm)
  have hperm : (q :: qs ++ e :: es).Perm (q :: e :: (qs ++ es)) := List.perm_middle.cons q
  constructor
  · rw [List.forall_mem_cons]
    exact ⟨hkq, h.isQuasi⟩
  · rw [List.forall_mem_cons]
    exact ⟨hke, h.isItem⟩
  · intro m hm
    rw [hperm.mem_iff, List.mem_cons, List.mem_cons] at hm
    rw [Span.contains_iff]
    rcases hm with rfl | rfl | hm
    · rw [hq]
      dsimp only
      omega
    · rw [he]
      dsimp only
      omega
    · have := hin m hm
      dsimp only
      omega
  · have hsymm : ∀ {n m : NodeId}, (look n).span.Apart (look m).span →
      (look m).span.Apart (look n).span := Span.Apart.symm
    rw [hperm.pairwise_iff hsymm, List.pairwise_cons, List.pairwise_cons, List.forall_mem_cons]
    refine ⟨⟨.inl ?_, fun m hm => .inl ?_⟩, fun m hm => .inl ?_, h.apart⟩
    · rw [hq, he]
      dsimp only
      omega
    · have := hin m hm
      rw [hq]
      dsimp only
      omega
    · have := hin m hm
      rw [he]
      dsimp only
      omega
  · rw [List.pairwise_cons]
    refine ⟨fun m hm => ?_, h.inOrder⟩
    have := hin m (List.mem_append_left _ hm)
    rw [hq]
    dsimp only
    omega
  · rw [List.length_cons, List.length_cons, h.length_eq]
  · intro i m hm
    cases i with
    | zero =>
      obtain rfl : e = m := Option.some.inj hm
      obtain ⟨q', hq', hstart⟩ := hhead
      refine ⟨q, q', rfl, ?_, ?_, ?_⟩
      · rw [List.getElem?_cons_succ, ← List.head?_eq_getElem?, hq']
      · rw [hq, he]
        exact hopen
      · rw [he, hstart]
        exact hclose
    | succ i => exact (h.hole i m hm).cons q

namespace Shaped

theorem forward (h : Shaped look node) : node.span.start ≤ node.span.stop := by
  cases h with
  | ident h | embed h | list h _ | template h _ => exact Nat.le_of_lt h
  | quasi h | program h _ => exact h

theorem start_lt_stop (h : Shaped look node) (hk : node.kind ∈ itemKinds) :
    node.span.start < node.span.stop := by
  cases h with
  | ident h | embed h | list h _ | template h _ => exact h
  | quasi h | program h _ => simp [itemKinds] at hk

theorem form (h : Shaped look node) : Form look node := by
  have hrow : ∀ {kind name : String} {span : Span} {items : List NodeId},
      Node.children { kind, span, fields := [(name, .list (items.map .node))] } = items := by
    simp [Node.children, Value.nodes]
  cases h with
  | ident h => exact .ident rfl rfl rfl
  | embed h => exact .embed rfl rfl
  | quasi h => exact .quasi rfl rfl rfl
  | list h hr =>
    refine .list rfl ?_ ?_
    · rwa [hrow]
    · rw [hrow]
      rfl
  | template h hr => exact .template rfl (by simp [Node.children, Value.nodes]) hr rfl rfl
  | program h hr =>
    refine .program rfl ?_ ?_
    · rwa [hrow]
    · rw [hrow]
      rfl

theorem children_eq_nil (h : Shaped look node) (hk : node.kind ∈ leafKinds) :
    node.children = [] := by
  cases h.form with
  | ident _ hchildren | embed _ hchildren | quasi _ hchildren => exact hchildren
  | list kind | template kind | program kind => simp [kind, leafKinds] at hk

theorem kind_of_child (h : Shaped look node) (hc : c ∈ node.children) :
    (look c).kind ∈ itemKinds ∨ (look c).kind = "Quasi" := by
  cases h.form with
  | ident _ hchildren | embed _ hchildren | quasi _ hchildren => simp [hchildren] at hc
  | list _ hr | program _ hr => exact .inl (hr.isItem c hc)
  | template _ hchildren hw =>
    rw [hchildren, List.mem_append] at hc
    exact hc.symm.imp (hw.isItem c) (hw.isQuasi c)

theorem isItem_of_child (h : Shaped look node) (hk : node.kind ≠ "Template")
    (hc : c ∈ node.children) : (look c).kind ∈ itemKinds := by
  cases h.form with
  | ident _ hchildren | embed _ hchildren | quasi _ hchildren => simp [hchildren] at hc
  | list _ hr | program _ hr => exact hr.isItem c hc
  | template kind => exact absurd kind hk

theorem exists_expressions (h : Shaped look node) (hk : node.kind = "Template") :
    ∃ qs es, quasis node = some qs ∧ node.field? "expressions" = some (.list (es.map .node)) ∧
      node.children = qs ++ es ∧ Woven look node.span qs es := by
  cases h.form with
  | ident kind | embed kind | quasi kind | list kind | program kind => simp [kind] at hk
  | @template qs es kind hchildren hw literals holes =>
    exact ⟨qs, es, quasis_eq_some kind literals, holes, hchildren, hw.widen node.span.contains_interior⟩

theorem exists_woven (h : Shaped look node) (hk : node.kind = "Template") :
    ∃ qs es, quasis node = some qs ∧ node.children = qs ++ es ∧ Woven look node.span qs es := by
  obtain ⟨qs, es, hqs, -, hchildren, hw⟩ := h.exists_expressions hk
  exact ⟨qs, es, hqs, hchildren, hw⟩

theorem inside_interior (h : Shaped look node) (hk : node.kind ≠ "Program")
    (hc : c ∈ node.children) :
    node.span.start < node.span.stop ∧ node.span.interior.contains (look c).span = true := by
  cases h.form with
  | ident _ hchildren | embed _ hchildren | quasi _ hchildren => simp [hchildren] at hc
  | program kind => exact absurd kind hk
  | list kind hr => exact ⟨h.start_lt_stop (by rw [kind]; decide), hr.inside c hc⟩
  | template kind hchildren hw =>
    exact ⟨h.start_lt_stop (by rw [kind]; decide), hw.inside c (hchildren ▸ hc)⟩

theorem inside (h : Shaped look node) (hc : c ∈ node.children) :
    node.span.contains (look c).span = true := by
  cases h.form with
  | program _ hr => exact hr.inside c hc
  | ident kind | embed kind | quasi kind | list kind | template kind =>
    exact Span.contains_trans node.span.contains_interior
      (h.inside_interior (by rw [kind]; decide) hc).2

theorem apart (h : Shaped look node) :
    node.children.Pairwise fun n m => (look n).span.Apart (look m).span := by
  cases h.form with
  | ident _ hchildren | embed _ hchildren | quasi _ hchildren => simp [hchildren]
  | list _ hr | program _ hr => exact hr.apart
  | template _ hchildren hw =>
    rw [hchildren]
    exact hw.apart

end Shaped

/-- A tree of the toy language. -/
structure Parsed (t : Tree) : Prop where
  root_lt : t.root < t.nodes.size
  kind_root : (t.node t.root).kind = "Program"
  start_root : (t.node t.root).span.start = 0
  shaped : ∀ n < t.nodes.size, Shaped t.node (t.node n)
  earlier : ∀ n < t.nodes.size, ∀ c ∈ (t.node n).children, c < n
  nonempty : ∀ c ∈ t.commentIds, (t.comment c).span.start < (t.comment c).span.stop
  covers : ∀ c ∈ t.commentIds, (t.node t.root).span.contains (t.comment c).span = true
  clear : ∀ n < t.nodes.size, ∀ c ∈ t.commentIds, Clear t.node (t.node n) (t.comment c).span

namespace Parsed

variable {t : Tree} {n m : NodeId}

theorem wellNested (h : Parsed t) : t.WellNested :=
  .of_nodes fun n hn => ⟨h.earlier n hn, (h.shaped n hn).forward, fun _ hc => (h.shaped n hn).inside hc,
    (h.shaped n hn).apart⟩

theorem reaches_lt_size (h : Parsed t) (hr : t.Reaches t.root n) : n < t.nodes.size :=
  Nat.lt_of_le_of_lt (h.wellNested.reaches_le hr) h.root_lt

theorem below_lt_size (h : Parsed t) (hb : t.Below t.root n) : n < t.nodes.size :=
  h.reaches_lt_size (.inr hb)

theorem shaped_of_reaches (h : Parsed t) (hr : t.Reaches t.root n) : Shaped t.node (t.node n) :=
  h.shaped n (h.reaches_lt_size hr)

theorem kind_of_below (h : Parsed t) (hn : n < t.nodes.size) (hb : t.Below n m) :
    (t.node m).kind ∈ itemKinds ∨ (t.node m).kind = "Quasi" := by
  obtain ⟨u, hu, hm⟩ := hb.exists_parent
  exact (h.shaped u (Nat.lt_of_le_of_lt (h.wellNested.reaches_le hu) hn)).kind_of_child hm

end Parsed

end Toy

end SourceLayout
