import Mathlib.Algebra.Group.Nat.Defs
import Mathlib.Data.List.Chain
import SourceLayout.Syntax.Cursor

/-! # Where a cursor comes from

Lists, texts and missing values lie between the nodes on the way to a cursor, and a step that leads
nowhere is not refused. Still each node on the way is in a field of the next one above, and the
recorded keys lead from the root to the value of the cursor.
-/

namespace SourceLayout

/-- The nodes of a tree refer only to earlier ones. -/
def Tree.RefersBack (t : Tree) : Prop := ∀ n, ∀ m ∈ (t.node n).children, m < n

theorem Tree.lt_size_of_mem_children {t : Tree} {n m : NodeId} (h : m ∈ (t.node n).children) :
    n < t.nodes.size := by
  by_contra hn
  have hnode : t.node n = { kind := "", span := {} } := by
    simp [Tree.node, Array.getD, hn]
  rw [hnode] at h
  simp [Node.children] at h

theorem Value.mem_nodes_of_element {v e : Value} {m : NodeId} (he : e ∈ v.elements)
    (hm : m ∈ e.nodes) : m ∈ v.nodes := by
  have hall : ∀ items : List Value, e ∈ items → m ∈ Value.nodesAll items := by
    intro items hitems
    induction items with
    | nil => cases hitems
    | cons item items ih =>
      rw [Value.nodesAll, List.mem_append]
      rcases List.mem_cons.mp hitems with rfl | hitems
      · exact .inl hm
      · exact .inr (ih hitems)
  cases v with
  | list items => exact hall items he
  | null | str | node => cases he

theorem Node.mem_children_of_field {node : Node} {name : String} {v : Value} {m : NodeId}
    (hv : node.field? name = some v) (hm : m ∈ v.nodes) : m ∈ node.children := by
  obtain ⟨⟨name', v'⟩, hfind, rfl⟩ := Option.map_eq_some_iff.mp hv
  exact List.mem_flatMap.mpr ⟨_, List.mem_of_find?_eq_some hfind, hm⟩

/-- The tree in the making has got its nodes one after the other, and the fields of each of them
refer only to nodes that were there before. -/
inductive Sapling.Grown : Sapling → Prop
  | seed (source : Source) : Grown { source }
  | node {b : Sapling} {n : Node} (h : Grown b) (hn : ∀ m ∈ n.children, m < b.nodes.size) :
    Grown (b.addNode n).2
  | comment {b : Sapling} (h : Grown b) (span : Span) (kind : CommentKind) :
    Grown (b.addComment span kind)

namespace Sapling

variable {b : Sapling}

theorem Grown.earlier (h : b.Grown) :
    ∀ (n : NodeId) (hn : n < b.nodes.size), ∀ m ∈ b.nodes[n].children, m < n := by
  induction h with
  | seed source => nofun
  | @node b added _ hadded ih =>
    intro n hn m hm
    have hn : n < (b.nodes.push added).size := hn
    change m ∈ (b.nodes.push added)[n].children at hm
    rw [Array.getElem_push] at hm
    split at hm
    · exact ih n _ m hm
    · rw [Array.size_push] at hn
      exact Nat.lt_of_lt_of_le (hadded m hm) (by omega)
  | comment _ span kind ih => exact ih

theorem Grown.refersBack (h : b.Grown) (root : NodeId) : (b.finish root).RefersBack := by
  intro n m hm
  have hn : n < b.nodes.size := Tree.lt_size_of_mem_children hm
  have hnode : (b.finish root).node n = b.nodes[n] := by
    simp [Tree.node, finish, Array.getD_eq_getD_getElem?, hn]
  rw [hnode] at hm
  exact h.earlier n hn m hm

end Sapling

def Tree.lookup (t : Tree) (v : Value) : Option Key → Value
  | some (.field name) => (v.node?.bind fun n => (t.node n).field? name).getD .null
  | some (.index i) => v.elements.getD i .null
  | none => .null

namespace Cursor

variable {t : Tree} {c d : Cursor} {k : Nat} {key : Option Key} {v : Value}

/-- The keys on the way to the cursor, from the root on. -/
def keys (c : Cursor) : List (Option Key) := ((c.here :: c.above).map Frame.key).dropLast.reverse

theorem keys_push (c : Cursor) (key : Option Key) (v : Value) :
    (c.push key v).keys = c.keys ++ [key] := by
  simp [keys, push, List.dropLast_cons_of_ne_nil]

variable (t) in
/-- The cursors that are reached from the root in some number of steps, whether there is anything
where they lead to or not. -/
inductive Walk : Nat → Cursor → Prop
  | start : Walk 0 (atRoot t)
  | enter {k : Nat} {c : Cursor} (h : Walk k c) (name : String) : Walk (k + 1) (c.enter name)
  | enterAt {k : Nat} {c : Cursor} (h : Walk k c) (i : Nat) : Walk (k + 1) (c.enterAt i)
  | element {k : Nat} {c d : Cursor} (h : Walk k c) (hd : d ∈ c.elements) : Walk (k + 1) d

variable (t) in
/-- What is known of a cursor after some number of steps. A value that is not a node itself has only
nodes that are in a field of the nearest node above. -/
structure Traced (k : Nat) (c : Cursor) : Prop where
  tree : c.tree = t
  depth : c.depth = k
  last : c.path.getLast? = some t.root
  chain : c.path.IsChain fun m n => m ∈ (t.node n).children
  inside : c.value.node? = none → ∀ m ∈ c.value.nodes, ∀ n ∈ c.path.head?, m ∈ (t.node n).children
  value : c.keys.foldl t.lookup (.node t.root) = c.value

theorem traced_atRoot (t : Tree) : Traced t 0 (atRoot t) where
  tree := rfl
  depth := rfl
  last := rfl
  chain := .singleton _
  inside := nofun
  value := rfl

namespace Traced

theorem path_ne_nil (h : Traced t k c) : c.path ≠ [] := by
  intro hpath
  have hlast := h.last
  rw [hpath] at hlast
  cases hlast

theorem path_eq (h : Traced t k c) : c.path = c.node :: c.ancestors := by
  rw [node_eq_headD, ancestors]
  obtain ⟨n, rest, hpath⟩ := List.exists_cons_of_ne_nil h.path_ne_nil
  rw [hpath]
  rfl

/-- One step, to a value whose nodes are in fields of the nearest node, and which the recorded key
leads to. -/
theorem push (h : Traced t k c) (hkey : t.lookup c.value key = v)
    (hv : ∀ m ∈ v.nodes, ∀ n ∈ c.path.head?, m ∈ (t.node n).children) :
    Traced t (k + 1) (c.push key v) where
  tree := h.tree
  depth := by rw [depth_push, h.depth]
  last := by rw [path_push, List.getLast?_append_of_ne_nil _ h.path_ne_nil, h.last]
  chain := by
    rw [path_push]
    cases v with
    | node m => exact List.isChain_cons.mpr ⟨hv m (List.mem_singleton_self m), h.chain⟩
    | null | str | list => exact h.chain
  inside hnode := by
    have hpath : (c.push key v).path = c.path := by
      rw [path_push]
      change v.node? = none at hnode
      rw [hnode]
      rfl
    rw [hpath]
    exact hv
  value := by
    rw [keys_push, List.foldl_append, h.value]
    exact hkey

theorem push_null (h : Traced t k c) (hkey : t.lookup c.value key = .null) :
    Traced t (k + 1) (c.push key .null) := h.push hkey nofun

theorem enter (h : Traced t k c) (name : String) : Traced t (k + 1) (c.enter name) := by
  unfold Cursor.enter
  rw [h.tree]
  cases hvalue : c.value.node?.bind fun n => (t.node n).field? name with
  | none => exact h.push_null rfl
  | some v =>
    refine h.push (by rw [Tree.lookup, hvalue, Option.getD_some]) fun m hm n hn => ?_
    obtain ⟨here, hhere, hfield⟩ := Option.bind_eq_some_iff.mp hvalue
    have hpath : c.path.head? = some here := by
      change c.here.value.node? = some here at hhere
      simp [path, hhere]
    rw [hpath] at hn
    obtain rfl := Option.some.inj hn
    exact Node.mem_children_of_field hfield hm

theorem enterAt (h : Traced t k c) (i : Nat) : Traced t (k + 1) (c.enterAt i) := by
  unfold Cursor.enterAt
  cases hvalue : c.value with
  | list items =>
    refine h.push (by rw [hvalue]; rfl) fun m hm => ?_
    refine h.inside (by rw [hvalue]; rfl) m ?_
    rw [hvalue]
    rw [List.getD_eq_getElem?_getD] at hm
    cases hitem : items[i]? with
    | none =>
      rw [Value.elements, hitem] at hm
      cases hm
    | some item =>
      rw [Value.elements, hitem] at hm
      exact Value.mem_nodes_of_element (List.mem_of_getElem? hitem) hm
  | null | str | node => exact h.push_null (by rw [hvalue]; rfl)

end Traced

theorem Walk.traced (h : Walk t k c) : Traced t k c := by
  induction h with
  | start => exact traced_atRoot t
  | enter _ name ih => exact ih.enter name
  | enterAt _ i ih => exact ih.enterAt i
  | @element k c d _ hd ih =>
    rw [elements_eq, List.mem_map] at hd
    obtain ⟨i, -, rfl⟩ := hd
    exact ih.enterAt i

theorem parent?_eq (c : Cursor) {i : Nat} (hi : i < 2 ^ 64 - 1) : c.parent? i = c.path[i + 1]? := by
  have hword : i + 1 < UInt64.size := by
    rw [UInt64.size]
    omega
  rw [parent?, Nat.mod_eq_of_lt hword]

/-- Whatever steps led to a cursor of a tree that was built up from its leaves: the node and those
above it go up to the root, each in a field of the next one and made before it; the parents are read
off in this order; the depth is the number of steps; and the recorded keys lead from the root to the
value. -/
theorem Walk.provenance {b : Sapling} (hb : b.Grown) {root : NodeId}
    (h : Walk (b.finish root) k c) :
    (c.node :: c.ancestors).getLast? = some root ∧
      (c.node :: c.ancestors).IsChain (fun m n => m ∈ ((b.finish root).node n).children) ∧
      (c.node :: c.ancestors).Pairwise (· < ·) ∧
      (∀ i < 2 ^ 64 - 1, c.parent? i = (c.node :: c.ancestors)[i + 1]?) ∧
      c.depth = k ∧
      c.keys.foldl (b.finish root).lookup (.node root) = c.value := by
  have htraced := h.traced
  have hpath := htraced.path_eq
  have hchain := hpath ▸ htraced.chain
  refine ⟨hpath ▸ htraced.last, hchain, ?_, ?_, htraced.depth, htraced.value⟩
  · exact List.isChain_iff_pairwise.mp (hchain.imp fun m n hm => hb.refersBack root n m hm)
  · intro i hi
    rw [parent?_eq c hi, hpath]

def nestedNames : Sapling :=
  let b : Sapling := { source := .ofText "a b".toList }
  let (left, b) := b.addNode { kind := "Name", span := ⟨0, 1⟩ }
  let (right, b) := b.addNode { kind := "Name", span := ⟨2, 3⟩ }
  let all := Value.list [.list [.null, .node right], .node left]
  (b.addNode { kind := "Names", span := ⟨0, 3⟩, fields := [("all", all)] }).2

def offTheTree : Cursor :=
  (((((atRoot (nestedNames.finish 2)).enter "all").enterAt 0).enterAt 1).enter "all").enterAt 7

theorem Walk.provenance_offTheTree :
    offTheTree.node :: offTheTree.ancestors = [1, 2] ∧
      offTheTree.keys = [some (.field "all"), some (.index 0), some (.index 1), none,
        some (.index 7)] ∧
      ([1, 2] : List NodeId).getLast? = some 2 ∧ ([1, 2] : List NodeId).Pairwise (· < ·) ∧
      offTheTree.depth = 5 ∧
      offTheTree.keys.foldl (nestedNames.finish 2).lookup (.node 2) = offTheTree.value := by
  have hgrown : nestedNames.Grown :=
    .node (.node (.node (.seed _) (by decide)) (by decide)) (by decide)
  have hwalk : Walk (nestedNames.finish 2) 5 offTheTree :=
    ((((Walk.start.enter "all").enterAt 0).enterAt 1).enter "all").enterAt 7
  obtain ⟨hlast, -, hless, -, hdepth, hvalue⟩ := hwalk.provenance hgrown
  have hway : offTheTree.node :: offTheTree.ancestors = [1, 2] := by decide
  rw [hway] at hlast hless
  exact ⟨hway, by decide, hlast, hless, hdepth, hvalue⟩

end Cursor

end SourceLayout
