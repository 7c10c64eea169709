import SourceLayout.Comment.Policy
import Std.Data.TreeMap.Lemmas

/-! # The frontier of a node

The frontier of a node holds the nodes below it that its comments may go to, in the order of the
source. A node that cannot hold comments is replaced by its own frontier. Children are made before
their parents, so going down always leads to smaller numbers. Several parents may share a child,
so the frontiers of a tree are kept once they are found.
-/

namespace SourceLayout.CommentPolicy

variable (p : CommentPolicy) (t : Tree)

def candidates (n : NodeId) : List NodeId := (p.offspring t n).getD (t.node n).children

/-- The frontier of a node, given those of the nodes with smaller numbers. -/
def frontierFrom (earlier : NodeId → List NodeId) (n : NodeId) : List NodeId :=
  sortBySpan (fun c => (t.node c).span) <| (p.candidates t n).flatMap fun c =>
    if p.canHold (t.node c) then [c]
    else if c < n then earlier c
    else []

def frontier (n : NodeId) : List NodeId :=
  sortBySpan (fun c => (t.node c).span) <| (p.candidates t n).flatMap fun c =>
    if p.canHold (t.node c) then [c]
    else if _h : c < n then frontier c
    else []
termination_by n

theorem frontier_eq (n : NodeId) : p.frontier t n = p.frontierFrom t (p.frontier t) n := by
  rw [frontier, frontierFrom]
  simp only [dite_eq_ite]

theorem frontierFrom_congr {f g : NodeId → List NodeId} {n : NodeId} (h : ∀ c < n, f c = g c) :
    p.frontierFrom t f n = p.frontierFrom t g n := by
  rw [frontierFrom, frontierFrom]
  congr 2
  funext c
  split
  · rfl
  · split
    · exact h c ‹_›
    · rfl

/-- The frontiers of the nodes with numbers below `n`, each found when it is first asked for. -/
def frontierTable : (n : Nat) → Std.TreeMap NodeId (Thunk (List NodeId))
  | 0 => ∅
  | n + 1 =>
    let earlier := frontierTable n
    earlier.insert n <| Thunk.mk fun _ =>
      p.frontierFrom t (fun c => (earlier[c]?.map Thunk.get).getD []) n

/-- The table has the frontiers of just the nodes below its bound. -/
theorem map_get_frontierTable (n c : Nat) :
    (p.frontierTable t n)[c]?.map Thunk.get = if c < n then some (p.frontier t c) else none := by
  induction n generalizing c with
  | zero => simp [frontierTable]
  | succ n ih =>
    rw [frontierTable, Std.TreeMap.getElem?_insert]
    by_cases hc : n = c
    · subst hc
      have hf : ∀ d < n, ((p.frontierTable t n)[d]?.map Thunk.get).getD [] = p.frontier t d := by
        intro d hd
        rw [ih, if_pos hd, Option.getD_some]
      rw [if_pos (by simp), if_pos (Nat.lt_succ_self n), frontier_eq,
        ← frontierFrom_congr p t hf]
      rfl
    · rw [if_neg (by simpa using hc), ih]
      by_cases h : c < n
      · rw [if_pos h, if_pos (by omega)]
      · rw [if_neg h, if_neg (by omega)]

/-- The frontiers of the nodes of a tree, each found at most once. -/
structure Frontiers where
  table : Std.TreeMap NodeId (Thunk (List NodeId))
  table_eq : table = p.frontierTable t t.nodes.size

def frontiers : Frontiers p t := { table := p.frontierTable t t.nodes.size, table_eq := rfl }

variable {p t} in
def Frontiers.find (f : Frontiers p t) (n : NodeId) : List NodeId :=
  match f.table[n]? with
  | some found => found.get
  | none => p.frontier t n

variable {p t} in
@[simp] theorem Frontiers.find_eq (f : Frontiers p t) (n : NodeId) :
    f.find n = p.frontier t n := by
  have hn := p.map_get_frontierTable t t.nodes.size n
  rw [find]
  split
  · rename_i found hf
    rw [← f.table_eq, hf, Option.map_some] at hn
    split at hn
    · exact Option.some.inj hn
    · cases hn
  · rfl

/-- Where a place lies as seen from a node. -/
inductive Side
  | inside
  | before
  | after
  | across
  deriving DecidableEq, Repr

inductive Finding
  | inside (n : NodeId)
  | across (n : NodeId)
  | between (preceding following : Option NodeId)
  deriving DecidableEq, Repr

/-- Looks for a place among nodes by halving; `preceding` and `following` are the nearest nodes
known so far on either side. -/
def search (side : NodeId → Side) (nodes : List NodeId) (preceding following : Option NodeId) :
    Finding :=
  match _h : nodes.drop (nodes.length / 2) with
  | [] => .between preceding following
  | n :: rest =>
    match side n with
    | .inside => .inside n
    | .across => .across n
    | .before => search side rest (some n) following
    | .after => search side (nodes.take (nodes.length / 2)) preceding (some n)
termination_by nodes.length
decreasing_by
  · have hlen := congrArg List.length _h
    simp only [List.length_drop, List.length_cons] at hlen
    omega
  · have hlen := congrArg List.length _h
    simp only [List.length_drop, List.length_cons] at hlen
    rw [List.length_take]
    omega

variable {p t} in
/-- Goes down from a node as long as one of its frontier holds the place, and tells where the
way ends and what was found there. -/
def Frontiers.descend (f : Frontiers p t) (side : NodeId → Side) (n : NodeId) : NodeId × Finding :=
  match search side (f.find n) none none with
  | .inside c => if _h : c < n then f.descend side c else (n, .inside c)
  | finding => (n, finding)
termination_by n

/-- Where a span lies as seen from another. A span that touches another lies beside it, unless it
lies inside. -/
def sideOfSpan (place node : Span) : Side :=
  if node.contains place then .inside
  else if node.stop ≤ place.start then .before
  else if place.stop ≤ node.start then .after
  else .across

def sideOfOffset (offset : Nat) (node : Span) : Side :=
  if node.stop < offset then .before
  else if offset < node.start then .after
  else .inside

/-- The innermost node that holds an offset and may hold comments. -/
def nodeAt? (offset : Nat) : Option NodeId :=
  match sideOfOffset offset (t.node t.root).span with
  | .inside =>
    some ((p.frontiers t).descend (fun n => sideOfOffset offset (t.node n).span) t.root).1
  | _ => none

end SourceLayout.CommentPolicy
