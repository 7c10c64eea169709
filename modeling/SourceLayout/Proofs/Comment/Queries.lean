import SourceLayout.Proofs.Comment.Offset
import SourceLayout.Proofs.Syntax.Provenance
import SourceLayout.Proofs.Syntax.Sorting

/-! # Asking for frontiers

A frontier is asked for when the search comes to its node. It is put together from the frontiers of
the nodes that hand their comments down, which are asked for in turn, and it is kept for the next
time. Whatever has been asked for before, the answer is the same: the nodes in the order of the
fields, sorted once. That the asking ends, and the going down too, rests on the numbers of the
nodes alone and not on their spans.
-/

namespace SourceLayout.CommentPolicy

variable {p : CommentPolicy} {t : Tree} {n c last : NodeId} {way found asked : List NodeId}
  {side : NodeId → Side}

section FieldOrder

variable (p t) in
/-- The frontier of a node in the order of its fields. -/
def inFieldOrder (n : NodeId) : List NodeId :=
  (p.candidates t n).flatMap fun c =>
    if p.canHold (t.node c) then [c]
    else if _h : c < n then inFieldOrder c
    else []
termination_by n

/-- Sorting what each node hands down, and then all of it, comes to sorting once. -/
theorem frontier_eq_sortBySpan_inFieldOrder (n : NodeId) :
    p.frontier t n = sortBySpan (fun c => (t.node c).span) (p.inFieldOrder t n) := by
  induction n using Nat.strongRecOn with
  | ind n ih =>
    rw [frontier_eq, frontierFrom, inFieldOrder]
    apply eq_sortBySpan (pairwise_sortBySpan _ _)
    intro s
    rw [filter_sortBySpan, List.filter_flatMap, List.filter_flatMap]
    congr 1
    funext c
    split
    · rfl
    · split
      · rename_i hcn
        rw [ih c hcn, filter_sortBySpan]
      · rfl

end FieldOrder

section Asking

abbrev Memory := NodeId → Option (List NodeId)

def Memory.fresh : Memory := fun _ => none

def Memory.keep (memory : Memory) (n : NodeId) (found : List NodeId) : Memory :=
  fun m => if m = n then some found else memory m

variable {memory memory' : Memory}

variable (p t) in
mutual

/-- Asking for the frontier of a node ends with an answer, and with a memory that has it. -/
inductive Asks : Memory → NodeId → List NodeId → Memory → Prop
  | known {memory : Memory} {n : NodeId} {found : List NodeId} (h : memory n = some found) :
    Asks memory n found memory
  | found {memory memory' : Memory} {n : NodeId} {raw : List NodeId} (h : memory n = none)
    (hraw : Gathers memory (p.candidates t n) raw memory') :
    Asks memory n (sortBySpan (fun c => (t.node c).span) raw)
      (memory'.keep n (sortBySpan (fun c => (t.node c).span) raw))

inductive Gathers : Memory → List NodeId → List NodeId → Memory → Prop
  | nil {memory : Memory} : Gathers memory [] [] memory
  | held {memory memory' : Memory} {c : NodeId} {cs raw : List NodeId}
    (hc : p.canHold (t.node c) = true) (h : Gathers memory cs raw memory') :
    Gathers memory (c :: cs) (c :: raw) memory'
  | handed {memory between memory' : Memory} {c : NodeId} {cs found raw : List NodeId}
    (hc : p.canHold (t.node c) = false) (hfound : Asks memory c found between)
    (h : Gathers between cs raw memory') :
    Gathers memory (c :: cs) (found ++ raw) memory'

end

variable (p t) in
/-- The frontiers of these nodes have been asked for, one after the other. -/
inductive Queried : List NodeId → Memory → Prop
  | nothing : Queried [] .fresh
  | next {asked : List NodeId} {memory memory' : Memory} {n : NodeId} {found : List NodeId}
    (h : Queried asked memory) (hn : Asks p t memory n found memory') :
    Queried (asked ++ [n]) memory'

variable (p t side) in
/-- Going down from `n`, each frontier is asked for, and the node in it that holds the place is gone
into. -/
inductive Visits : Memory → (n : NodeId) → (way : List NodeId) → (last : NodeId) → Memory → Prop
  | stay {memory memory' : Memory} {n : NodeId} {found : List NodeId}
    (hn : Asks p t memory n found memory') (h : ∀ m, search side found none none ≠ .inside m) :
    Visits memory n [] n memory'
  | enter {memory between memory' : Memory} {n m last : NodeId} {found way : List NodeId}
    (hn : Asks p t memory n found between) (hm : search side found none none = .inside m)
    (h : Visits between m way last memory') : Visits memory n (m :: way) last memory'

theorem Queried.visits (h : Visits p t side memory n way last memory')
    (hasked : Queried p t asked memory) : Queried p t (asked ++ n :: way) memory' := by
  induction h generalizing asked with
  | stay hn => exact hasked.next hn
  | enter hn _ _ ih =>
    rw [List.append_cons]
    exact ih (hasked.next hn)

variable (p t) in
/-- All that is kept for nodes of the tree is right. -/
def Memory.Right (memory : Memory) : Prop :=
  ∀ n < t.nodes.size, ∀ found, memory n = some found → found = p.frontier t n

theorem Memory.Right.keep (h : memory.Right p t)
    (hfound : n < t.nodes.size → found = p.frontier t n) : (memory.keep n found).Right p t := by
  intro m hm kept hkept
  unfold Memory.keep at hkept
  split at hkept
  · rename_i hmn
    subst hmn
    rw [← Option.some.inj hkept]
    exact hfound hm
  · exact h m hm kept hkept

mutual

/-- A memory that is right gives the right answer and stays right. -/
theorem Asks.right (hearlier : ∀ n < t.nodes.size, ∀ c ∈ p.candidates t n, c < n)
    {memory memory' : Memory} {n : NodeId} {found : List NodeId} (hright : memory.Right p t) :
    Asks p t memory n found memory' →
      memory'.Right p t ∧ (n < t.nodes.size → found = p.frontier t n)
  | .known h => ⟨hright, fun hn => hright n hn found h⟩
  | .found _ hraw => by
    obtain ⟨hright', hraw⟩ := Gathers.right hearlier hright hraw
    suffices hfound : n < t.nodes.size → _ = p.frontier t n from ⟨hright'.keep hfound, hfound⟩
    intro hn
    rw [frontier_eq_of_lt (hearlier n hn),
      hraw fun c hc => Nat.lt_trans (hearlier n hn c hc) hn]

theorem Gathers.right (hearlier : ∀ n < t.nodes.size, ∀ c ∈ p.candidates t n, c < n)
    {memory memory' : Memory} {cs raw : List NodeId} (hright : memory.Right p t) :
    Gathers p t memory cs raw memory' →
      memory'.Right p t ∧ ((∀ c ∈ cs, c < t.nodes.size) →
        raw = cs.flatMap fun c => if p.canHold (t.node c) then [c] else p.frontier t c)
  | .nil => ⟨hright, fun _ => rfl⟩
  | .held hc h => by
    obtain ⟨hright', hraw⟩ := Gathers.right hearlier hright h
    refine ⟨hright', fun hcs => ?_⟩
    rw [List.flatMap_cons, if_pos hc, ← hraw (List.forall_mem_cons.mp hcs).2, List.singleton_append]
  | .handed hc hfound h => by
    obtain ⟨hbetween, hfound⟩ := Asks.right hearlier hright hfound
    obtain ⟨hright', hraw⟩ := Gathers.right hearlier hbetween h
    refine ⟨hright', fun hcs => ?_⟩
    obtain ⟨hhead, hcs⟩ := List.forall_mem_cons.mp hcs
    rw [List.flatMap_cons, hc, if_neg Bool.false_ne_true, ← hfound hhead, ← hraw hcs]

end

theorem exists_gathers {cs : List NodeId}
    (hcs : ∀ c ∈ cs, ∀ memory, ∃ found memory', Asks p t memory c found memory')
    (memory : Memory) : ∃ raw memory', Gathers p t memory cs raw memory' := by
  induction cs generalizing memory with
  | nil => exact ⟨[], memory, .nil⟩
  | cons c cs ih =>
    obtain ⟨hc, hcs⟩ := List.forall_mem_cons.mp hcs
    cases hhold : p.canHold (t.node c) with
    | true =>
      obtain ⟨raw, memory', h⟩ := ih hcs memory
      exact ⟨c :: raw, memory', .held hhold h⟩
    | false =>
      obtain ⟨found, between, hfound⟩ := hc memory
      obtain ⟨raw, memory', h⟩ := ih hcs between
      exact ⟨found ++ raw, memory', .handed hhold hfound h⟩

section Earlier

variable (hearlier : ∀ n < t.nodes.size, ∀ c ∈ p.candidates t n, c < n)
include hearlier

/-- Asking ends, as it goes on to earlier nodes only. -/
theorem exists_asks (hn : n < t.nodes.size) (memory : Memory) :
    ∃ found memory', Asks p t memory n found memory' := by
  induction n using Nat.strongRecOn generalizing memory with
  | ind n ih =>
    cases hknown : memory n with
    | some found => exact ⟨found, memory, .known hknown⟩
    | none =>
      have hcs :
          ∀ c ∈ p.candidates t n, ∀ memory, ∃ found memory', Asks p t memory c found memory' :=
        fun c hc => ih c (hearlier n hn c hc) (Nat.lt_trans (hearlier n hn c hc) hn)
      obtain ⟨raw, memory', hraw⟩ := exists_gathers hcs memory
      exact ⟨_, _, .found hknown hraw⟩

/-- Whatever has been asked for, what was kept is right. -/
theorem Queried.right (h : Queried p t asked memory) : memory.Right p t := by
  induction h with
  | nothing => nofun
  | next _ hn ih => exact (hn.right hearlier ih).1

theorem exists_queried (hasked : ∀ n ∈ asked, n < t.nodes.size) :
    ∃ memory, Queried p t asked memory := by
  induction asked using List.reverseRecOn with
  | nil => exact ⟨.fresh, .nothing⟩
  | append_singleton asked n ih =>
    rw [List.forall_mem_append] at hasked
    obtain ⟨memory, h⟩ := ih hasked.1
    obtain ⟨found, memory', hn⟩ :=
      exists_asks hearlier (hasked.2 n (List.mem_singleton_self n)) memory
    exact ⟨memory', .next h hn⟩

theorem Visits.descends (h : Visits p t side memory n way last memory')
    (hright : memory.Right p t) (hn : n < t.nodes.size) : Descends p t side n way last := by
  induction h with
  | stay hask h =>
    rw [(hask.right hearlier hright).2 hn] at h
    exact .stay h
  | enter hask hm _ ih =>
    obtain ⟨hbetween, hfound⟩ := hask.right hearlier hright
    rw [hfound hn] at hm
    have hlt := lt_of_mem_frontier hearlier hn (search_eq_inside hm).1
    exact .enter hm (ih hbetween (Nat.lt_trans hlt hn))

theorem Descends.exists_visits (h : Descends p t side n way last) (hright : memory.Right p t)
    (hn : n < t.nodes.size) : ∃ memory', Visits p t side memory n way last memory' := by
  induction h generalizing memory with
  | stay h =>
    obtain ⟨found, memory', hask⟩ := exists_asks hearlier hn memory
    rw [← (hask.right hearlier hright).2 hn] at h
    exact ⟨memory', .stay hask h⟩
  | enter hm _ ih =>
    have hlt := lt_of_mem_frontier hearlier hn (search_eq_inside hm).1
    obtain ⟨found, between, hask⟩ := exists_asks hearlier hn memory
    obtain ⟨hbetween, hfound⟩ := hask.right hearlier hright
    obtain ⟨memory', hvisits⟩ := ih hbetween (Nat.lt_trans hlt hn)
    rw [← hfound hn] at hm
    exact ⟨memory', .enter hask hm hvisits⟩

theorem neighbours_ne_unbounded (f : Frontiers p t) (hroot : t.root < t.nodes.size)
    (c : CommentId) : f.neighbours c ≠ .error .unbounded := by
  obtain ⟨way, last, hway⟩ := exists_descends_of_lt hearlier
    (fun n => sideOfSpan (t.comment c).span (t.node n).span) hroot
  unfold Frontiers.neighbours
  dsimp only
  rw [hway.descend_eq hearlier f hroot]
  cases hs : search (fun n => sideOfSpan (t.comment c).span (t.node n).span) (p.frontier t last)
    none none with
  | inside m => exact absurd hs (hway.search_ne_inside m)
  | across | between => nofun

end Earlier

end Asking

section Earlier

variable (p t) in
/-- Where the policy chooses the nodes that comments in a node may go to, it chooses earlier ones. -/
def ChoosesEarlier : Prop :=
  ∀ n < t.nodes.size, ∀ chosen, p.offspring t n = some chosen → ∀ c ∈ chosen, c < n

theorem ChoosesEarlier.candidates_lt (hp : p.ChoosesEarlier t) (ht : t.RefersBack) :
    ∀ n < t.nodes.size, ∀ c ∈ p.candidates t n, c < n := by
  intro n hn c hc
  rw [candidates] at hc
  cases hchosen : p.offspring t n with
  | none =>
    rw [hchosen] at hc
    exact ht n c hc
  | some chosen =>
    rw [hchosen] at hc
    exact hp n hn chosen hchosen c hc

variable (p t) in
/-- The frontiers of a tree do not depend on what has been asked for, and going down among them
ends. -/
structure FrontiersFound : Prop where
  inFieldOrder_eq : ∀ n < t.nodes.size, p.inFieldOrder t n =
    ((p.offspring t n).getD ((t.node n).fields.flatMap fun field => field.2.nodes)).flatMap
      fun c => if p.canHold (t.node c) then [c] else p.inFieldOrder t c
  sorted : ∀ n < t.nodes.size, StablySorts (fun c => (t.node c).span) (p.inFieldOrder t n)
    ((p.frontiers t).find n)
  queries_end : ∀ asked : List NodeId, (∀ n ∈ asked, n < t.nodes.size) →
    ∃ memory, Queried p t asked memory
  asking_ends : ∀ asked memory, Queried p t asked memory → ∀ n < t.nodes.size,
    (∃ memory', Asks p t memory n ((p.frontiers t).find n) memory') ∧
      ∀ found memory', Asks p t memory n found memory' → found = (p.frontiers t).find n
  descent_ends : ∀ asked memory, Queried p t asked memory → ∀ side, ∀ n < t.nodes.size,
    ∃ way last memory', Visits p t side memory n way last memory'
  descent_falls : ∀ asked memory, Queried p t asked memory → ∀ side, ∀ n < t.nodes.size,
    ∀ way last memory', Visits p t side memory n way last memory' →
      (n :: way).Pairwise (· > ·) ∧ (n :: way).getLast? = some last ∧
        Queried p t (asked ++ n :: way) memory' ∧ (p.frontiers t).descend side n =
          (last, search side ((p.frontiers t).find last) none none)
  neighbours_end : t.root < t.nodes.size → ∀ c,
    (p.frontiers t).neighbours c ≠ .error .unbounded
  nodeAt?_ends : t.root < t.nodes.size → ∀ offset way last memory,
    Visits p t (fun n => sideOfOffset offset (t.node n).span) .fresh t.root way last memory →
      p.nodeAt? t offset = if (t.node t.root).span.Holds offset then some last else none

/-- In a tree whose nodes refer to earlier ones, whatever their spans are, each frontier is the nodes
in a node in the order of the fields, sorted once and stably. It is the same after any earlier
queries, and going down from any node ends, in nodes with smaller and smaller numbers. -/
theorem frontiersFound (ht : t.RefersBack) (hp : p.ChoosesEarlier t) : FrontiersFound p t := by
  have hearlier := hp.candidates_lt ht
  constructor
  case inFieldOrder_eq =>
    intro n hn
    rw [inFieldOrder]
    apply List.flatMap_congr
    intro c hc
    rw [dif_pos (hearlier n hn c hc)]
  case sorted =>
    intro n _
    rw [Frontiers.find_eq, stablySorts_iff]
    exact frontier_eq_sortBySpan_inFieldOrder n
  case queries_end => exact fun asked => exists_queried hearlier
  case asking_ends =>
    intro asked memory hasked n hn
    have hanswer : ∀ found memory', Asks p t memory n found memory' →
        found = (p.frontiers t).find n := by
      intro found memory' h
      rw [Frontiers.find_eq]
      exact (h.right hearlier (hasked.right hearlier)).2 hn
    obtain ⟨found, memory', h⟩ := exists_asks hearlier hn memory
    exact ⟨⟨memory', hanswer found memory' h ▸ h⟩, hanswer⟩
  case descent_ends =>
    intro asked memory hasked side n hn
    obtain ⟨way, last, hway⟩ := exists_descends_of_lt hearlier side hn
    exact ⟨way, last, hway.exists_visits hearlier (hasked.right hearlier) hn⟩
  case descent_falls =>
    intro asked memory hasked side n hn way last memory' h
    have hway := h.descends hearlier (hasked.right hearlier) hn
    refine ⟨List.isChain_iff_pairwise.mp (hway.isChain hearlier hn), hway.getLast?_eq,
      hasked.visits h, ?_⟩
    rw [Frontiers.find_eq]
    exact hway.descend_eq hearlier _ hn
  case neighbours_end => exact fun hroot => neighbours_ne_unbounded hearlier _ hroot
  case nodeAt?_ends =>
    intro hroot offset way last memory h
    have hway := h.descends hearlier (Queried.nothing.right hearlier) hroot
    exact nodeAt?_eq_of_descend (hway.descend_eq hearlier _ hroot)

end Earlier

def sharedGlue : Tree where
  source := .ofText "ab  c de".toList
  nodes := #[{ kind := "Name", span := ⟨4, 5⟩ }, { kind := "Name", span := ⟨4, 5⟩ },
    { kind := "Name", span := ⟨0, 2⟩ },
    { kind := "Glue", span := ⟨9, 3⟩, fields := [("all", .list [.node 2])] },
    { kind := "Names", span := ⟨0, 8⟩,
      fields := [("first", .node 3), ("all", .list [.node 0, .list [.node 3, .node 2]])] }]
  comments := #[⟨⟨2, 3⟩, .block, [' ']⟩]
  root := 4

def namesForGlue : CommentPolicy where
  canHold n := n.kind != "Glue"
  offspring t n := if (t.node n).kind == "Glue" then some [1, 0] else none

theorem frontiersFound_sharedGlue :
    StablySorts (fun c => (sharedGlue.node c).span) [1, 0, 0, 1, 0, 2] [2, 1, 0, 0, 1, 0] ∧
      (∃ memory memory', Queried namesForGlue sharedGlue [3, 4] memory ∧
        Asks namesForGlue sharedGlue memory 4 [2, 1, 0, 0, 1, 0] memory') ∧
      ∃ way memory, Visits namesForGlue sharedGlue
        (fun n => sideOfOffset 4 (sharedGlue.node n).span) .fresh 4 way 0 memory ∧
          (4 :: way).Pairwise (· > ·) := by
  have hlt : ∀ n < sharedGlue.nodes.size, ∀ c ∈ (sharedGlue.node n).children, c < n := by decide
  have hback : sharedGlue.RefersBack := fun n c hc => hlt n (Tree.lt_size_of_mem_children hc) c hc
  have hchosen : namesForGlue.ChoosesEarlier sharedGlue := by
    unfold ChoosesEarlier
    decide
  have hspec := frontiersFound hback hchosen
  have hraw : namesForGlue.inFieldOrder sharedGlue 4 = [1, 0, 0, 1, 0, 2] := by decide +kernel
  have hfind : (namesForGlue.frontiers sharedGlue).find 4 = [2, 1, 0, 0, 1, 0] := by decide +kernel
  have hnode : namesForGlue.nodeAt? sharedGlue 4 = some 0 := by decide +kernel
  obtain ⟨memory, hasked⟩ := hspec.queries_end [3, 4] (by decide)
  obtain ⟨⟨memory', hanswer⟩, -⟩ := hspec.asking_ends _ _ hasked 4 (by decide)
  obtain ⟨way, last, memory'', hvisits⟩ := hspec.descent_ends [] .fresh .nothing
    (fun n => sideOfOffset 4 (sharedGlue.node n).span) 4 (by decide)
  have hlast := hspec.nodeAt?_ends (by decide) 4 way last memory'' hvisits
  rw [hnode, if_pos (by decide)] at hlast
  obtain rfl := Option.some.inj hlast
  refine ⟨hraw ▸ hfind ▸ hspec.sorted 4 (by decide), ⟨memory, memory', hasked, hfind ▸ hanswer⟩,
    way, memory'', hvisits, ?_⟩
  exact (hspec.descent_falls [] .fresh .nothing _ 4 (by decide) way 0 memory'' hvisits).1

end SourceLayout.CommentPolicy
