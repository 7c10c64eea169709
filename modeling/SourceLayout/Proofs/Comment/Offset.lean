import SourceLayout.Proofs.Comment.Way

/-! # The node at an offset

The ends of a span belong to it here, so nodes that touch both hold the offset between them, and
an empty node holds its own place. The halving still passes over no node that holds the offset:
the nodes of a frontier that end before it come first, and those that start after it last.
-/

namespace SourceLayout

def Span.Holds (s : Span) (offset : Nat) : Prop := s.start ≤ offset ∧ offset ≤ s.stop

instance (s : Span) (offset : Nat) : Decidable (s.Holds offset) :=
  inferInstanceAs (Decidable (_ ∧ _))

namespace CommentPolicy

variable {p : CommentPolicy} {t : Tree} {offset : Nat} {node : Span} {way : List NodeId}
  {n last : NodeId}

section Side

theorem sideOfOffset_eq_inside_iff : sideOfOffset offset node = .inside ↔ node.Holds offset := by
  unfold sideOfOffset Span.Holds
  split_ifs <;> simp <;> omega

theorem sideOfOffset_eq_before_iff : sideOfOffset offset node = .before ↔ node.stop < offset := by
  unfold sideOfOffset
  split_ifs <;> simp_all

theorem sideOfOffset_eq_after_iff (hn : node.start ≤ node.stop) :
    sideOfOffset offset node = .after ↔ offset < node.start := by
  unfold sideOfOffset
  split_ifs <;> simp <;> omega

theorem sideOfOffset_ne_across : sideOfOffset offset node ≠ .across := by
  unfold sideOfOffset
  split_ifs <;> nofun

end Side

theorem nodeAt?_eq_of_descend {finding : Finding}
    (h : (p.frontiers t).descend (fun n => sideOfOffset offset (t.node n).span) t.root =
      (last, finding)) :
    p.nodeAt? t offset = if (t.node t.root).span.Holds offset then some last else none := by
  have hroot : sideOfOffset offset (t.node t.root).span = .inside ↔
      (t.node t.root).span.Holds offset := sideOfOffset_eq_inside_iff
  unfold nodeAt?
  rw [h]
  split
  · rename_i hside
    rw [if_pos (hroot.mp hside)]
  · rename_i hside
    rw [if_neg fun h => hside (hroot.mpr h)]

variable (p t offset) in
/-- Going down to an offset, each node leads to one that takes its comments and holds the offset. -/
def TowardsOffset (n c : NodeId) : Prop := Handed p t n c ∧ (t.node c).span.Holds offset

section Spans

variable (hoff : ∀ n, p.offspring t n = none)
include hoff

theorem Descends.towardsOffset (hearlier : ∀ n, ∀ c ∈ (t.node n).children, c < n)
    (h : Descends p t (fun n => sideOfOffset offset (t.node n).span) n way last) :
    Relation.ReflTransGen (TowardsOffset p t offset) n last := by
  induction h with
  | stay => exact .refl
  | enter hm _ ih =>
    obtain ⟨hmem, hside⟩ := search_eq_inside hm
    exact .head ⟨(mem_frontier_iff hoff hearlier).mp hmem, sideOfOffset_eq_inside_iff.mp hside⟩ ih

variable (hw : t.WellNested)
include hw

theorem ordered_sideOfOffset (offset : Nat) (n : NodeId) :
    Ordered (fun n => sideOfOffset offset (t.node n).span) (p.frontier t n) := by
  refine (pairwise_frontier hoff hw n).imp fun {c d} hcd => ?_
  have hc := hw.forward c
  have hd := hw.forward d
  rw [sideOfOffset_eq_before_iff, sideOfOffset_eq_before_iff, sideOfOffset_eq_after_iff hc,
    sideOfOffset_eq_after_iff hd]
  omega

/-- A search that goes into no node has passed over none that holds the offset. -/
theorem not_holds_of_search
    (h : ∀ m, search (fun n => sideOfOffset offset (t.node n).span) (p.frontier t n) none none ≠
      .inside m) : ∀ c, Handed p t n c → ¬ (t.node c).span.Holds offset := by
  intro c hc hholds
  have hmem := (mem_frontier_iff hoff hw.earlier).mpr hc
  have hside := sideOfOffset_eq_inside_iff.mpr hholds
  cases hs : search (fun n => sideOfOffset offset (t.node n).span) (p.frontier t n) none none with
  | inside m => exact h m hs
  | across m => exact sideOfOffset_ne_across (search_eq_across hs).2
  | between before after =>
    rcases (search_eq_between (ordered_sideOfOffset hoff hw offset n) hs).1 c hmem with hc | hc <;>
      simp [hside] at hc

/-- The node at an offset is the last one on a way down, and there is one if the root holds the
offset. -/
theorem nodeAt?_eq (offset : Nat) : ∃ way last,
    Descends p t (fun n => sideOfOffset offset (t.node n).span) t.root way last ∧
      p.nodeAt? t offset = if (t.node t.root).span.Holds offset then some last else none := by
  obtain ⟨way, last, hway, hdescend⟩ := exists_descends hoff hw.earlier (p.frontiers t)
    (fun n => sideOfOffset offset (t.node n).span) t.root
  exact ⟨way, last, hway, nodeAt?_eq_of_descend hdescend⟩

/-- In a well-nested tree there is a node at every offset of the root and at no other one. It is
reached from the root through nodes that hold the offset, each of them taking the comments of the
one before, and no node that takes its own comments holds the offset. -/
theorem nodeAt?_innermost (offset : Nat) :
    (p.nodeAt? t offset = none ↔ ¬ (t.node t.root).span.Holds offset) ∧
      ∀ n, p.nodeAt? t offset = some n →
        Relation.ReflTransGen (TowardsOffset p t offset) t.root n ∧
          ∀ c, Handed p t n c → ¬ (t.node c).span.Holds offset := by
  obtain ⟨way, last, hway, hnode⟩ := nodeAt?_eq (p := p) hoff hw offset
  rw [hnode]
  split
  · rename_i hholds
    refine ⟨⟨nofun, fun hnot => absurd hholds hnot⟩, ?_⟩
    rintro _ ⟨⟩
    exact ⟨hway.towardsOffset hoff hw.earlier, not_holds_of_search hoff hw hway.search_ne_inside⟩
  · rename_i hnot
    exact ⟨⟨fun _ => hnot, fun _ => rfl⟩, nofun⟩

end Spans

def touchingNames : Tree where
  source := .ofText "abc de f".toList
  nodes := #[{ kind := "Name", span := ⟨0, 2⟩ }, { kind := "Name", span := ⟨2, 2⟩ },
    { kind := "Name", span := ⟨2, 3⟩ },
    { kind := "Glue", span := ⟨2, 5⟩, fields := [("all", .list [.node 1, .node 2])] },
    { kind := "Name", span := ⟨7, 8⟩ },
    { kind := "Names", span := ⟨0, 8⟩,
      fields := [("all", .list [.node 0, .node 3]), ("rest", .node 4)] }]
  comments := #[]
  root := 5

def withoutGlue : CommentPolicy := { canHold := (·.kind != "Glue") }

theorem nodeAt?_innermost_touchingNames :
    Relation.ReflTransGen (TowardsOffset withoutGlue touchingNames 2) 5 2 ∧
      (∀ c, Handed withoutGlue touchingNames 5 c → ¬ (touchingNames.node c).span.Holds 5) ∧
      ¬ (touchingNames.node touchingNames.root).span.Holds 9 := by
  have hspec := nodeAt?_innermost (p := withoutGlue) (t := touchingNames) (fun _ => rfl)
    (.of_nodes (by decide))
  have htouching : withoutGlue.nodeAt? touchingNames 2 = some 2 := by decide +kernel
  have hgap : withoutGlue.nodeAt? touchingNames 5 = some 5 := by decide +kernel
  have hbehind : withoutGlue.nodeAt? touchingNames 9 = none := by decide +kernel
  exact ⟨((hspec 2).2 2 htouching).1, ((hspec 5).2 5 hgap).2, (hspec 9).1.mp hbehind⟩

end CommentPolicy

end SourceLayout
