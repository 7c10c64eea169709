import SourceLayout.Proofs.Toy.Blocks
import SourceLayout.Proofs.Toy.Slots

/-! # What toy nodes show

A pass gets to a node if no node above it is behind a marker. If that is the node with the cursor,
all nodes above it show the marks, and the other nodes show what they show without a cursor.
-/

namespace SourceLayout

namespace Account

def tips (x : Account Doc) : List Tip :=
  match x.outcome with
  | .ok doc => doc.tips
  | .error _ => []

theorem Gives.tips_eq {x : Account Doc} {ts : List Tip} (h : x.Gives (·.tips = ts)) :
    x.tips = ts := by
  obtain ⟨doc, hx, hdoc⟩ := h
  rw [Account.tips, hx]
  exact hdoc

theorem Gives.tips {x : Account Doc} {P : Doc → Prop} (h : x.Gives P) :
    x.Gives (·.tips = x.tips) := by
  obtain ⟨doc, hx, -⟩ := h
  refine ⟨doc, hx, ?_⟩
  rw [Account.tips, hx]

end Account

namespace Toy

open Account Doc Meaning

variable {t : Tree} {a : Attachments} {n m k d : NodeId}

/-- A pass from one node gets to another: none on the way is behind a marker. The node that it gets
to may be. -/
structure Displayed (t : Tree) (a : Attachments) (n m : NodeId) : Prop where
  reached : t.Reaches n m
  unmarked : ∀ k, t.Reaches n k → t.Below k m → isMarked t a k = false

theorem Displayed.refl (h : Parsed t) (n : NodeId) : Displayed t a n n := by
  refine ⟨t.reaches_self n, fun k hnk hkn => ?_⟩
  exact absurd (h.wellNested.below_lt hkn) (Nat.not_lt_of_le (h.wellNested.reaches_le hnk))

theorem displayed_iff (h : Parsed t) (hr : t.Reaches t.root n) (hk : (t.node m).kind ≠ "Quasi") :
    Displayed t a n m ↔
      m = n ∨ isMarked t a n = false ∧ ∃ d ∈ (t.node n).children, Displayed t a d m := by
  constructor
  · rintro ⟨rfl | hb, hunmarked⟩
    · exact .inl rfl
    · obtain ⟨d, hd, hdm⟩ := hb.exists_child
      refine .inr ⟨hunmarked n (t.reaches_self n) hb, d, hd, hdm, fun k hdk hkm => ?_⟩
      exact hunmarked k (.inr (hdk.below hd)) hkm
  · rintro (rfl | ⟨hn, d, hd, hreached, hunmarked⟩)
    · exact .refl h m
    · refine ⟨.inr (hreached.below hd), fun k hnk hkm => ?_⟩
      rcases hnk with rfl | hb
      · exact hn
      · exact hunmarked k (reaches_of_child h hr hd hreached hk hb (.inr hkm)) hkm

theorem exists_reproduced (h : Parsed t) (hr : t.Reaches t.root n) (hm : t.Reaches n m)
    (hk : (t.node m).kind ≠ "Quasi") (hnot : ¬ Displayed t a n m) :
    ∃ k, .reproduced k ∈ walk t a n ∧ t.Below k m := by
  induction n using Nat.strongRecOn with
  | ind n ih =>
    rw [displayed_iff h hr hk, not_or, not_and] at hnot
    have hb : t.Below n m := hm.resolve_left hnot.1
    have hw := h.wellNested
    by_cases hmarked : isMarked t a n = true
    · refine ⟨n, ?_, hb⟩
      rw [walk_eq hw, if_pos hmarked]
      exact List.mem_cons_self
    · obtain ⟨d, hd, hdm⟩ := hb.exists_child
      have hnot : ¬ Displayed t a d m := fun hdisplayed =>
        hnot.2 (by simpa using hmarked) ⟨d, hd, hdisplayed⟩
      obtain ⟨k, hk, hkm⟩ :=
        ih d (hw.earlier n d hd) (.inr (hr.below_child hd)) hdm hnot
      refine ⟨k, ?_, hkm⟩
      rw [walk_eq hw, if_neg hmarked]
      simp only [List.mem_append, List.mem_flatMap]
      exact .inl (.inl ⟨d, hd, hk⟩)

theorem displayed_root_iff (h : Parsed t) (hm : t.Reaches t.root m)
    (hk : (t.node m).kind ≠ "Quasi") :
    Displayed t a t.root m ↔ ¬ ∃ k, .reproduced k ∈ walk t a t.root ∧ t.Below k m := by
  have hw := h.wellNested
  constructor
  · rintro hdisplayed ⟨k, hk, hkm⟩
    have hunmarked := hdisplayed.unmarked k (reaches_of_reproduced_mem hw hk) hkm
    rw [isMarked_of_reproduced_mem hw hk] at hunmarked
    cases hunmarked
  · intro hnone
    by_contra hnot
    exact hnone (exists_reproduced h (t.reaches_self _) hm hk hnot)

section Shown

variable {slots : List Slot} {f g : NodeId → List Tip}

theorem filled_congr (h : ∀ n, .child n ∈ slots → f n = g n) : filled f slots = filled g slots := by
  refine List.flatMap_congr fun slot hslot => ?_
  cases slot with
  | own tips => rfl
  | child n => exact h n hslot

theorem mem_children_iff {ns : List NodeId} (h : Hosts slots ns) : .child n ∈ slots ↔ n ∈ ns := by
  rw [← h.children.mem_iff, List.mem_filterMap]
  constructor
  · exact fun hmem => ⟨_, hmem, rfl⟩
  · rintro ⟨slot, hmem, hslot⟩
    cases slot with
    | own tips => cases hslot
    | child n' =>
      cases hslot
      exact hmem

theorem Hosts.apart {front back : List Slot} {ns : List NodeId} {m : NodeId}
    (h : Hosts (front ++ .child n :: back) ns)
    (hapart : ns.Pairwise fun n m => (t.node n).span.Apart (t.node m).span)
    (hm : .child m ∈ front ∨ .child m ∈ back) : (t.node m).span.Apart (t.node n).span := by
  have hsymm : ∀ {n m : NodeId}, (t.node n).span.Apart (t.node m).span →
      (t.node m).span.Apart (t.node n).span := Span.Apart.symm
  have hchild : ∀ {slots : List Slot}, .child m ∈ slots → m ∈ slots.filterMap Slot.child? :=
    fun hmem => List.mem_filterMap.mpr ⟨_, hmem, rfl⟩
  have hcons : (Slot.child n :: back).filterMap Slot.child? = n :: back.filterMap Slot.child? := rfl
  rw [← h.children.pairwise_iff hsymm, List.filterMap_append, hcons] at hapart
  obtain ⟨-, hback, hfront⟩ := List.pairwise_append.mp hapart
  rcases hm with hm | hm
  · exact hfront m (hchild hm) n List.mem_cons_self
  · exact ((List.pairwise_cons.mp hback).1 m (hchild hm)).symm

theorem cursor_notMem_filled {ns : List NodeId} (h : Hosts slots ns)
    (hf : ∀ n ∈ ns, .cursor ∉ f n) :
    .cursor ∉ filled f slots := by
  intro hmem
  obtain ⟨slot, hslot, hmem⟩ := List.mem_flatMap.mp hmem
  cases slot with
  | own tips => exact h.unmarked tips hslot hmem
  | child n => exact hf n ((mem_children_iff h).mp hslot) hmem

end Shown

section Marked

variable {nested : Text → Text → Options → Except Failure Doc} {options : Options}
  {marked : Option NodeId} {cursor : Option Nat}

variable [TextWidth]

variable (t a nested options) in
/-- What a node shows in a pass with a cursor. -/
def shown (cursor : Option Nat) (marked : Option NodeId) (n : NodeId) : List Tip :=
  (ofNode nested (hostJob t a { options with cursor } marked) n).tips

variable (h : Parsed t)
  (hnested : ∀ name source doc, nested name source options.nested = .ok doc → doc.Unmarked)
  (hstrict : options.strict = false)
include h hnested hstrict

theorem exists_slots_ofNode (hn : n < t.nodes.size) : ∃ slots,
    Hosts slots (if isMarked t a n then [] else (t.node n).children) ∧
      ∀ cursor marked, (∀ m ∈ (t.node n).children,
          (ofNode nested (hostJob t a { options with cursor } marked) m).Gives fun _ => True) →
        (ofNode nested (hostJob t a { options with cursor } marked) n).Gives fun doc =>
          doc.tips = bracketed (marked == some n)
            (filled (shown t a nested options cursor marked) slots) := by
  obtain ⟨slots, hslots, hnode⟩ := exists_slots (a := a) hnested hstrict (h.shaped n hn)
  refine ⟨slots, hslots, fun cursor marked hchildren => ?_⟩
  rw [ofNode]
  refine hnode cursor marked _ _ _ ⟨rfl, rfl⟩ ⟨fun m hm place hplace => ?_, ?_⟩
  · unfold value
    rw [hplace.value]
    dsimp only
    rw [if_pos (h.wellNested.earlier n m hm)]
    exact (hchildren m hm).tips
  · intro place content hplace
    unfold value
    rw [hplace]
    exact gives_pure rfl

theorem gives_ofNode_true (hn : n < t.nodes.size) (cursor : Option Nat) (marked : Option NodeId) :
    (ofNode nested (hostJob t a { options with cursor } marked) n).Gives fun _ => True := by
  induction n using Nat.strongRecOn with
  | ind n ih =>
    obtain ⟨slots, -, hnode⟩ := exists_slots_ofNode (a := a) h hnested hstrict hn
    refine (hnode cursor marked fun m hm => ?_).mono fun _ _ => trivial
    have hlt := h.wellNested.earlier n m hm
    exact ih m hlt (Nat.lt_trans hlt hn)

/-- What a node shows is what its slots say. -/
theorem exists_slots_shown (hn : n < t.nodes.size) : ∃ slots,
    Hosts slots (if isMarked t a n then [] else (t.node n).children) ∧
      ∀ cursor marked, shown t a nested options cursor marked n =
        bracketed (marked == some n) (filled (shown t a nested options cursor marked) slots) := by
  obtain ⟨slots, hslots, hnode⟩ := exists_slots_ofNode (a := a) h hnested hstrict hn
  refine ⟨slots, hslots, fun cursor marked => ?_⟩
  refine (hnode cursor marked fun m hm => ?_).tips_eq
  exact gives_ofNode_true h hnested hstrict (Nat.lt_trans (h.wellNested.earlier n m hm) hn) _ _

/-- Away from the way to the marked node a node shows what it shows without a cursor. -/
theorem shown_eq_plain (hr : t.Reaches t.root n)
    (hmarked : ∀ m, marked = some m → (t.node m).kind ≠ "Quasi" ∧ ¬ Displayed t a n m) :
    shown t a nested options cursor marked n = shown t a nested options none none n := by
  induction n using Nat.strongRecOn with
  | ind n ih =>
    have hn : n < t.nodes.size := h.reaches_lt_size hr
    obtain ⟨slots, hslots, hshown⟩ := exists_slots_shown (a := a) h hnested hstrict hn
    have hself : (marked == some n) = false := by
      rw [beq_eq_false_iff_ne]
      intro heq
      exact (hmarked n heq).2 (.refl h n)
    rw [hshown, hshown, hself]
    refine filled_congr fun d hd => ?_
    have hd := (mem_children_iff hslots).mp hd
    split at hd
    · cases hd
    · rename_i hunmarked
      refine ih d (h.wellNested.earlier n d hd) (.inr (hr.below_child hd)) fun m hm => ?_
      obtain ⟨hkind, hnot⟩ := hmarked m hm
      refine ⟨hkind, fun hdisplayed => hnot ?_⟩
      exact (displayed_iff h hr hkind).mpr (.inr ⟨by simpa using hunmarked, d, hd, hdisplayed⟩)

theorem cursor_notMem_plain (hr : t.Reaches t.root n) :
    .cursor ∉ shown t a nested options none none n := by
  induction n using Nat.strongRecOn with
  | ind n ih =>
    have hn : n < t.nodes.size := h.reaches_lt_size hr
    obtain ⟨slots, hslots, hshown⟩ := exists_slots_shown (a := a) h hnested hstrict hn
    rw [hshown]
    refine cursor_notMem_filled hslots fun d hd => ?_
    split at hd
    · cases hd
    · exact ih d (h.wellNested.earlier n d hd) (.inr (hr.below_child hd))

/-- The marked node shows what it shows without a cursor, between the marks, and so does every node
that displays it. -/
theorem shown_marked (cursor : Option Nat) (hr : t.Reaches t.root n) (hm : Displayed t a n m)
    (hkind : (t.node m).kind ≠ "Quasi") :
    ∃ before after, shown t a nested options none none n =
        before ++ shown t a nested options none none m ++ after ∧
      shown t a nested options cursor (some m) n =
        before ++ bracketed true (shown t a nested options none none m) ++ after := by
  induction n using Nat.strongRecOn with
  | ind n ih =>
    have hw := h.wellNested
    have hn : n < t.nodes.size := h.reaches_lt_size hr
    obtain ⟨slots, hslots, hshown⟩ := exists_slots_shown (a := a) h hnested hstrict hn
    rcases (displayed_iff h hr hkind).mp hm with rfl | ⟨hunmarked, d, hd, hdisplayed⟩
    · refine ⟨[], [], by simp, ?_⟩
      have hfilled : filled (shown t a nested options cursor (some m)) slots =
          filled (shown t a nested options none none) slots := by
        refine filled_congr fun d hd => ?_
        have hd := (mem_children_iff hslots).mp hd
        split at hd
        · cases hd
        · refine shown_eq_plain h hnested hstrict (.inr (hr.below_child hd)) ?_
          rintro _ ⟨⟩
          refine ⟨hkind, fun hdisplayed => ?_⟩
          exact Nat.not_lt_of_le (hw.reaches_le hdisplayed.reached) (hw.earlier m d hd)
      rw [hshown cursor, hshown none none, hfilled]
      simp [bracketed]
    · rw [hunmarked] at hslots
      have hd' := (mem_children_iff hslots).mpr hd
      obtain ⟨front, back, rfl⟩ := List.append_of_mem hd'
      have hothers : ∀ d', .child d' ∈ front ∨ .child d' ∈ back →
          shown t a nested options cursor (some m) d' = shown t a nested options none none d' := by
        intro d' hd'
        have hmem : d' ∈ (t.node n).children := by
          refine (mem_children_iff hslots).mp (List.mem_append.mpr ?_)
          exact hd'.imp_right (List.mem_cons_of_mem _)
        have hr' := hr.below_child hmem
        refine shown_eq_plain h hnested hstrict (.inr hr') ?_
        rintro _ ⟨⟩
        refine ⟨hkind, fun hdisplayed' => hkind ?_⟩
        have hapart := hslots.apart (hw.apart n) hd'
        exact quasi_of_reaches h hr' hapart hdisplayed'.reached hdisplayed.reached
      obtain ⟨before, after, hplain, hbracketed⟩ :=
        ih d (hw.earlier n d hd) (.inr (hr.below_child hd)) hdisplayed
      have hne : (some m == some n) = false := by
        rw [beq_eq_false_iff_ne]
        rintro ⟨⟩
        exact hw.not_below_self (hdisplayed.reached.below hd)
      refine ⟨filled (shown t a nested options none none) front ++ before,
        after ++ filled (shown t a nested options none none) back, ?_, ?_⟩
      · rw [hshown, filled_append, filled_child, hplain]
        simp [bracketed]
      · rw [hshown, hne, filled_append, filled_child, hbracketed,
          filled_congr fun d' hd' => hothers d' (.inl hd'),
          filled_congr fun d' hd' => hothers d' (.inr hd')]
        simp [bracketed]

end Marked

end Toy

end SourceLayout
