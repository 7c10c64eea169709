import SourceLayout.Proofs.Toy.Printing

/-! # Printing stays on the way

Which nodes hold comments is up to the grammar, and with other answers to that a comment can end up
where no rule prints it, or at a node whose document is handed out again. Still, however a pass over
a toy tree ends, it makes no step that is not on the way through the tree.
-/

namespace SourceLayout

/-- All steps from one state of a pass to a later one are allowed. -/
def Confined (allowed : Step → Prop) (s s' : PassState) : Prop :=
  ∀ step ∈ s'.trail, step ∈ s.trail ∨ allowed step

section Confined

variable {α : Type} {x : PassM α} {allowed allowed' : Step → Prop} {s s' s'' : PassState}

theorem Confined.refl (s : PassState) : Confined allowed s s := fun _ hstep => .inl hstep

theorem Confined.trans (h : Confined allowed s s') (h' : Confined allowed s' s'') :
    Confined allowed s s'' := fun step hstep =>
  (h' step hstep).elim (h step) .inr

theorem Confined.mono (h : Confined allowed s s') (himp : ∀ step, allowed step → allowed' step) :
    Confined allowed' s s' := fun step hstep => (h step hstep).imp id (himp step)

theorem Keeps.confined (h : Keeps PassState.trail x) : Moves (Confined allowed) x := by
  intro s step hstep
  rw [h s] at hstep
  exact .inl hstep

theorem Performs.confined {t : Tree} {steps : List Step} {P : α → Prop}
    (h : ∀ s, Performs t x s steps (fun _ => False) P) : Moves (Confined (· ∈ steps)) x := by
  intro s
  obtain ⟨a, s', hrun, -, hs⟩ := h s
  rw [hrun]
  intro step hstep
  rw [hs.trail] at hstep
  exact List.mem_append.mp hstep

end Confined

namespace Rule

variable {α : Type} {ok : Request → Prop} {P P' : α → Prop} {x : Rule α}

theorem Asks.mono (h : x.Asks ok P) (hP : ∀ a, P a → P' a) : x.Asks ok P' := by
  induction x with
  | done a => exact hP a h
  | ask q next ih => exact ⟨h.1, fun doc => ih doc (h.2 doc)⟩

variable (hbuild : ∀ c, ok (.build c))
include hbuild

theorem Builds.asks (h : x.Builds) : x.Asks ok fun _ => True := by
  induction x with
  | done a => exact trivial
  | ask q next ih =>
    cases q with
    | build c => exact ⟨hbuild c, fun doc => ih doc (h doc)⟩
    | print | comment | format | refuse => exact h.elim

theorem asks_danglingComments {scene : Scene} {place : Cursor}
    (h : ∀ c ∈ scene.attachments.placed place.node .dangling, ok (.comment c)) :
    (danglingComments scene place true fun _ => true).Asks ok fun _ => True := by
  unfold danglingComments
  dsimp only
  rw [List.filter_eq_self.mpr fun _ _ => rfl]
  split
  · exact (builds_build _).asks hbuild
  · refine (asks_mapM fun c hc => asks_request (h c hc)).bind fun docs _ => Builds.asks hbuild ?_
    exact fun _ _ => trivial

end Rule

namespace Toy

open Pass

/-- The toy grammar with other answers to which nodes hold comments, and to whether the program
takes the comments at its ends. -/
def variant (outer : Bool) (canHold : Node → Bool) : Grammar :=
  { grammar false with outerToRoot := outer, canHold }

def variantJob (outer : Bool) (canHold : Node → Bool) (t : Tree) (a : Attachments)
    (options : Options) (marked : Option NodeId) : Job :=
  { hostJob t a options marked with grammar := variant outer canHold }

def Fair (t : Tree) (a : Attachments) (n : NodeId) : Request → Prop
  | .print place flags => flags = none ∧
    ((∃ d ∈ (t.node n).children, At t place d) ∨ ∃ content, place.value = .str content)
  | .comment c => .comment c ∈ inner t a n
  | .build _ | .format _ _ _ | .refuse _ => True

variable {t : Tree} {a : Attachments} {n : NodeId} {place : Cursor} {scene : Scene}

section Fair

theorem fair_build (c : Construction Doc) : Fair t a n (.build c) := trivial

variable (hp : At t place n)
include hp

theorem asks_printList {name : String} {ns : List NodeId}
    (hf : (t.node n).field? name = some (.list (ns.map .node)))
    (hns : ∀ m ∈ ns, m ∈ (t.node n).children) :
    (Rule.printList place name).Asks (Fair t a n) fun docs => docs.length = ns.length := by
  have hplaces := hp.forall₂_elements hf
  have hfair : ∀ c ∈ (place.enter name).elements,
      (Rule.print c).Asks (Fair t a n) fun _ => True := by
    intro c hc
    obtain ⟨i, hi, rfl⟩ := List.mem_iff_getElem.mp hc
    have hi' : i < ns.length := hplaces.length_eq ▸ hi
    refine Rule.asks_request ⟨rfl, .inl ⟨ns[i], hns _ (List.getElem_mem hi'), ?_⟩⟩
    exact (List.forall₂_iff_get.mp hplaces).2 i hi hi'
  exact (Rule.asks_mapM hfair).mono fun docs hdocs => hdocs.trans hplaces.length_eq

theorem asks_printField {name : String} {content : Text}
    (hf : (t.node n).field? name = some (.str content)) :
    (Rule.printField place name).Asks (Fair t a n) fun _ => True :=
  Rule.asks_request ⟨rfl, .inr ⟨content, hp.value_enter hf⟩⟩

theorem asks_dangling (hscene : scene.attachments = a)
    (hprints : printsDangling (t.node n) = true) :
    (Rule.danglingComments scene place true fun _ => true).Asks (Fair t a n) fun _ => True := by
  refine Rule.asks_danglingComments fair_build fun c hc => ?_
  rw [hscene, hp.node_eq] at hc
  change .comment c ∈ inner t a n
  rw [inner, if_pos hprints]
  exact List.mem_map_of_mem hc

theorem asks_listRule (hscene : scene.attachments = a) (hkind : (t.node n).kind = "List")
    (hf : (t.node n).field? "items" = some (.list ((t.node n).children.map .node))) :
    (listRule scene place).Asks (Fair t a n) fun _ => True := by
  refine (asks_printList hp hf fun _ => id).bind fun docs hdocs => ?_
  split
  · rename_i hempty
    have hprints : printsDangling (t.node n) = true := by
      rw [List.isEmpty_iff.mp hempty] at hdocs
      simp [printsDangling, hkind, List.eq_nil_of_length_eq_zero hdocs.symm]
    refine (asks_dangling hp hscene hprints).bind fun _ _ => Rule.Builds.asks fair_build ?_
    exact fun _ _ _ => trivial
  · apply Rule.Builds.asks fair_build
    exact fun _ _ _ _ _ _ _ _ _ _ => trivial

/-- The rule of a node asks for the children of the node and the comments inside it only. -/
theorem asks_rule (hscene : scene.attachments = a) (hshape : Shaped t.node (t.node n)) :
    (rule false scene place none).Asks (Fair t a n) fun _ => True := by
  cases hshape.form with
  | ident kind _ field | quasi kind _ field =>
    simp only [rule, hp.nodeHere_eq, kind]
    exact asks_printField hp field
  | embed kind =>
    simp only [rule, hp.nodeHere_eq, kind]
    exact (Rule.builds_build _).asks fair_build
  | list kind _ field =>
    simp only [rule, hp.nodeHere_eq, kind]
    exact asks_listRule hp hscene kind field
  | template kind children _ literals holes =>
    simp only [rule, hp.nodeHere_eq, kind]
    refine (asks_printList hp literals fun m hm => ?_).bind fun _ _ =>
      (asks_printList hp holes fun m hm => ?_).bind fun _ _ => Rule.Builds.asks fair_build ?_
    · exact children ▸ List.mem_append_left _ hm
    · exact children ▸ List.mem_append_right _ hm
    · refine (Rule.builds_build _).bind fun _ => (builds_weave _ _ _).bind fun _ => ?_
      exact fun _ _ => trivial
  | program kind _ field =>
    have hprints : printsDangling (t.node n) = true := by simp [printsDangling, kind]
    simp only [rule, hp.nodeHere_eq, kind]
    refine (asks_printList hp field fun _ => id).bind fun _ _ =>
      (asks_dangling hp hscene hprints).bind fun _ _ => Rule.Builds.asks fair_build ?_
    exact fun _ _ _ => trivial

end Fair

theorem asks_embed : (embed scene place).Asks (Fair t a n) fun _ => True := by
  unfold embed
  dsimp only
  split
  · exact trivial
  · exact ⟨trivial, fun _ => ⟨trivial, fun _ => ⟨trivial, fun _ => ⟨trivial, fun _ =>
      ⟨trivial, fun _ => trivial⟩⟩⟩⟩⟩

/-- Nodes are printed on the way through them, however that ends. -/
structure Stays (t : Tree) (a : Attachments) (print : Cursor → Option Flags → PassM Doc) :
    Prop where
  node : ∀ n place, t.Reaches t.root n → At t place n →
    Moves (Confined (· ∈ walk t a n)) (print place none)
  text : ∀ place content, place.value = .str content → Keeps PassState.trail (print place none)

section Stays

variable {nested : Text → Text → Options → SessionM Doc}
  {print : Cursor → Option Flags → PassM Doc} {outer : Bool} {canHold : Node → Bool}
  {options : Options} {marked : Option NodeId}

variable (hnested : ∀ name source options, Keeps Session.trail (nested name source options))
include hnested

variable [TextWidth]

section Node

variable (hprint : Stays t a print) (hr : t.Reaches t.root n)
include hprint hr

theorem confined_answer {q : Request} (hq : Fair t a n q) :
    Moves (Confined (· ∈ (t.node n).children.flatMap (walk t a) ++ inner t a n))
      (answer nested (variantJob outer canHold t a options marked) print q) := by
  cases q with
  | build c => exact Keeps.confined fun _ => rfl
  | print place flags =>
    obtain ⟨rfl, ⟨d, hd, hp⟩ | ⟨content, hvalue⟩⟩ := hq
    · refine (hprint.node d place (.inr (hr.below_child hd)) hp).mono fun s s' hs =>
        hs.mono fun step hstep => ?_
      exact List.mem_append_left _ (List.mem_flatMap.mpr ⟨d, hd, hstep⟩)
    · exact (hprint.text place content hvalue).confined
  | comment c =>
    have hcomment : Moves (Confined (· ∈ [Step.comment c]))
        (printComment (variantJob outer canHold t a options marked) c) :=
      Performs.confined (t := t) fun s => performs_printComment rfl c
    refine hcomment.mono fun s s' hs => hs.mono fun step hstep => ?_
    rw [List.mem_singleton.mp hstep]
    exact List.mem_append_right _ hq
  | format name source options => exact (keeps_ofSession (hnested name source options)).confined
  | refuse message => exact (Keeps.ofThrow _).confined

theorem confined_run {α : Type} {x : Rule α} {P : α → Prop} (hx : x.Asks (Fair t a n) P) :
    Moves (Confined (· ∈ (t.node n).children.flatMap (walk t a) ++ inner t a n))
      (x.run (answer nested (variantJob outer canHold t a options marked) print)) :=
  hx.moves Confined.refl (fun _ _ _ => Confined.trans) fun _ => confined_answer hnested hprint hr

theorem confined_printContent (h : Parsed t) (hp : At t place n) :
    Moves (Confined (· ∈ if isMarked t a n then [.reproduced n]
        else (t.node n).children.flatMap (walk t a) ++ inner t a n))
      (printContent nested (variantJob outer canHold t a options marked) print place n none) := by
  have hignored : (variantJob outer canHold t a options marked).grammar.isIgnored
      (variantJob outer canHold t a options marked).scene.attachments place = isMarked t a n :=
    hp.isIgnored_eq
  have htrans := fun s s' s'' =>
    @Confined.trans (· ∈ (t.node n).children.flatMap (walk t a) ++ inner t a n) s s' s''
  unfold printContent
  rw [hignored]
  split
  · exact Performs.confined (t := t) fun s => performs_reproduce rfl n
  · refine Moves.bind htrans ?_ fun doc => ?_
    · rw [runEmbed_eq]
      split
      · exact (Keeps.ofPure _).confined
      · refine (keeps_trail_note rfl).confined.bind htrans fun _ =>
          (confined_run hnested hprint hr asks_embed).tryCatch htrans fun failure => ?_
        split
        · exact (Keeps.ofThrow _).confined
        · exact (Keeps.ofPure _).confined
    · split
      · exact (Keeps.ofPure _).confined
      · exact (keeps_trail_note rfl).confined.bind htrans fun _ =>
          confined_run hnested hprint hr (asks_rule hp rfl (h.shaped_of_reaches hr))

theorem confined_printNode (h : Parsed t) (hp : At t place n) :
    Moves (Confined (· ∈ walk t a n))
      (printNode nested (variantJob outer canHold t a options marked) print place n none) := by
  have htrans := fun s s' s'' => @Confined.trans (· ∈ walk t a n) s s' s''
  rw [printNode_eq]
  refine Moves.bind htrans ?_ fun doc => Moves.bind htrans ?_ fun _ =>
    (keeps_trail_note rfl).confined.bind htrans fun _ => (Keeps.ofPure _).confined
  · refine (confined_printContent hnested hprint hr h hp).mono fun s s' hs =>
      hs.mono fun step hstep => ?_
    rw [walk_eq h.wellNested]
    exact List.mem_append_left _ hstep
  · have haround : Moves (Confined (· ∈ fringe a n))
        (printAround nested (variantJob outer canHold t a options marked) print place n doc) :=
      Performs.confined (t := t) fun s => performs_printAround rfl rfl n doc
    refine haround.mono fun s s' hs => hs.mono fun step hstep => ?_
    rw [walk_eq h.wellNested]
    exact List.mem_append_right _ hstep

end Node

/-- A node is printed on the way through it, and from a remembered document without a step. -/
theorem stays_printAt (h : Parsed t) (depth : Nat) :
    Stays t a (printAt nested (variantJob outer canHold t a options marked) depth) := by
  induction depth with
  | zero => exact ⟨fun _ _ _ _ => (Keeps.ofThrow _).confined, fun _ _ _ => Keeps.ofThrow _⟩
  | succ depth ih =>
    constructor
    · intro n place hr hp
      have htrans := fun s s' s'' => @Confined.trans (· ∈ walk t a n) s s' s''
      unfold printAt
      rw [hp.value]
      refine Moves.bind htrans (Keeps.confined Keeps.ofGet) fun s => ?_
      split
      · exact (Keeps.ofPure _).confined
      · refine (confined_printNode hnested ih hr h hp).bind htrans fun doc => ?_
        exact Keeps.confined fun _ => rfl
    · intro place content hvalue
      unfold printAt
      rw [hvalue]
      exact fun _ => rfl

end Stays

end Toy

end SourceLayout
