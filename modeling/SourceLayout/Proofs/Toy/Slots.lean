import SourceLayout.Proofs.Pass.Marks
import SourceLayout.Proofs.Toy.Printing

/-! # Where the children of a toy node come in its document

The tips of a node are some of its own and those of its children, each of them once, or it is
reproduced or embedded and has only tips of its own. Which ones come where depends on what the
node looks like and what is attached to it, but not on the cursor: that shows in the marks around a
node alone.
-/

namespace SourceLayout.Toy

open Account Doc Meaning

/-- A part of what a node shows: tips of its own, or what a child shows. -/
inductive Slot
  | own (tips : List Tip)
  | child (n : NodeId)

namespace Slot

def child? : Slot → Option NodeId
  | .own _ => none
  | .child n => some n

def fill (f : NodeId → List Tip) : Slot → List Tip
  | .own tips => tips
  | .child n => f n

end Slot

def filled (f : NodeId → List Tip) (slots : List Slot) : List Tip := slots.flatMap (Slot.fill f)

section Filled

variable (f : NodeId → List Tip)

@[simp] theorem filled_nil : filled f [] = [] := rfl

@[simp] theorem filled_own (tips : List Tip) (slots : List Slot) :
    filled f (.own tips :: slots) = tips ++ filled f slots := rfl

@[simp] theorem filled_child (n : NodeId) (slots : List Slot) :
    filled f (.child n :: slots) = f n ++ filled f slots := rfl

@[simp] theorem filled_append (slots slots' : List Slot) :
    filled f (slots ++ slots') = filled f slots ++ filled f slots' :=
  List.flatMap_append

end Filled

/-- Slots that show each of the nodes once, and no mark of the cursor besides. -/
structure Hosts (slots : List Slot) (ns : List NodeId) : Prop where
  unmarked : ∀ tips, .own tips ∈ slots → .cursor ∉ tips
  children : (slots.filterMap Slot.child?).Perm ns

namespace Hosts

variable {slots slots' : List Slot} {ns ns' : List NodeId} {tips : List Tip}

theorem nil : Hosts [] [] := ⟨nofun, .nil⟩

theorem own (h : Hosts slots ns) (htips : .cursor ∉ tips) : Hosts (.own tips :: slots) ns := by
  constructor
  · intro tips' hmem
    rcases List.mem_cons.mp hmem with heq | hmem
    · cases heq
      exact htips
    · exact h.unmarked tips' hmem
  · exact h.children

theorem child (h : Hosts slots ns) (n : NodeId) : Hosts (.child n :: slots) (n :: ns) := by
  constructor
  · intro tips hmem
    exact h.unmarked tips ((List.mem_cons.mp hmem).resolve_left nofun)
  · exact h.children.cons n

theorem append (h : Hosts slots ns) (h' : Hosts slots' ns') :
    Hosts (slots ++ slots') (ns ++ ns') := by
  constructor
  · intro tips hmem
    exact (List.mem_append.mp hmem).elim (h.unmarked tips) (h'.unmarked tips)
  · rw [List.filterMap_append]
    exact h.children.append h'.children

theorem perm (h : Hosts slots ns) (hns : ns.Perm ns') : Hosts slots ns' :=
  ⟨h.unmarked, h.children.trans hns⟩

end Hosts

section Rows

def Slot.row (separator : List Tip) : List NodeId → List Slot
  | [] => []
  | [n] => [.child n]
  | n :: m :: ns => .child n :: .own separator :: Slot.row separator (m :: ns)

variable {separator : List Tip} {f : NodeId → List Tip}

theorem hosts_row (hseparator : .cursor ∉ separator) (ns : List NodeId) :
    Hosts (Slot.row separator ns) ns := by
  induction ns with
  | nil => exact .nil
  | cons n ns ih =>
    cases ns with
    | nil => exact Hosts.nil.child n
    | cons m ns => exact (ih.own hseparator).child n

theorem filled_row (ns : List NodeId) :
    filled f (Slot.row separator ns) = separator.intercalate (ns.map f) := by
  induction ns with
  | nil => rfl
  | cons n ns ih =>
    cases ns with
    | nil => simp [Slot.row]
    | cons m ns =>
      rw [Slot.row, filled_child, filled_own, ih]
      simp [List.intercalate_cons_cons]

def Slot.woven : List NodeId → List NodeId → List Slot
  | [], _ => []
  | q :: qs, [] => .child q :: Slot.woven qs []
  | q :: qs, e :: es =>
    .child q :: .own [.text .fixed ['$', '\x7b']] :: .child e :: .own [.text .fixed ['\x7d']] ::
      Slot.woven qs es

theorem hosts_woven {qs es : List NodeId} (hle : es.length ≤ qs.length) :
    Hosts (Slot.woven qs es) (qs ++ es) := by
  induction qs generalizing es with
  | nil =>
    rw [List.eq_nil_of_length_eq_zero (Nat.le_zero.mp hle)]
    exact .nil
  | cons q qs ih =>
    cases es with
    | nil => exact (ih (Nat.zero_le _)).child q
    | cons e es =>
      have hhole : Hosts [.own [.text .fixed ['$', '\x7b']], .child e, .own [.text .fixed ['\x7d']]]
          [e] := ((Hosts.nil.own (by simp)).child e).own (by simp)
      have hrest := hhole.append (ih (Nat.le_of_succ_le_succ hle))
      have hperm : (qs ++ e :: es).Perm (e :: (qs ++ es)) := List.perm_middle
      exact (hrest.child q).perm (hperm.symm.cons q)

end Rows

variable [TextWidth]

/-- What the nodes below a node show, and its texts. -/
structure Hears (t : Tree) (n : NodeId) (print : Cursor → Account Doc) (f : NodeId → List Tip) :
    Prop where
  node : ∀ m ∈ (t.node n).children, ∀ place, At t place m →
    (print place).Gives fun doc => doc.tips = f m
  text : ∀ place content, place.value = .str content →
    (print place).Gives (· = .leaf .owned content)

variable {t : Tree} {a : Attachments} {n : NodeId} {place : Cursor} {print : Cursor → Account Doc}
  {f : NodeId → List Tip} {nested : Text → Text → Options → Except Failure Doc} {job : Job}
  {options : Options} {marked : Option NodeId}

section Rules

variable (hp : At t place n) (hears : Hears t n print f)
include hp hears

theorem tips_printList {name : String} {ns : List NodeId}
    (hf : (t.node n).field? name = some (.list (ns.map .node)))
    (hns : ∀ m ∈ ns, m ∈ (t.node n).children) :
    ((Rule.printList place name).run (answer nested job print)).Gives
      fun docs => docs.map tips = ns.map f := by
  have hprint : ((Rule.printList place name).run (answer nested job print)).Gives
      (List.Forall₂ (fun m doc => doc.tips = f m) ns) := by
    refine gives_run_mapM (hp.forall₂_elements hf) fun place m hm hplace => ?_
    refine gives_bind_iff.mpr ((hears.node m (hns m hm) place hplace).mono fun doc hdoc => ?_)
    exact gives_pure hdoc
  refine hprint.mono fun docs hdocs => ?_
  rw [← List.forall₂_eq_eq_eq, List.forall₂_map_left_iff, List.forall₂_map_right_iff]
  exact hdocs.flip

theorem tips_printField {name : String} {content : Text}
    (hf : (t.node n).field? name = some (.str content)) :
    ((Rule.printField place name).run (answer nested job print)).Gives
      fun doc => doc.tips = (leaf .owned content).tips := by
  have hfield := hears.text _ content (hp.value_enter hf)
  refine gives_bind_iff.mpr (hfield.mono ?_)
  rintro _ rfl
  exact gives_pure rfl

omit hp hears in
theorem tips_weave {qs es : List NodeId} {doc : Doc} {quasis expressions : List Doc}
    (hquasis : quasis.map tips = qs.map f) (hexpressions : expressions.map tips = es.map f) :
    ((weave doc quasis expressions).run (answer nested job print)).Gives
      fun out => out.tips = doc.tips ++ filled f (Slot.woven qs es) := by
  induction qs generalizing doc quasis expressions es with
  | nil =>
    rw [List.map_nil, List.map_eq_nil_iff] at hquasis
    rw [hquasis]
    exact gives_pure (List.append_nil _).symm
  | cons q qs ih =>
    obtain ⟨quasi, quasis, rfl, hquasi, hquasis⟩ := List.map_eq_cons_iff.mp hquasis
    cases es with
    | nil =>
      rw [List.map_nil, List.map_eq_nil_iff] at hexpressions
      subst hexpressions
      have hnone : ([] : List Doc).map tips = ([] : List NodeId).map f := rfl
      refine gives_build_bind ((ih hquasis hnone).mono fun out hout => ?_)
      rw [hout]
      change (doc.joined quasi).tips ++ _ = _
      rw [tips_joined, hquasi, List.append_assoc]
      rfl
    | cons e es =>
      obtain ⟨expression, expressions, rfl, hexpression, hexpressions⟩ :=
        List.map_eq_cons_iff.mp hexpressions
      refine gives_build_bind (gives_build_bind (gives_build_bind (gives_build_bind ?_)))
      refine gives_build_bind ((ih hquasis hexpressions).mono fun out hout => ?_)
      rw [hout]
      change ((doc.joined quasi).joined (joinedAll [leaf .fixed ['$', '\x7b'], expression,
        leaf .fixed ['\x7d']])).tips ++ _ = _
      rw [tips_joined, tips_joined, tips_joinedAll, hquasi]
      simp [Slot.woven, tips_leaf, hexpression]

end Rules

section Node

variable (t a n) in
theorem exists_dangling : ∃ dangling : Doc, dangling.Unmarked ∧
    ∀ nested options marked print place, place.node = n →
      ((Rule.danglingComments { tree := t, options, attachments := a } place true fun _ => true).run
        (answer nested (hostJob t a options marked) print)).Gives (· = dangling) := by
  let scene : Scene := { tree := t, options := {}, attachments := a }
  have hdangling :
      Yields t (Rule.danglingComments scene (.atNode t n) true fun _ => true) Unmarked :=
    yields_danglingComments _
  obtain ⟨dangling, hunmarked, hgives⟩ := hdangling
  refine ⟨dangling, hunmarked, fun nested options marked print place hplace => ?_⟩
  have hsame : Rule.danglingComments { tree := t, options, attachments := a } place true
      (fun _ => true) = Rule.danglingComments scene (.atNode t n) true fun _ => true := by
    unfold Rule.danglingComments
    rw [hplace]
    rfl
  rw [hsame]
  exact hgives nested (hostJob t a options marked) print rfl

def RuleFills (t : Tree) (a : Attachments) (n : NodeId) (slots : List Slot) : Prop :=
  ∀ nested options marked print place f, At t place n → Hears t n print f →
    (Meaning.rule nested (hostJob t a options marked) print place).Gives
      fun doc => doc.tips = filled f slots

section List

variable (hkind : (t.node n).kind = "List")
  (hf : (t.node n).field? "items" = some (.list ((t.node n).children.map .node)))
include hkind hf

omit hf in
theorem rule_eq_listRule (hp : At t place n) :
    Meaning.rule nested (hostJob t a options marked) print place =
      (listRule { tree := t, options, attachments := a } place).run
        (answer nested (hostJob t a options marked) print) := by
  change (Toy.rule false _ place none).run _ = _
  simp only [Toy.rule, hp.nodeHere_eq, hkind]
  rfl

theorem exists_slots_emptyList (hchildren : (t.node n).children = []) :
    ∃ slots, Hosts slots (t.node n).children ∧ RuleFills t a n slots := by
  obtain ⟨dangling, hunmarked, hdangling⟩ := exists_dangling t a n
  have hslots : Hosts [.own ([.text .fixed ['(']] ++ dangling.tips ++ [.text .fixed [')']])]
      (t.node n).children := by
    rw [hchildren]
    exact Hosts.nil.own (by simpa [Unmarked] using hunmarked)
  refine ⟨_, hslots, fun nested options marked print place f hp hears => ?_⟩
  rw [rule_eq_listRule hkind hp]
  refine gives_run_bind (tips_printList hp hears hf fun _ => id) fun items hitems => ?_
  rw [hchildren, List.map_nil, List.map_eq_nil_iff] at hitems
  rw [hitems, List.isEmpty_nil, if_pos rfl]
  refine gives_run_bind (hdangling nested options marked print place hp.node_eq) ?_
  rintro _ rfl
  refine gives_build_bind (gives_build_bind (gives_run_build ?_))
  change (joinedAll [leaf .fixed ['('], _, leaf .fixed [')']]).tips = _
  simp [tips_leaf]

theorem exists_slots_fullList (hchildren : (t.node n).children ≠ []) :
    ∃ slots, Hosts slots (t.node n).children ∧ RuleFills t a n slots := by
  have hslots : Hosts (.own [.text .fixed ['('], .line .soft] ::
      (Slot.row [.line .normal] (t.node n).children ++
        [.own [.line .soft, .text .fixed [')']]])) (t.node n).children := by
    have hrow : Hosts (Slot.row [.line .normal] (t.node n).children) _ := hosts_row (by simp) _
    have hclosing : Hosts [.own [.line .soft, .text .fixed [')']]] [] := Hosts.nil.own (by simp)
    exact ((hrow.append hclosing).perm (.of_eq (List.append_nil _))).own (by simp)
  refine ⟨_, hslots, fun nested options marked print place f hp hears => ?_⟩
  rw [rule_eq_listRule hkind hp]
  refine gives_run_bind (tips_printList hp hears hf fun _ => id) fun items hitems => ?_
  have hne : ¬ items.isEmpty = true := by
    rw [List.isEmpty_iff]
    rintro rfl
    exact hchildren (List.map_eq_nil_iff.mp hitems.symm)
  rw [if_neg hne]
  refine gives_build_bind (gives_build_bind (gives_build_bind (gives_build_bind ?_)))
  refine gives_build_bind (gives_build_bind (gives_build_bind (gives_build_bind ?_)))
  refine gives_build_bind (gives_run_build ?_)
  change (joinedAll [leaf .fixed ['('], (joinedAll [.line 0 .soft,
    spaced items (.line 0 .normal)]).indented, .line 0 .soft, leaf .fixed [')']]).grouped.tips = _
  have hline : ∀ kind, (Doc.line 0 kind).tips = [.line kind] := fun _ => rfl
  simp [tips_leaf, hline, tips_spaced, hitems, filled_row]

end List

theorem exists_slots_template {qs es : List NodeId} (hkind : (t.node n).kind = "Template")
    (hchildren : (t.node n).children = qs ++ es)
    (hquasis : (t.node n).field? "quasis" = some (.list (qs.map .node)))
    (hexpressions : (t.node n).field? "expressions" = some (.list (es.map .node)))
    (hlength : qs.length = es.length + 1) :
    ∃ slots, Hosts slots (t.node n).children ∧ RuleFills t a n slots := by
  have hslots : Hosts (.own [.text .fixed ['"']] :: (Slot.woven qs es ++
      [.own [.text .fixed ['"']]])) (t.node n).children := by
    have hwoven : Hosts (Slot.woven qs es) (qs ++ es) := hosts_woven (by omega)
    have hclosing : Hosts [.own [.text .fixed ['"']]] [] := Hosts.nil.own (by simp)
    rw [hchildren]
    exact ((hwoven.append hclosing).perm (.of_eq (List.append_nil _))).own (by simp)
  refine ⟨_, hslots, fun nested options marked print place f hp hears => ?_⟩
  have hrule : Meaning.rule nested (hostJob t a options marked) print place =
      (templateRule place).run (answer nested (hostJob t a options marked) print) := by
    change (Toy.rule false _ place none).run _ = _
    simp only [Toy.rule, hp.nodeHere_eq, hkind]
  have hqs : ∀ q ∈ qs, q ∈ (t.node n).children := fun q hq => hchildren ▸ List.mem_append_left _ hq
  have hes : ∀ e ∈ es, e ∈ (t.node n).children := fun e he => hchildren ▸ List.mem_append_right _ he
  rw [hrule]
  refine gives_run_bind (tips_printList hp hears hquasis hqs) fun quasis hquasis => ?_
  refine gives_run_bind (tips_printList hp hears hexpressions hes)
    fun expressions hexpressions => ?_
  refine gives_build_bind (gives_run_bind (tips_weave hquasis hexpressions) fun out hout => ?_)
  refine gives_build_bind (gives_run_build ?_)
  change (out.joined (leaf .fixed ['"'])).tips = _
  rw [tips_joined, hout]
  change (leaf .fixed ['"']).tips ++ _ ++ _ = _
  simp [tips_leaf]

theorem exists_slots_program (hkind : (t.node n).kind = "Program")
    (hf : (t.node n).field? "body" = some (.list ((t.node n).children.map .node))) :
    ∃ slots, Hosts slots (t.node n).children ∧ RuleFills t a n slots := by
  obtain ⟨dangling, hunmarked, hdangling⟩ := exists_dangling t a n
  have hslots : Hosts (Slot.row [.line .hard] (t.node n).children ++ [.own dangling.tips])
      (t.node n).children := by
    have hrow : Hosts (Slot.row [.line .hard] (t.node n).children) _ := hosts_row (by simp) _
    exact (hrow.append (Hosts.nil.own hunmarked)).perm (.of_eq (List.append_nil _))
  refine ⟨_, hslots, fun nested options marked print place f hp hears => ?_⟩
  have hrule : Meaning.rule nested (hostJob t a options marked) print place =
      (programRule false { tree := t, options, attachments := a } place).run
        (answer nested (hostJob t a options marked) print) := by
    change (Toy.rule false _ place none).run _ = _
    simp only [Toy.rule, hp.nodeHere_eq, hkind]
    rfl
  rw [hrule]
  refine gives_run_bind (tips_printList hp hears hf fun _ => id) fun body hbody => ?_
  refine gives_run_bind (hdangling nested options marked print place hp.node_eq) ?_
  rintro _ rfl
  refine gives_build_bind (gives_build_bind (gives_run_build ?_))
  change ((spaced body (.line 0 .hard)).joined _).tips = _
  rw [tips_joined, tips_spaced, hbody, filled_append, filled_row]
  simp [filled_own, tips, parts, tip?]

theorem exists_slots_of_doc (doc : Doc) (hchildren : (t.node n).children = [])
    (hdoc : doc.Unmarked)
    (hrule : ∀ nested options marked print place f, At t place n → Hears t n print f →
      (Meaning.rule nested (hostJob t a options marked) print place).Gives
        fun out => out.tips = doc.tips) :
    ∃ slots, Hosts slots (t.node n).children ∧ RuleFills t a n slots := by
  refine ⟨[.own doc.tips], ?_, fun nested options marked print place f hp hears => ?_⟩
  · rw [hchildren]
    exact Hosts.nil.own hdoc
  · simpa using hrule nested options marked print place f hp hears

/-- The rule of a node shows each of its children once. -/
theorem exists_slots_rule (h : Shaped t.node (t.node n)) :
    ∃ slots, Hosts slots (t.node n).children ∧ RuleFills t a n slots := by
  have hrule : ∀ {nested options marked print place}, At t place n →
      Meaning.rule nested (hostJob t a options marked) print place =
        (Toy.rule false { tree := t, options, attachments := a } place none).run
          (answer nested (hostJob t a options marked) print) := fun _ => rfl
  cases h.form with
  | @ident name kind children field =>
    refine exists_slots_of_doc (leaf .owned name) children (unmarked_leaf _ _) ?_
    intro nested options marked print place f hp hears
    rw [hrule hp]
    simp only [Toy.rule, hp.nodeHere_eq, kind]
    exact tips_printField hp hears field
  | @quasi raw kind children field =>
    refine exists_slots_of_doc (leaf .owned raw) children (unmarked_leaf _ _) ?_
    intro nested options marked print place f hp hears
    rw [hrule hp]
    simp only [Toy.rule, hp.nodeHere_eq, kind]
    exact tips_printField hp hears field
  | embed kind children =>
    refine exists_slots_of_doc (linesOf (t.slice (t.node n).span)) children (unmarked_linesOf _) ?_
    intro nested options marked print place f hp hears
    rw [hrule hp]
    simp only [Toy.rule, hp.nodeHere_eq, kind]
    exact gives_run_build rfl
  | list kind _ field =>
    by_cases hchildren : (t.node n).children = []
    · exact exists_slots_emptyList kind field hchildren
    · exact exists_slots_fullList kind field hchildren
  | template kind children hwoven literals holes =>
    exact exists_slots_template kind children literals holes hwoven.length_eq
  | program kind _ field => exact exists_slots_program kind field

section Embedded

variable (hnested : ∀ name source doc, nested name source options.nested = .ok doc → doc.Unmarked)
  (hstrict : options.strict = false)
include hnested hstrict

variable (t a n) in
theorem exists_embedded : ∃ result : Option Doc,
    (∀ doc, result = some doc → doc.Unmarked ∧ (t.node n).kind = "Embed") ∧
      ∀ cursor marked print place, At t place n →
        (embedded nested (hostJob t a { options with cursor } marked) print place).Gives
          (· = result) := by
  have hrun : ∀ {cursor marked print place}, options.embedding = true →
      embedded nested (hostJob t a { options with cursor } marked) print place =
        ((embed { tree := t, options := { options with cursor }, attachments := a } place).run
          (answer nested (hostJob t a { options with cursor } marked) print)).orElse false none := by
    intro cursor marked print place hembedding
    change (if !options.embedding then pure none else Account.orElse options.strict none _) = _
    rw [hembedding, hstrict]
    rfl
  by_cases hembedding : options.embedding = true
  · by_cases hkind : (t.node n).kind = "Embed"
    · cases hcode : nested (blockLanguage t n) (blockCode t n) options.nested with
      | error e =>
        refine ⟨none, nofun, fun cursor marked print place hp => ?_⟩
        rw [hrun hembedding]
        refine gives_orElse_of_error (e := e) ?_ rfl
        rw [hp.embed_eq hkind]
        exact (outcome_bind ⟨nested (blockLanguage t n) (blockCode t n) options.nested, []⟩ _).trans
          (by rw [hcode])
      | ok code =>
        refine ⟨some (joinedAll [leaf .owned ('%' :: blockLanguage t n ++ ['\x7b']), code.trimmed,
          leaf .fixed ['\x7d']]), ?_, fun cursor marked print place hp => ?_⟩
        · rintro _ ⟨⟩
          refine ⟨.joinedAll ?_, hkind⟩
          simp only [List.forall_mem_cons]
          exact ⟨unmarked_leaf _ _, (hnested _ _ _ hcode).trimmed, unmarked_leaf _ _, nofun⟩
        · rw [hrun hembedding]
          refine Gives.orElse ?_ _ _
          rw [hp.embed_eq hkind]
          refine gives_bind_iff.mpr ⟨code, hcode, ?_⟩
          exact ⟨_, rfl, rfl⟩
    · refine ⟨none, nofun, fun cursor marked print place hp => ?_⟩
      rw [hrun hembedding]
      rw [hp.embed_eq_none hkind]
      exact ⟨none, rfl, rfl⟩
  · refine ⟨none, nofun, fun cursor marked print place hp => ?_⟩
    rw [Bool.not_eq_true] at hembedding
    change (if !options.embedding then pure none else Account.orElse options.strict none _).Gives _
    rw [hembedding]
    exact gives_pure rfl

theorem exists_slots_content (h : Shaped t.node (t.node n)) : ∃ slots,
    Hosts slots (if isMarked t a n then [] else (t.node n).children) ∧
      ∀ cursor marked print place f, At t place n → Hears t n print f →
        (Meaning.content nested (hostJob t a { options with cursor } marked) print place n).Gives
          fun doc => doc.tips = filled f slots := by
  have hignored : ∀ {cursor marked place}, At t place n →
      (hostJob t a { options with cursor } marked).grammar.isIgnored
        (hostJob t a { options with cursor } marked).scene.attachments place = isMarked t a n :=
    fun hp => hp.isIgnored_eq
  by_cases hmarked : isMarked t a n = true
  · refine ⟨[.own (linesOf (t.slice (t.node n).span)).tips], ?_, ?_⟩
    · rw [if_pos hmarked]
      exact Hosts.nil.own (unmarked_linesOf _)
    · intro cursor marked print place f hp hears
      unfold Meaning.content
      rw [hignored hp, if_pos hmarked]
      exact ⟨_, rfl, (List.append_nil _).symm⟩
  · rw [if_neg hmarked]
    obtain ⟨result, hresult, hembedded⟩ := exists_embedded t a n hnested hstrict
    cases result with
    | some doc =>
      obtain ⟨hdoc, hkind⟩ := hresult doc rfl
      refine ⟨[.own doc.tips], ?_, fun cursor marked print place f hp hears => ?_⟩
      · rw [h.children_eq_nil (by rw [hkind]; decide)]
        exact Hosts.nil.own hdoc
      · unfold Meaning.content
        rw [hignored hp, if_neg hmarked]
        refine gives_bind_iff.mpr ((hembedded cursor marked print place hp).mono ?_)
        rintro _ rfl
        exact gives_pure (List.append_nil _).symm
    | none =>
      obtain ⟨slots, hslots, hrule⟩ := exists_slots_rule (a := a) h
      refine ⟨slots, hslots, fun cursor marked print place f hp hears => ?_⟩
      unfold Meaning.content
      rw [hignored hp, if_neg hmarked]
      refine gives_bind_iff.mpr ((hembedded cursor marked print place hp).mono ?_)
      rintro _ rfl
      exact hrule nested _ marked print place f hp hears

/-- A node shows its content between the comments around it. Marks stand around it all if it holds
the cursor. -/
theorem exists_slots (h : Shaped t.node (t.node n)) : ∃ slots,
    Hosts slots (if isMarked t a n then [] else (t.node n).children) ∧
      ∀ cursor marked print place f, At t place n → Hears t n print f →
        (Meaning.node nested (hostJob t a { options with cursor } marked) print place n).Gives
          fun doc => doc.tips = bracketed (marked == some n) (filled f slots) := by
  obtain ⟨slots, hslots, hcontent⟩ := exists_slots_content (a := a) hnested hstrict h
  obtain ⟨before, after, hbefore, hafter, hsurround⟩ := exists_surround t a (grammar false) n
  refine ⟨.own before :: (slots ++ [.own after]), ?_, ?_⟩
  · exact ((hslots.append (Hosts.nil.own hafter)).perm (.of_eq (List.append_nil _))).own hbefore
  · intro cursor marked print place f hp hears
    refine gives_bind_iff.mpr
      ((hcontent cursor marked print place f hp hears).mono fun doc hdoc => ?_)
    refine (hsurround nested { options with cursor } marked none print doc).mono
      fun around haround => ?_
    rw [haround, hdoc]
    simp

end Embedded

end Node

end SourceLayout.Toy
