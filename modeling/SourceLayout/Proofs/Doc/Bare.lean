import SourceLayout.Proofs.Doc.Issued
import SourceLayout.Proofs.Doc.Rendering

/-! # Documents without labels

The labels of a document only tell its parts apart. Without them, it is a plain tree in which each
group says whether it breaks and each text whether it is marked. Spreading breaks is a function on
such trees.
-/

namespace SourceLayout

/-- What is told of the groups and texts in a document: whether a group breaks, and whether a text is
marked. -/
def Store.flags (s : Store) (marks : Label → Bool) : Doc → Bool
  | .group l _ => s.isBroken l
  | .text l _ _ => marks l
  | _ => false

namespace Doc

mutual

/-- A document without its labels. Those of groups and texts say what the flags tell of them. -/
def bare (flags : Doc → Bool) : Doc → Doc
  | .nil _ => .nil 0
  | .append _ left right => .append 0 (bare flags left) (bare flags right)
  | .group l body => .group (flags (.group l body)).toNat (bare flags body)
  | .fill _ parts => .fill 0 (bareAll flags parts)
  | .indent _ body => .indent 0 (bare flags body)
  | .align _ shift body => .align 0 shift (bare flags body)
  | .line _ kind => .line 0 kind
  | .breakParent _ => .breakParent 0
  | .suffix _ body => .suffix 0 (bare flags body)
  | .cursor _ => .cursor 0
  | .measured _ width body => .measured 0 width (bare flags body)
  | .text l origin content => .text (flags (.text l origin content)).toNat origin content

def bareAll (flags : Doc → Bool) : List Doc → List Doc
  | [] => []
  | doc :: docs => bare flags doc :: bareAll flags docs

end

theorem bareAll_eq_map (flags : Doc → Bool) (docs : List Doc) :
    bareAll flags docs = docs.map (bare flags) := by
  induction docs with
  | nil => rfl
  | cons doc docs ih => rw [bareAll, List.map_cons, ih]

@[simp] theorem isNil_bare (flags : Doc → Bool) (doc : Doc) :
    (doc.bare flags).isNil = doc.isNil := by
  cases doc <;> rfl

theorem bare_congr {flags flags' : Doc → Bool} {doc : Doc}
    (h : ∀ x ∈ doc.parts, flags x = flags' x) :
    doc.bare flags = doc.bare flags' := by
  induction doc using inductionOn with
  | step doc ih =>
    have hoperand : ∀ y ∈ doc.operands, y.bare flags = y.bare flags' := fun y hy =>
      ih y hy fun x hx => h x (mem_parts_of_operand hy hx)
    cases doc with
    | append l left right =>
      simp only [bare, hoperand left (by simp [operands]), hoperand right (by simp [operands])]
    | group l body =>
      simp only [bare, h _ (mem_parts_self _), hoperand body (by simp [operands])]
    | fill l parts =>
      simp only [bare, bareAll_eq_map]
      exact congrArg (fill 0) (List.map_congr_left hoperand)
    | indent l body | align l shift body | suffix l body | measured l width body =>
      simp only [bare, hoperand body (by simp [operands])]
    | text l origin content => simp only [bare, h _ (mem_parts_self _)]
    | nil | line | breakParent | cursor => rfl

theorem sizeOf_le_of_mem_parts {x y : Doc} (h : y ∈ x.parts) : sizeOf y ≤ sizeOf x := by
  induction x using inductionOn with
  | step x ih =>
    rcases mem_parts_iff.mp h with rfl | ⟨z, hz, hy⟩
    · exact Nat.le_refl _
    · exact Nat.le_trans (ih z hz hy) (Nat.le_of_lt (sizeOf_lt_of_mem_operands hz))

mutual

theorem members_bare (s : Store) (marks : Label → Bool) :
    (doc : Doc) → (doc.bare (s.flags marks)).members (· == 1) = doc.members s.isBroken
  | .append _ left right => by
    simp only [bare, members, members_bare s marks left, members_bare s marks right]
  | .group l body => by
    have hl : ((s.flags marks (.group l body)).toNat == 1) = s.isBroken l := by
      rw [Store.flags]
      cases s.isBroken l <;> rfl
    simp only [bare, members, members_bare s marks body, hl]
  | .fill _ parts => by simp only [bare, members, forms_bareAll s marks parts]
  | .indent _ body | .align _ _ body | .suffix _ body | .measured _ _ body => by
    simp only [bare, members, members_bare s marks body]
  | .nil _ | .line _ _ | .breakParent _ | .cursor _ | .text _ _ _ => rfl

theorem forms_bareAll (s : Store) (marks : Label → Bool) :
    (docs : List Doc) → forms (· == 1) (bareAll (s.flags marks) docs) = forms s.isBroken docs
  | [] => rfl
  | doc :: docs => by
    simp only [bareAll, forms, members_bare s marks doc, forms_bareAll s marks docs]

end

/-- Documents that differ in labels only have one outline. -/
theorem outline_eq_of_bare_eq {s s' : Store} {marks marks' : Label → Bool} {doc doc' : Doc}
    (h : doc.bare (s.flags marks) = doc'.bare (s'.flags marks')) :
    doc.outline s = doc'.outline s' := by
  rw [outline_eq, outline_eq, form, form, ← members_bare s marks, ← members_bare s' marks', h]

end Doc

def Store.Has (s : Store) (doc : Doc) : Prop := ∀ x ∈ doc.parts, x.label < s.next

def Store.Clean (marks : Label → Bool) (s : Store) : Prop :=
  ∀ l, s.isBroken l = true ∨ marks l = true → l < s.next

/-- A store is a later state of another one: the labels that were issued before are as they were. -/
structure Store.Grows (s s' : Store) : Prop where
  next : s.next ≤ s'.next
  kept : ∀ l < s.next, s'.isBroken l = s.isBroken l

namespace Store

variable {s s' s'' : Store} {marks : Label → Bool} {doc : Doc}

theorem Has.operand (h : s.Has doc) {y : Doc} (hy : y ∈ doc.operands) : s.Has y :=
  fun x hx => h x (Doc.mem_parts_of_operand hy hx)

theorem has_iff : s.Has doc ↔ doc.label < s.next ∧ ∀ y ∈ doc.operands, s.Has y := by
  constructor
  · intro h
    exact ⟨h doc doc.mem_parts_self, fun y hy => h.operand hy⟩
  · rintro ⟨hlabel, hoperands⟩ x hx
    rcases Doc.mem_parts_iff.mp hx with rfl | ⟨y, hy, hx⟩
    · exact hlabel
    · exact hoperands y hy x hx

theorem Grows.refl (s : Store) : s.Grows s := ⟨Nat.le_refl _, fun _ _ => rfl⟩

theorem Grows.trans (h : s.Grows s') (h' : s'.Grows s'') : s.Grows s'' :=
  ⟨Nat.le_trans h.next h'.next, fun l hl =>
    (h'.kept l (Nat.lt_of_lt_of_le hl h.next)).trans (h.kept l hl)⟩

theorem Grows.has (h : s.Grows s') (hdoc : s.Has doc) : s'.Has doc :=
  fun x hx => Nat.lt_of_lt_of_le (hdoc x hx) h.next

theorem Grows.bare_eq (h : s.Grows s') (hdoc : s.Has doc) :
    doc.bare (s'.flags marks) = doc.bare (s.flags marks) := by
  refine Doc.bare_congr fun x hx => ?_
  cases x with
  | group l body => exact h.kept l (hdoc _ hx)
  | _ => rfl

end Store

theorem Issued.has {known : Doc → Prop} {s : Store} {doc : Doc} (h : Issued known s)
    (hdoc : known doc) : s.Has doc :=
  fun x hx => h.below x (h.parts hdoc x hx)

theorem Issued.labels (s : Store) : Issued (fun doc => ∃ l < s.next, doc = .nil l) s where
  closed := by
    rintro _ ⟨l, -, rfl⟩ y hy
    cases hy
  below := by
    rintro _ ⟨l, hl, rfl⟩
    exact hl
  unique := by
    rintro _ _ ⟨l, -, rfl⟩ ⟨l', -, rfl⟩ hlabel
    exact congrArg Doc.nil hlabel

theorem Issued.next_le_label {known : Doc → Prop} {s s' : Store} {doc x : Doc}
    (h : Issued known s') (hlabels : ∀ l < s.next, known (.nil l)) (hdoc : known doc)
    (hx : x ∈ doc.parts) (hnil : x.isNil = false) : s.next ≤ x.label := by
  by_contra hlt
  have hsame := h.unique _ _ (h.parts hdoc x hx) (hlabels _ (Nat.lt_of_not_le hlt)) rfl
  rw [hsame] at hnil
  cases hnil

namespace Doc

/-- Whether a document without labels holds something that breaks the groups around it. -/
def stirs (doc : Doc) : Bool :=
  doc.parts.any fun
    | .line _ kind => kind.isForced
    | .breakParent _ => true
    | .group l _ => l == 1
    | _ => false

mutual

/-- A document without labels, with its breaks spread. -/
def hardened : Doc → Doc
  | .append l left right => .append l (hardened left) (hardened right)
  | .group l body => .group (l == 1 || body.stirs).toNat (hardened body)
  | .fill l parts => .fill l (hardenedAll parts)
  | .indent l body => .indent l (hardened body)
  | .align l shift body => .align l shift (hardened body)
  | .suffix l body => .suffix l (hardened body)
  | .measured l width body => .measured l width (hardened body)
  | .nil l => .nil l
  | .line l kind => .line l kind
  | .breakParent l => .breakParent l
  | .cursor l => .cursor l
  | .text l origin content => .text l origin content

def hardenedAll : List Doc → List Doc
  | [] => []
  | doc :: docs => hardened doc :: hardenedAll docs

end

mutual

theorem parts_bare (flags : Doc → Bool) :
    (doc : Doc) → (doc.bare flags).parts = doc.parts.map (bare flags)
  | .append _ left right => by
    simp only [bare, parts, List.map_cons, List.map_append, parts_bare flags left,
      parts_bare flags right]
  | .fill _ docs => by
    simp only [bare, parts, List.map_cons, partsAll_bareAll flags docs]
  | .group _ body | .indent _ body | .align _ _ body | .suffix _ body | .measured _ _ body => by
    simp only [bare, parts, List.map_cons, parts_bare flags body]
  | .nil _ | .line _ _ | .breakParent _ | .cursor _ | .text _ _ _ => rfl

theorem partsAll_bareAll (flags : Doc → Bool) :
    (docs : List Doc) → partsAll (bareAll flags docs) = (partsAll docs).map (bare flags)
  | [] => rfl
  | doc :: docs => by
    simp only [bareAll, partsAll, List.map_append, parts_bare flags doc,
      partsAll_bareAll flags docs]

end

mutual

theorem bare_bare (flags flags' : Doc → Bool) :
    (doc : Doc) → (doc.bare flags).bare flags' = doc.bare fun x => flags' (x.bare flags)
  | .append _ left right => by
    simp only [bare, bare_bare flags flags' left, bare_bare flags flags' right]
  | .fill _ docs => by simp only [bare, bareAll_bareAll flags flags' docs]
  | .group _ body | .indent _ body | .align _ _ body | .suffix _ body | .measured _ _ body => by
    simp only [bare, bare_bare flags flags' body]
  | .nil _ | .line _ _ | .breakParent _ | .cursor _ | .text _ _ _ => rfl

theorem bareAll_bareAll (flags flags' : Doc → Bool) : (docs : List Doc) →
    bareAll flags' (bareAll flags docs) = bareAll (fun x => flags' (x.bare flags)) docs
  | [] => rfl
  | doc :: docs => by
    simp only [bareAll, bare_bare flags flags' doc, bareAll_bareAll flags flags' docs]

end

theorem stirs_bare_iff {s : Store} {marks : Label → Bool} {doc : Doc} :
    (doc.bare (s.flags marks)).stirs = true ↔ s.Forced doc := by
  rw [stirs, parts_bare, List.any_map, List.any_eq_true]
  refine exists_congr fun x => and_congr_right fun _ => ?_
  cases x <;> simp [Store.forces, Store.flags, bare]

theorem hardenedAll_eq_map (docs : List Doc) : hardenedAll docs = docs.map hardened := by
  induction docs with
  | nil => rfl
  | cons doc docs ih => rw [hardenedAll, List.map_cons, ih]

/-- Spreading the breaks of a graph does what its function does without labels. -/
theorem bare_spreadBreaks {s : Store} {marks : Label → Bool} {doc : Doc} (hdoc : doc.IsGraph) :
    doc.bare (((spreadBreaks doc).run s).2.flags marks) = (doc.bare (s.flags marks)).hardened := by
  have hpart : ∀ x ∈ doc.parts, x.bare (((spreadBreaks doc).run s).2.flags marks) =
      (x.bare (s.flags marks)).hardened := by
    intro x hx
    induction x using inductionOn with
    | step x ih =>
      have hoperand : ∀ y ∈ x.operands, y.bare (((spreadBreaks doc).run s).2.flags marks) =
          (y.bare (s.flags marks)).hardened := fun y hy =>
        ih y hy (mem_parts_trans hx (mem_parts_of_operand hy y.mem_parts_self))
      cases x with
      | append l left right =>
        simp only [bare, hardened, hoperand left (by simp [operands]),
          hoperand right (by simp [operands])]
      | group l body =>
        have hflag : ((spreadBreaks doc).run s).2.isBroken l =
            (((s.isBroken l).toNat == 1) || (body.bare (s.flags marks)).stirs) := by
          rw [Bool.eq_iff_iff, isBroken_spreadBreaks_group hdoc hx, Bool.or_eq_true, stirs_bare_iff]
          cases s.isBroken l <;> simp
        simp only [bare, hardened, Store.flags, hoperand body (by simp [operands]), hflag]
      | fill l parts =>
        simp only [bare, hardened, bareAll_eq_map, hardenedAll_eq_map, List.map_map]
        exact congrArg (fill 0) (List.map_congr_left hoperand)
      | indent l body | align l shift body | suffix l body | measured l width body =>
        simp only [bare, hardened, hoperand body (by simp [operands])]
      | nil | line | breakParent | cursor | text => rfl
  exact hpart doc doc.mem_parts_self

end Doc

/-- Spreading the breaks of a document whose groups are all new since an earlier store leaves the
labels of that store as they were. -/
theorem grows_spreadBreaks {s₀ s : Store} {marks : Label → Bool} {doc : Doc} (hgraph : doc.IsGraph)
    (hs : s.Clean marks) (hdoc : s.Has doc) (hgrows : s₀.Grows s)
    (hnew : ∀ l body, .group l body ∈ doc.parts → s₀.next ≤ l) :
    s₀.Grows ((spreadBreaks doc).run s).2 ∧ ((spreadBreaks doc).run s).2.Clean marks := by
  have hnext := next_spreadBreaks hgraph s
  constructor
  · refine ⟨?_, fun l hl => ?_⟩
    · rw [hnext]
      exact hgrows.next
    · rw [← hgrows.kept l hl, Bool.eq_iff_iff, isBroken_spreadBreaks hgraph]
      exact or_iff_left fun ⟨body, hbody, _⟩ => Nat.not_lt_of_le (hnew l body hbody) hl
  · rintro l (hl | hl)
    · rw [hnext]
      rcases (isBroken_spreadBreaks hgraph s l).mp hl with hl | ⟨body, hbody, -⟩
      · exact hs l (.inl hl)
      · exact hdoc _ hbody
    · rw [hnext]
      exact hs l (.inr hl)

end SourceLayout
