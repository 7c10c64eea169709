import SourceLayout.Proofs.Doc.Trimming

/-! # The normal form of documents

What builders make has a normal form. Nothing empty stands in a sequence or is held back to the end
of a line, no alignment is by zero columns, and each text has something to show. A text is measured
just if it is not plain ASCII. Trimming an end puts what is left into that form again, part by part.
-/

namespace SourceLayout

namespace Doc

variable [TextWidth]

/-- The documents in normal form. -/
inductive Normal : Doc → Prop
  | nil {l : Label} : Normal (.nil l)
  | append {l : Label} {left right : Doc} (hleft : left.isNil = false) (hright : right.isNil = false)
    (h : Normal left) (h' : Normal right) : Normal (.append l left right)
  | group {l : Label} {body : Doc} (h : Normal body) : Normal (.group l body)
  | fill {l : Label} {parts : List Doc} (h : ∀ part ∈ parts, Normal part) : Normal (.fill l parts)
  | indent {l : Label} {body : Doc} (h : Normal body) : Normal (.indent l body)
  | align {l : Label} {shift : Shift} {body : Doc} (hshift : shift ≠ .columns 0) (h : Normal body) :
    Normal (.align l shift body)
  | line {l : Label} {kind : LineKind} : Normal (.line l kind)
  | breakParent {l : Label} : Normal (.breakParent l)
  | suffix {l : Label} {body : Doc} (hnil : body.isNil = false) (h : Normal body) :
    Normal (.suffix l body)
  | cursor {l : Label} : Normal (.cursor l)
  | measured {l l' : Label} {origin : Origin} {content : Text} (hascii : content.isAscii = false) :
    Normal (.measured l (TextWidth.width content) (.text l' origin content))
  | text {l : Label} {origin : Origin} {content : Text} (hne : content ≠ [])
    (hascii : content.isAscii = true) : Normal (.text l origin content)

variable {doc left right separator body x : Doc} {docs : List Doc} {content : Text}

namespace Normal

theorem bare (h : doc.Normal) (flags : Doc → Bool) : (doc.bare flags).Normal := by
  induction h with
  | append hleft hright _ _ ih ih' =>
    exact .append (by rwa [isNil_bare]) (by rwa [isNil_bare]) ih ih'
  | fill _ ih =>
    rw [Doc.bare, bareAll_eq_map]
    exact .fill (List.forall_mem_map.mpr ih)
  | group _ ih => exact .group ih
  | indent _ ih => exact .indent ih
  | align hshift _ ih => exact .align hshift ih
  | suffix hnil _ ih => exact .suffix (by rwa [isNil_bare]) ih
  | measured hascii => exact .measured hascii
  | text hne hascii => exact .text hne hascii
  | nil => exact .nil
  | line => exact .line
  | breakParent => exact .breakParent
  | cursor => exact .cursor

theorem of_bare {flags : Doc → Bool} (h : (doc.bare flags).Normal) : doc.Normal := by
  induction doc using inductionOn with
  | step doc ih =>
    cases doc with
    | append l left right =>
      rcases h with _ | ⟨hleft, hright, h, h'⟩
      rw [isNil_bare] at hleft hright
      exact .append hleft hright (ih left (by simp [operands]) h) (ih right (by simp [operands]) h')
    | fill l parts =>
      rw [Doc.bare, bareAll_eq_map] at h
      rcases h with _ | _ | _ | h
      exact .fill fun part hpart => ih part hpart (List.forall_mem_map.mp h part hpart)
    | group l body =>
      cases h with | group h => exact .group (ih body (by simp [operands]) h)
    | indent l body =>
      cases h with | indent h => exact .indent (ih body (by simp [operands]) h)
    | align l shift body =>
      cases h with | align hshift h => exact .align hshift (ih body (by simp [operands]) h)
    | suffix l body =>
      cases h with
      | suffix hnil h =>
        rw [isNil_bare] at hnil
        exact .suffix hnil (ih body (by simp [operands]) h)
    | measured l width body =>
      cases body with
      | text l' origin content => cases h with | measured hascii => exact .measured hascii
      | _ => cases h
    | text l origin content => cases h with | text hne hascii => exact .text hne hascii
    | nil => exact .nil
    | line => exact .line
    | breakParent => exact .breakParent
    | cursor => exact .cursor

theorem leaf (origin : Origin) (content : Text) : (leaf origin content).Normal := by
  unfold Doc.leaf
  split
  · exact .nil
  · rename_i hne
    split
    · rename_i hascii
      exact .text (by simpa using hne) hascii
    · rename_i hascii
      exact .measured (by simpa using hascii)

theorem joined (h : left.Normal) (h' : right.Normal) : (left.joined right).Normal := by
  unfold Doc.joined
  split
  · exact h'
  · rename_i hleft
    split
    · exact h
    · rename_i hright
      exact .append (by simpa using hleft) (by simpa using hright) h h'

theorem joinedAll (h : ∀ doc ∈ docs, doc.Normal) : (joinedAll docs).Normal :=
  List.foldlRecOn docs _ .nil fun _ hsoFar doc hdoc => hsoFar.joined (h doc hdoc)

theorem spaced (h : ∀ doc ∈ docs, doc.Normal) (hseparator : separator.Normal) :
    (spaced docs separator).Normal := by
  cases docs with
  | nil => exact .nil
  | cons first rest =>
    rw [List.forall_mem_cons] at h
    exact List.foldlRecOn rest _ h.1 fun _ hsoFar doc hdoc =>
      (hsoFar.joined hseparator).joined (h.2 doc hdoc)

theorem linesOf (content : Text) : (linesOf content).Normal :=
  spaced (List.forall_mem_map.mpr fun line _ => leaf .owned line) .line

theorem grouped (h : body.Normal) : body.grouped.Normal := by
  unfold Doc.grouped
  split
  · exact h
  · exact .group h

theorem indented (h : body.Normal) : body.indented.Normal := by
  unfold Doc.indented
  split
  · exact h
  · exact .indent h

theorem suffixed (h : body.Normal) : body.suffixed.Normal := by
  unfold Doc.suffixed
  split
  · exact h
  · rename_i hnil
    exact .suffix (by simpa using hnil) h

theorem aligned (columns : Int) (h : body.Normal) : (body.aligned columns).Normal := by
  unfold Doc.aligned
  split
  · exact h
  · rename_i hneither
    have hcolumns : columns ≠ 0 := by
      rintro rfl
      simp at hneither
    exact .align (by simpa using hcolumns) h

theorem shifted (size tabWidth : Nat) (h : body.Normal) : (body.shifted size tabWidth).Normal := by
  have hindents : ∀ n, (Doc.indented^[n] body).Normal := by
    intro n
    induction n with
    | zero => exact h
    | succ n ih =>
      rw [Function.iterate_succ_apply']
      exact ih.indented
  unfold Doc.shifted
  split
  · exact h
  · exact .align nofun ((hindents _).aligned _)

/-- What is trimmed at the end of a sequence is put together again, so no empty part is left. -/
theorem trimmed (h : doc.Normal) : doc.trimmed.Normal := by
  induction h with
  | append hleft hright h h' ih ih' =>
    rw [Doc.trimmed]
    split
    · exact ih
    · split
      · exact .append hleft hright h h'
      · exact h.joined ih'
  | group _ ih => exact .group ih
  | indent _ ih => exact .indent ih
  | align hshift _ ih => exact .align hshift ih
  | @line l kind =>
    rw [Doc.trimmed]
    split
    · exact .nil
    · exact .line
  | @text l origin content hne hascii =>
    cases origin with
    | fixed => exact .text hne hascii
    | owned =>
      rw [Doc.trimmed]
      split
      · exact leaf .owned _
      · exact .text hne hascii
  | nil => exact .nil
  | fill h _ => exact .fill h
  | breakParent => exact .breakParent
  | suffix hnil h _ => exact .suffix hnil h
  | cursor => exact .cursor
  | measured hascii => exact .measured hascii

end Normal

theorem Normal.operand (h : doc.Normal) (hx : x ∈ doc.operands) :
    doc.width? = none ∧ x.Normal ∨
      doc.width?.isSome = true ∧ ∃ l origin content, x = .text l origin content ∧
        content.isAscii = false := by
  cases h with
  | append _ _ h h' =>
    rcases List.mem_pair.mp hx with rfl | rfl
    · exact .inl ⟨rfl, h⟩
    · exact .inl ⟨rfl, h'⟩
  | fill h => exact .inl ⟨rfl, h x hx⟩
  | group h | indent h | align _ h | suffix _ h =>
    obtain rfl := List.mem_singleton.mp hx
    exact .inl ⟨rfl, h⟩
  | measured hascii =>
    obtain rfl := List.mem_singleton.mp hx
    exact .inr ⟨rfl, _, _, _, rfl, hascii⟩
  | nil | line | breakParent | cursor | text => cases hx

/-- All parts have the normal form, apart from the texts that are measured. -/
theorem Normal.part (h : doc.Normal) (hx : x ∈ doc.parts) :
    x.Normal ∨ ∃ l origin content, x = .text l origin content ∧ content.isAscii = false := by
  induction doc using inductionOn with
  | step doc ih =>
    rcases mem_parts_iff.mp hx with rfl | ⟨y, hy, hx⟩
    · exact .inl h
    · rcases h.operand hy with ⟨-, hnormal⟩ | ⟨-, l, origin, content, rfl, hascii⟩
      · exact ih y hy hnormal hx
      · obtain rfl : x = .text l origin content := by simpa [parts] using hx
        exact .inr ⟨l, origin, content, rfl, hascii⟩

/-- What the normal form comes to for the parts of a document. -/
structure NormalForm (doc : Doc) : Prop where
  append : ∀ l left right, .append l left right ∈ doc.parts →
    left.isNil = false ∧ right.isNil = false
  suffix : ∀ l body, .suffix l body ∈ doc.parts → body.isNil = false
  align : ∀ l body, .align l (.columns 0) body ∉ doc.parts
  text : ∀ l origin content, .text l origin content ∈ doc.parts → content ≠ []
  measured : ∀ l width body, .measured l width body ∈ doc.parts →
    ∃ l' origin content, body = .text l' origin content ∧ width = TextWidth.width content
  measures_iff : ∀ x ∈ doc.parts, ∀ l origin content, .text l origin content ∈ x.operands →
    (x.width?.isSome = true ↔ content.isAscii = false)
  ascii : ∀ l origin content, doc = .text l origin content → content.isAscii = true

theorem Normal.toNormalForm (h : doc.Normal) : doc.NormalForm where
  append l left right hx := by
    rcases h.part hx with (_ | ⟨hleft, hright⟩) | ⟨_, _, _, ⟨⟩, -⟩
    exact ⟨hleft, hright⟩
  suffix l body hx := by
    obtain h | ⟨_, _, _, ⟨⟩, -⟩ := h.part hx
    cases h with | suffix hnil => exact hnil
  align l body hx := by
    obtain h | ⟨_, _, _, ⟨⟩, -⟩ := h.part hx
    cases h with | align hshift => exact hshift rfl
  text l origin content hx := by
    obtain h | ⟨_, _, _, ⟨⟩, hascii⟩ := h.part hx
    · cases h with | text hne => exact hne
    · rintro rfl
      cases hascii
  measured l width body hx := by
    obtain h | ⟨_, _, _, ⟨⟩, -⟩ := h.part hx
    cases h with | measured => exact ⟨_, _, _, rfl, rfl⟩
  measures_iff x hx l origin content hleaf := by
    obtain h | ⟨_, _, _, rfl, -⟩ := h.part hx
    · rcases h.operand hleaf with ⟨hwidth, h⟩ | ⟨hwidth, _, _, _, ⟨⟩, hascii⟩
      · cases h with | text _ hascii => simp [hwidth, hascii]
      · simp [hwidth, hascii]
    · cases hleaf
  ascii l origin content hdoc := by
    subst hdoc
    cases h with | text _ hascii => exact hascii

end Doc

/-- Builders make documents in normal form of such documents. -/
theorem Construction.normal_plain [TextWidth] {c : Construction Doc}
    (h : ∀ y ∈ c.operands, y.Normal) :
    c.plain.Normal := by
  cases c with
  | nil => exact .nil
  | text origin content => exact .leaf origin content
  | verbatim content => exact .linesOf content
  | line kind => exact .line
  | breakParent => exact .breakParent
  | cursor => exact .cursor
  | append left right => exact (h left (.head _)).joined (h right (.tail _ (.head _)))
  | concat docs => exact .joinedAll h
  | intersperse docs separator =>
    rw [operands, List.forall_mem_cons] at h
    exact .spaced h.2 h.1
  | fill parts => exact .fill h
  | group body => exact (h body (.head _)).grouped
  | expandedGroup body => exact .group (h body (.head _))
  | indent body => exact (h body (.head _)).indented
  | align columns body => exact (h body (.head _)).aligned columns
  | toRoot body => exact .align (by simp) (h body (.head _))
  | suffix body => exact (h body (.head _)).suffixed
  | shiftRight size tabWidth body => exact (h body (.head _)).shifted size tabWidth
  | trimEnd body => exact (h body (.head _)).trimmed

namespace Built

variable [TextWidth] {s : Store} {docs : List Doc} {doc : Doc}

theorem normal (h : Built s docs) : ∀ doc ∈ docs, doc.Normal := by
  induction h with
  | none => exact nofun
  | @build s docs c hc h ih =>
    have hmakes : Makes (fun _ => false) s c.build _ :=
      Construction.makes_build h.clean fun y hy => ⟨h.has (hc y hy), h.isGraph (hc y hy)⟩
    refine List.forall_mem_cons.mpr ⟨?_, ih⟩
    apply Doc.Normal.of_bare
    rw [hmakes.looks]
    apply Construction.normal_plain
    rw [Construction.operands_map]
    exact List.forall_mem_map.mpr fun y hy => (ih y (hc y hy)).bare _
  | spread hdoc h ih => exact ih

/-- All documents that can be built have the normal form, however they share their parts and
whatever breaks were spread in between. -/
theorem normalForm (h : Built s docs) (hdoc : doc ∈ docs) : doc.NormalForm :=
  (h.normal doc hdoc).toNormalForm

end Built

section Sample

attribute [local instance] TextWidth.perCharacter

theorem Built.normalForm_trimmedSequence :
    (Doc.append 6 (.suffix 2 (.measured 1 1 (.text 0 .owned ['é'])))
      (.text 5 .owned ['a'])).NormalForm := by
  have hwidth : TextWidth.width ['é'] = 1 := rfl
  have hmeasured : Built { next := 2 } _ := Built.none.of_build (.text .owned ['é'])
    (by simp [Construction.operands]) rfl
  have hsuffix : Built { next := 3 } _ := hmeasured.of_build
    (.suffix (.measured 1 1 (.text 0 .owned ['é']))) (by simp [Construction.operands, hwidth]) rfl
  have htext : Built { next := 4 } _ := hsuffix.of_build (.text .owned ['a', '\n'])
    (by simp [Construction.operands]) rfl
  have happend : Built { next := 5 } _ := htext.of_build
    (.append (.suffix 2 (.measured 1 1 (.text 0 .owned ['é']))) (.text 3 .owned ['a', '\n']))
    (by simp [Construction.operands]) rfl
  have htrim : Built { next := 7 } _ := happend.trimEnd (.head _) rfl
  exact htrim.normalForm (.head _)

end Sample

end SourceLayout
