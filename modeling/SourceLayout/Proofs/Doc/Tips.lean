import Mathlib.Data.List.Basic
import SourceLayout.Proofs.Doc.Plain
import SourceLayout.Proofs.Text.Lines

/-! # The tips of a document

The tips of a document are its leaves in order, those that are held back to the end of a line
included. Groups and shifts around them do not matter to them, nor does the way in which a sequence
was put together. What is empty has none.
-/

namespace SourceLayout

inductive Tip
  | text (origin : Origin) (content : Text)
  | line (kind : LineKind)
  | breakParent
  | cursor
  deriving DecidableEq, Repr

namespace Doc

/-- What a document is if it is a leaf with something to show or to do. -/
def tip? : Doc → Option Tip
  | .text _ origin content => some (.text origin content)
  | .line _ kind => some (.line kind)
  | .breakParent _ => some .breakParent
  | .cursor _ => some .cursor
  | _ => none

def tips (doc : Doc) : List Tip := doc.parts.filterMap tip?

section Parts

variable (doc : Doc)

theorem tips_eq : doc.tips = doc.tip?.toList ++ doc.operands.flatMap tips := by
  have hall : ∀ docs : List Doc, (partsAll docs).filterMap tip? = docs.flatMap tips := by
    intro docs
    induction docs with
    | nil => rfl
    | cons doc docs ih =>
      rw [partsAll, List.filterMap_append, ih, List.flatMap_cons]
      rfl
  cases doc with
  | fill l docs => exact hall docs
  | _ => simp [tips, parts, operands, tip?, List.filterMap_cons]

theorem tips_bare (flags : Doc → Bool) : (doc.bare flags).tips = doc.tips := by
  rw [tips, parts_bare, List.filterMap_map, tips]
  congr 1
  funext x
  cases x <;> rfl

theorem tips_hardened : doc.hardened.tips = doc.tips := by
  induction doc using inductionOn with
  | step doc ih =>
    have htip : doc.hardened.tip? = doc.tip? := by cases doc <;> rfl
    have hoperands : doc.hardened.operands = doc.operands.map hardened := by
      cases doc <;> simp [hardened, operands, hardenedAll_eq_map]
    rw [tips_eq, htip, hoperands, List.flatMap_map, List.flatMap_congr ih, ← tips_eq]

end Parts

section Builders

variable {left right body separator : Doc} {docs : List Doc} {tip : Tip}

theorem tips_of_isNil (h : left.isNil = true) : left.tips = [] := by
  cases left with
  | nil => rfl
  | _ => cases h

@[simp] theorem tips_append (l : Label) (left right : Doc) :
    (Doc.append l left right).tips = left.tips ++ right.tips := by
  simp [tips, parts, tip?, List.filterMap_cons]

@[simp] theorem tips_joined (left right : Doc) :
    (left.joined right).tips = left.tips ++ right.tips := by
  unfold joined
  split
  · rename_i h
    rw [tips_of_isNil h, List.nil_append]
  · split
    · rename_i h
      rw [tips_of_isNil h, List.append_nil]
    · exact tips_append 0 left right

@[simp] theorem tips_joinedAll (docs : List Doc) : (joinedAll docs).tips = docs.flatMap tips := by
  have hfold : ∀ first : Doc, (docs.foldl joined first).tips = first.tips ++ docs.flatMap tips := by
    induction docs with
    | nil => simp
    | cons doc docs ih =>
      intro first
      rw [List.foldl_cons, ih, tips_joined, List.append_assoc, List.flatMap_cons]
  exact hfold (.nil 0)

theorem tips_spaced (docs : List Doc) (separator : Doc) :
    (spaced docs separator).tips = separator.tips.intercalate (docs.map tips) := by
  cases docs with
  | nil => rfl
  | cons first docs =>
    have hfold : ∀ first : Doc,
        (docs.foldl (fun soFar doc => (soFar.joined separator).joined doc) first).tips =
          separator.tips.intercalate ((first :: docs).map tips) := by
      induction docs with
      | nil => simp
      | cons doc docs ih =>
        intro first
        rw [List.foldl_cons, ih]
        cases docs <;> simp
    exact hfold first

@[simp] theorem tips_grouped (body : Doc) : body.grouped.tips = body.tips := by
  unfold grouped
  split
  · rfl
  · simp [tips, parts, tip?, List.filterMap_cons]

@[simp] theorem tips_indented (body : Doc) : body.indented.tips = body.tips := by
  unfold indented
  split
  · rfl
  · simp [tips, parts, tip?, List.filterMap_cons]

@[simp] theorem tips_suffixed (body : Doc) : body.suffixed.tips = body.tips := by
  unfold suffixed
  split
  · rfl
  · simp [tips, parts, tip?, List.filterMap_cons]

theorem tips_leaf [TextWidth] (origin : Origin) (content : Text) :
    (leaf origin content).tips = if content.isEmpty then [] else [.text origin content] := by
  unfold leaf
  split
  · rfl
  · split <;> rfl

@[simp] theorem tips_shifted (size tabWidth : Nat) (body : Doc) :
    (body.shifted size tabWidth).tips = body.tips := by
  have halign : ∀ (columns : Int) (body : Doc), (body.aligned columns).tips = body.tips := by
    intro columns body
    unfold aligned
    split
    · rfl
    · simp [tips, parts, tip?, List.filterMap_cons]
  have hindent : ∀ n, (indented^[n] body).tips = body.tips := by
    intro n
    induction n with
    | zero => rfl
    | succ n ih => rw [Function.iterate_succ_apply', tips_indented, ih]
  unfold shifted
  split
  · rfl
  · rw [tips_eq]
    simp [tip?, operands, halign, hindent]

end Builders

section Marks

variable {doc left right body separator : Doc} {docs : List Doc}

/-- A document without a mark of the cursor. -/
def Unmarked (doc : Doc) : Prop := Tip.cursor ∉ doc.tips

theorem unmarked_leaf [TextWidth] (origin : Origin) (content : Text) :
    (leaf origin content).Unmarked := by
  unfold Unmarked
  rw [tips_leaf]
  split <;> simp

theorem unmarked_line (l : Label) (kind : LineKind) : (Doc.line l kind).Unmarked := by
  simp [Unmarked, tips, parts, tip?]

theorem Unmarked.joined (hleft : left.Unmarked) (hright : right.Unmarked) :
    (left.joined right).Unmarked := by
  unfold Unmarked at *
  rw [tips_joined, List.mem_append, not_or]
  exact ⟨hleft, hright⟩

theorem Unmarked.joinedAll (hdocs : ∀ doc ∈ docs, doc.Unmarked) : (joinedAll docs).Unmarked := by
  unfold Unmarked at *
  rw [tips_joinedAll, List.mem_flatMap]
  rintro ⟨doc, hdoc, hmem⟩
  exact hdocs doc hdoc hmem

theorem Unmarked.spaced (hdocs : ∀ doc ∈ docs, doc.Unmarked) (hseparator : separator.Unmarked) :
    (spaced docs separator).Unmarked := by
  intro hmem
  rw [tips_spaced] at hmem
  rcases Text.mem_of_mem_intercalate hmem with hmem | ⟨tips, htips, hmem⟩
  · exact hseparator hmem
  · obtain ⟨doc, hdoc, rfl⟩ := List.mem_map.mp htips
    exact hdocs doc hdoc hmem

theorem Unmarked.suffixed (h : body.Unmarked) : body.suffixed.Unmarked := by
  unfold Unmarked
  rw [tips_suffixed]
  exact h

theorem unmarked_linesOf [TextWidth] (content : Text) : (linesOf content).Unmarked := by
  refine .spaced (fun doc hdoc => ?_) (unmarked_line 0 .literal)
  obtain ⟨line, -, rfl⟩ := List.mem_map.mp hdoc
  exact unmarked_leaf .owned line

/-- Trimming takes tips away from the end, or cuts the last of them short. -/
theorem Unmarked.trimmed [TextWidth] (h : doc.Unmarked) : doc.trimmed.Unmarked := by
  induction doc using inductionOn with
  | step doc ih =>
    have hoperand : ∀ y ∈ doc.operands, y.Unmarked := by
      intro y hy hmem
      refine h ?_
      rw [tips_eq, List.mem_append, List.mem_flatMap]
      exact .inr ⟨y, hy, hmem⟩
    have hbody : ∀ y ∈ doc.operands, y.trimmed.Unmarked := fun y hy => ih y hy (hoperand y hy)
    cases doc with
    | line l kind =>
      rw [Doc.trimmed]
      split
      · exact List.not_mem_nil
      · exact h
    | text l origin content =>
      cases origin with
      | fixed => exact h
      | owned =>
        rw [Doc.trimmed]
        split
        · exact unmarked_leaf _ _
        · exact h
    | append l left right =>
      rw [Doc.trimmed]
      split
      · exact hbody left (by simp [operands])
      · split
        · exact h
        · exact (hoperand left (by simp [operands])).joined (hbody right (by simp [operands]))
    | group l body | indent l body | align l shift body =>
      have hbody := hbody body (by simp [operands])
      simpa [Unmarked, Doc.trimmed, tips, parts, tip?, List.filterMap_cons] using hbody
    | nil | fill | breakParent | suffix | cursor | measured => exact h

end Marks

end Doc

end SourceLayout
