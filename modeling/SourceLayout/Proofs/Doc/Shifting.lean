import Mathlib.Algebra.Group.Int.Defs
import Mathlib.Algebra.Group.Nat.Defs
import SourceLayout.Doc.Build

/-! # Shifting a document

A document is shifted by whole indents as far as they go and by an alignment for the columns that
remain. These are converted to a signed word: from the sign bit on they stand for a shift to the
left.
-/

namespace SourceLayout

open Build

variable {body doc inner : Doc} {k : Nat} {columns : Int} {s : Store}

namespace Doc

/-- `doc` is `body` under `k` indents. -/
inductive Indented (body : Doc) : Nat → Doc → Prop
  | zero : Indented body 0 body
  | succ {k : Nat} {doc : Doc} {l : Label} (h : Indented body k doc) :
    Indented body (k + 1) (.indent l doc)

/-- `doc` starts from the left margin and shows `body` under `k` indents, all of it under one
alignment by the given columns unless there are none. -/
inductive Shifted (body : Doc) (k : Nat) (columns : Int) : Doc → Prop
  | whole {inner : Doc} {l : Label} (hzero : columns = 0) (h : Indented body k inner) :
    Shifted body k columns (.align l .toRoot inner)
  | rest {inner : Doc} {l l' : Label} (hne : columns ≠ 0) (h : Indented body k inner) :
    Shifted body k columns (.align l .toRoot (.align l' (.columns columns) inner))

theorem Indented.sizeOf_le (h : Indented body k doc) : sizeOf body ≤ sizeOf doc := by
  induction h with
  | zero => exact Nat.le_refl _
  | succ _ ih =>
    rw [indent.sizeOf_spec]
    omega

theorem Indented.isNil (h : Indented body k doc) (hbody : body.isNil = false) :
    doc.isNil = false := by
  cases h with
  | zero => exact hbody
  | succ _ => rfl

theorem Indented.not_align {l : Label} {shift : Shift} (h : Indented body k inner) (k' : Nat) :
    ¬ Indented body k' (.align l shift inner) := by
  intro h'
  have hle := h.sizeOf_le
  cases h'
  rw [align.sizeOf_spec] at hle
  omega

/-- A document is shifted in one way only. -/
theorem Shifted.columns_eq {k' : Nat} {columns' : Int} (h : Shifted body k columns doc)
    (h' : Shifted body k' columns' doc) : columns = columns' := by
  cases h with
  | whole hzero h =>
    cases h' with
    | whole hzero' _ => rw [hzero, hzero']
    | rest _ h' => exact absurd h (h'.not_align k)
  | rest _ h =>
    cases h' with
    | whole _ h' => exact absurd h' (h.not_align k')
    | rest _ _ => rfl

end Doc

namespace Build

theorem signedColumns_eq {n : Nat} (hn : n < 2 ^ 64) :
    signedColumns n = if n < 2 ^ 63 then (n : Int) else (n : Int) - 2 ^ 64 := by
  have hsize : ((UInt64.size : Nat) : Int) = 2 ^ 64 := by
    rw [UInt64.size]
    omega
  have hmod : (n : Int) % 2 ^ 64 = n := Int.emod_eq_of_lt (by omega) (by omega)
  unfold signedColumns
  by_cases h : n < 2 ^ 63
  · rw [if_pos h, Int.bmod_def, hsize, hmod, if_pos (by omega)]
  · rw [if_neg h, Int.bmod_def, hsize, hmod, if_neg (by omega)]

theorem indented_indent (hbody : body.isNil = false) (h : Doc.Indented body k doc) :
    Doc.Indented body (k + 1) ((indent doc).run s).1 := by
  rw [indent, if_neg (by simp [h.isNil hbody])]
  exact .succ h

theorem indented_indentTimes (hbody : body.isNil = false) (h : Doc.Indented body k doc) (n : Nat) :
    Doc.Indented body (k + n) ((indentTimes n doc).run s).1 := by
  induction n generalizing k doc s with
  | zero => exact h
  | succ n ih =>
    have hnext := ih (indented_indent (s := s) hbody h) (s := ((indent doc).run s).2)
    rw [Nat.add_right_comm] at hnext
    exact hnext

theorem shifted_toRoot_align (hbody : body.isNil = false) (h : Doc.Indented body k inner)
    (columns : Int) :
    Doc.Shifted body k columns ((do toRoot (← align columns inner) : DocM Doc).run s).1 := by
  by_cases hzero : columns = 0
  · rw [align, if_pos (by simp [hzero])]
    exact .whole hzero h
  · rw [align, if_neg (by simp [hzero, h.isNil hbody])]
    exact .rest hzero h

/-- The shift is made of the whole steps and of what the signed word says of the rest. -/
theorem shifted_shiftRight {size : Nat} (hsize : 0 < size) (tabWidth : Nat)
    (hbody : body.isNil = false) :
    Doc.Shifted body (size / max tabWidth 1) (signedColumns (size % max tabWidth 1))
      ((shiftRight size tabWidth body).run s).1 := by
  have hrun : (shiftRight size tabWidth body).run s =
      (do toRoot (← align (signedColumns (size % max tabWidth 1))
        ((indentTimes (size / max tabWidth 1) body).run s).1) : DocM Doc).run
          ((indentTimes (size / max tabWidth 1) body).run s).2 := by
    rw [shiftRight, if_neg (by simpa using Nat.ne_of_gt hsize)]
    rfl
  have hindented := indented_indentTimes (s := s) hbody .zero (size / max tabWidth 1)
  rw [Nat.zero_add] at hindented
  rw [hrun]
  exact shifted_toRoot_align hbody hindented _

/-- A document that is not empty is shifted right by just the columns asked for if those that whole
steps leave over fit into a signed word. Otherwise the alignment goes to the left. -/
theorem shiftRight_shifts_iff {size : Nat} (hsize : 0 < size) (hword : size < 2 ^ 64)
    (tabWidth : Nat) (hbody : body.isNil = false) (s : Store) :
    ((∃ k w : Nat, w < max tabWidth 1 ∧ k * max tabWidth 1 + w = size ∧
        Doc.Shifted body k w ((shiftRight size tabWidth body).run s).1) ↔
      size % max tabWidth 1 < 2 ^ 63) ∧
    (2 ^ 63 ≤ size % max tabWidth 1 →
      Doc.Shifted body (size / max tabWidth 1) ((size % max tabWidth 1 : Nat) - 2 ^ 64)
        ((shiftRight size tabWidth body).run s).1) := by
  have hstep : 0 < max tabWidth 1 := Nat.lt_of_lt_of_le Nat.one_pos (Nat.le_max_right _ _)
  have hshifted := shifted_shiftRight (s := s) hsize tabWidth hbody
  have hrest : size % max tabWidth 1 < 2 ^ 64 := Nat.lt_of_le_of_lt (Nat.mod_le _ _) hword
  rw [signedColumns_eq hrest] at hshifted
  refine ⟨⟨?_, fun hlt => ?_⟩, fun hle => ?_⟩
  · rintro ⟨k, w, hw, rfl, hkw⟩
    have hmod : (k * max tabWidth 1 + w) % max tabWidth 1 = w := by
      rw [Nat.mul_add_mod_self_right, Nat.mod_eq_of_lt hw]
    have hcolumns := hshifted.columns_eq hkw
    rw [hmod] at hcolumns hrest ⊢
    split at hcolumns <;> omega
  · rw [if_pos hlt] at hshifted
    exact ⟨_, _, Nat.mod_lt _ hstep, Nat.div_add_mod' _ _, hshifted⟩
  · rwa [if_neg (Nat.not_lt_of_le hle)] at hshifted

/-- Asked for a shift by one column less than a step of more than half the words, the alignment goes
to the left; with a step of two columns the same shift is made of whole steps. -/
theorem shiftRight_shifts_iff_signBit :
    (¬ ∃ k w : Nat, w < 2 ^ 63 + 1 ∧ k * (2 ^ 63 + 1) + w = 2 ^ 63 ∧
      Doc.Shifted (.text 0 .fixed ['x']) k w
        ((shiftRight (2 ^ 63) (2 ^ 63 + 1) (.text 0 .fixed ['x'])).run { next := 1 }).1) ∧
    Doc.Shifted (.text 0 .fixed ['x']) 0 (-2 ^ 63)
      ((shiftRight (2 ^ 63) (2 ^ 63 + 1) (.text 0 .fixed ['x'])).run { next := 1 }).1 ∧
    ∃ k w : Nat, w < 2 ∧ k * 2 + w = 2 ^ 63 ∧
      Doc.Shifted (.text 0 .fixed ['x']) k w
        ((shiftRight (2 ^ 63) 2 (.text 0 .fixed ['x'])).run { next := 1 }).1 := by
  have hleaf : (Doc.text 0 .fixed ['x']).isNil = false := rfl
  have hpos : 0 < 2 ^ 63 := by decide
  have hword : 2 ^ 63 < 2 ^ 64 := by decide
  have hlarge := shiftRight_shifts_iff hpos hword (2 ^ 63 + 1) hleaf { next := 1 }
  have hsmall := shiftRight_shifts_iff hpos hword 2 hleaf { next := 1 }
  exact ⟨fun h => absurd (hlarge.1.mp h) (by decide), hlarge.2 (by decide),
    hsmall.1.mpr (by decide)⟩

end Build

end SourceLayout
