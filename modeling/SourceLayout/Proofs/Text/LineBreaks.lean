import Mathlib.Data.List.TakeWhile
import SourceLayout.Text.LineBreak

/-! # What stands next to an offset

Whether a line ends or starts at an offset depends on one character only: the nearest one there
that is no blank. So a gap between two places decides it for both of them as long as it holds more
than blanks.
-/

namespace SourceLayout

open Text (isBlank isLineBreak lineBreaks)

namespace Cut

theorem isSome_breakAfter? (c : Cut) : c.breakAfter?.isSome = c.after.head?.any isLineBreak := by
  unfold breakAfter?
  cases hafter : c.after with
  | nil => rfl
  | cons x rest =>
    rw [Bool.eq_iff_iff, List.find?_isSome]
    simp only [lineBreaks, List.mem_cons, List.not_mem_nil, or_false, exists_eq_or_imp,
      exists_eq_left, List.isPrefixOf, Bool.and_true, Bool.and_eq_true,
      beq_iff_eq, List.head?_cons, Option.any_some, isLineBreak, Bool.or_eq_true]
    grind

theorem isSome_breakBefore? (c : Cut) : c.breakBefore?.isSome = c.before.head?.any isLineBreak := by
  unfold breakBefore?
  cases hbefore : c.before with
  | nil => rfl
  | cons x rest =>
    rw [Bool.eq_iff_iff, List.find?_isSome]
    simp only [lineBreaks, List.mem_cons, List.not_mem_nil, or_false, exists_eq_or_imp,
      exists_eq_left, List.reverse_cons, List.reverse_nil, List.nil_append, List.cons_append,
      List.isPrefixOf_cons_cons, List.isPrefixOf, Bool.and_true, Bool.and_eq_true,
      beq_iff_eq, List.head?_cons, Option.any_some, isLineBreak, Bool.or_eq_true]
    grind

end Cut

namespace Source

variable {s : Source} {front rest : Text}

theorem cut?_of_text_eq (h : s.text = front ++ rest) :
    s.cut? front.byteSize = some ⟨front.reverse, rest⟩ := by
  rw [cut?_eq, Text.cutAt?, h, Text.cut?_append]
  rfl

theorem blanksEnd_eq (h : s.text = front ++ rest) :
    s.blanksEnd front.byteSize = (front ++ rest.takeWhile isBlank).byteSize := by
  rw [blanksEnd, cut?_of_text_eq h, Text.byteSize_append]
  rfl

theorem blanksStart_eq (h : s.text = front ++ rest) :
    s.blanksStart front.byteSize = Text.byteSize (front.reverse.dropWhile isBlank).reverse := by
  have hsize := congrArg Text.byteSize
    (List.takeWhile_append_dropWhile (p := isBlank) (l := front.reverse))
  rw [Text.byteSize_append, Text.byteSize_reverse] at hsize
  rw [blanksStart, cut?_of_text_eq h, Option.map_some, Option.getD_some, Cut.blanksBefore,
    Text.byteSize_reverse]
  dsimp only
  omega

/-- A line ends at an offset if the first character behind it that is no blank ends one. -/
theorem endsLine_eq (h : s.text = front ++ rest) :
    s.endsLine front.byteSize = (rest.find? (!isBlank ·)).any isLineBreak := by
  have hrest : rest.takeWhile isBlank ++ rest.dropWhile isBlank = rest :=
    List.takeWhile_append_dropWhile
  have hcut : s.cut? (s.blanksEnd front.byteSize) = some ⟨(front ++ rest.takeWhile isBlank).reverse,
      rest.dropWhile isBlank⟩ := by
    rw [blanksEnd_eq h]
    exact cut?_of_text_eq (by rw [List.append_assoc, hrest, h])
  rw [endsLine, breakAt?, hcut, Option.isSome_map, Option.bind_some, Cut.isSome_breakAfter?,
    List.find?_not_eq_head?_dropWhile]

theorem startsLine_eq (h : s.text = front ++ rest) :
    s.startsLine front.byteSize = (front.reverse.find? (!isBlank ·)).any isLineBreak := by
  have hfront : (front.reverse.dropWhile isBlank).reverse ++
      (front.reverse.takeWhile isBlank).reverse = front := by
    rw [← List.reverse_append, List.takeWhile_append_dropWhile, List.reverse_reverse]
  have hcut : s.cut? (s.blanksStart front.byteSize) = some ⟨front.reverse.dropWhile isBlank,
      (front.reverse.takeWhile isBlank).reverse ++ rest⟩ := by
    rw [blanksStart_eq h, cut?_of_text_eq (by rw [← List.append_assoc, hfront, h]),
      List.reverse_reverse]
  rw [startsLine, breakUpTo?, hcut, Option.isSome_map, Option.bind_some, Cut.isSome_breakBefore?,
    List.find?_not_eq_head?_dropWhile]

end Source

namespace Text

variable {gap : Text} {c : Char}

/-- Of the characters that end a line only the carriage return can stand between comments on one
line. -/
theorem eq_return_of_joinsLine (h : gap.joinsLine = true) (hc : c ∈ gap)
    (hbreak : isLineBreak c = true) :
    c = '\r' := by
  have hjoins := List.all_eq_true.mp h c hc
  simp only [Bool.and_eq_true, bne_iff_ne] at hjoins
  simp only [isLineBreak, Bool.or_eq_true, beq_iff_eq] at hbreak
  grind

end Text

end SourceLayout
