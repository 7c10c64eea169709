import SourceLayout.Proofs.Text.LineBreaks

/-! # The lines of a text

A text is its lines with its line breaks in between. No line holds a character that ends one, so the
lines and the breaks of a text are told apart again wherever they are put together. The lines are
also what a scan by byte offsets finds, and it never cuts through a character.
-/

namespace SourceLayout

namespace Text

variable {t done line rest : Text} {c : Char}

theorem mem_of_mem_intercalate {α : Type} {separator : List α} {xs : List (List α)} {a : α}
    (h : a ∈ separator.intercalate xs) : a ∈ separator ∨ ∃ x ∈ xs, a ∈ x := by
  induction xs with
  | nil => cases h
  | cons x xs ih =>
    cases xs with
    | nil =>
      rw [List.intercalate_singleton] at h
      exact .inr ⟨x, List.mem_cons_self, h⟩
    | cons next xs =>
      rw [List.intercalate_cons_cons, List.mem_append, List.mem_append] at h
      rcases h with (h | h) | h
      · exact .inr ⟨x, List.mem_cons_self, h⟩
      · exact .inl h
      · refine (ih h).imp_right ?_
        rintro ⟨y, hy, ha⟩
        exact ⟨y, List.mem_cons_of_mem _ hy, ha⟩

theorem linesFrom_cons (done : Text) (hc : isLineBreak c = false) (t : Text) :
    linesFrom done (c :: t) = linesFrom (c :: done) t := by
  have hr : c ≠ '\r' := by
    rintro rfl
    cases hc
  rw [linesFrom.eq_3 _ _ _ fun _ h _ => hr h]
  rw [isLineBreak] at hc
  rw [hc, if_neg Bool.false_ne_true]

theorem exists_linesFrom_eq (done t : Text) :
    ∃ rest others, linesFrom done t = (done.reverse ++ rest) :: others := by
  fun_induction linesFrom done t with
  | case1 done => exact ⟨[], [], by rw [List.append_nil]⟩
  | case2 done t ih => exact ⟨[], _, by rw [List.append_nil]⟩
  | case3 done c t hcr hbreak ih => exact ⟨[], _, by rw [List.append_nil]⟩
  | case4 done c t hcr hbreak ih =>
    obtain ⟨rest, others, heq⟩ := ih
    exact ⟨c :: rest, others, by rw [heq, List.reverse_cons, List.append_assoc]; rfl⟩

theorem lines_ne_nil (t : Text) : t.lines ≠ [] := by
  obtain ⟨rest, others, heq⟩ := exists_linesFrom_eq [] t
  rw [lines, heq]
  exact List.cons_ne_nil _ _

theorem not_isLineBreak_of_mem_linesFrom (hdone : ∀ c ∈ done, isLineBreak c = false)
    (hline : line ∈ linesFrom done t) (hc : c ∈ line) : isLineBreak c = false := by
  fun_induction linesFrom done t with
  | case1 done =>
    rw [List.mem_singleton] at hline
    exact hdone c (List.mem_reverse.mp (hline ▸ hc))
  | case2 done t ih | case3 done c' t hcr hbreak ih =>
    rcases List.mem_cons.mp hline with rfl | hline
    · exact hdone c (List.mem_reverse.mp hc)
    · exact ih (fun _ hc => nomatch hc) hline
  | case4 done c' t hcr hbreak ih =>
    refine ih (List.forall_mem_cons.mpr ⟨?_, hdone⟩) hline
    rwa [Bool.not_eq_true] at hbreak

theorem exists_mem_linesFrom (hc : c ∈ done ∨ c ∈ t ∧ isLineBreak c = false) :
    ∃ line ∈ linesFrom done t, c ∈ line := by
  fun_induction linesFrom done t with
  | case1 done =>
    refine ⟨_, List.mem_singleton_self _, List.mem_reverse.mpr (hc.resolve_right ?_)⟩
    rintro ⟨hc, -⟩
    cases hc
  | case2 done t ih =>
    rcases hc with hc | ⟨hc, hother⟩
    · exact ⟨_, List.mem_cons_self, List.mem_reverse.mpr hc⟩
    · have hc : c ∈ t := by
        rcases List.mem_cons.mp hc with rfl | hc
        · cases hother
        · rcases List.mem_cons.mp hc with rfl | hc
          · cases hother
          · exact hc
      obtain ⟨line, hline, hc⟩ := ih (.inr ⟨hc, hother⟩)
      exact ⟨line, List.mem_cons_of_mem _ hline, hc⟩
  | case3 done c' t hcr hbreak ih =>
    rcases hc with hc | ⟨hc, hother⟩
    · exact ⟨_, List.mem_cons_self, List.mem_reverse.mpr hc⟩
    · have hc : c ∈ t := by
        rcases List.mem_cons.mp hc with rfl | hc
        · rw [isLineBreak, hbreak] at hother
          cases hother
        · exact hc
      obtain ⟨line, hline, hc⟩ := ih (.inr ⟨hc, hother⟩)
      exact ⟨line, List.mem_cons_of_mem _ hline, hc⟩
  | case4 done c' t hcr hbreak ih =>
    apply ih
    rcases hc with hc | ⟨hc, hother⟩
    · exact .inl (List.mem_cons_of_mem _ hc)
    · rcases List.mem_cons.mp hc with rfl | hc
      · exact .inl List.mem_cons_self
      · exact .inr ⟨hc, hother⟩

theorem not_isLineBreak_of_mem_lines (hline : line ∈ t.lines) (hc : c ∈ line) :
    isLineBreak c = false := by
  have hdone : ∀ c ∈ ([] : Text), isLineBreak c = false := fun _ hc => nomatch hc
  exact not_isLineBreak_of_mem_linesFrom hdone hline hc

theorem getLast?_ne_of_mem_lines (hline : line ∈ t.lines) : line.getLast? ≠ some '\n' := by
  intro hlast
  cases not_isLineBreak_of_mem_lines hline (List.mem_of_getLast? hlast)

theorem exists_mem_lines (hc : c ∈ t) (hother : isLineBreak c = false) :
    ∃ line ∈ t.lines, line ≠ [] := by
  have hon : c ∈ ([] : Text) ∨ c ∈ t ∧ isLineBreak c = false := .inr ⟨hc, hother⟩
  obtain ⟨line, hline, hc⟩ := exists_mem_linesFrom hon
  exact ⟨line, hline, List.ne_nil_of_mem hc⟩

def breaks : Text → List Text
  | [] => []
  | '\r' :: '\n' :: t => ['\r', '\n'] :: breaks t
  | c :: t => if isLineBreak c then [c] :: breaks t else breaks t

theorem breaks_cons_of_isLineBreak (hcr : ∀ t', c = '\r' → t = '\n' :: t' → False)
    (hc : isLineBreak c = true) : breaks (c :: t) = [c] :: breaks t := by
  rw [breaks.eq_3 _ _ hcr, if_pos hc]

theorem breaks_cons (hc : isLineBreak c = false) : breaks (c :: t) = breaks t := by
  have hcr : c ≠ '\r' := by
    rintro rfl
    cases hc
  rw [breaks.eq_3 _ _ fun _ h _ => hcr h, hc, if_neg Bool.false_ne_true]

theorem length_linesFrom (done t : Text) : (linesFrom done t).length = t.breaks.length + 1 := by
  fun_induction linesFrom done t with
  | case1 done => rfl
  | case2 done t ih => rw [List.length_cons, ih, breaks, List.length_cons]
  | case3 done c t hcr hbreak ih =>
    rw [List.length_cons, ih, breaks_cons_of_isLineBreak hcr hbreak, List.length_cons]
  | case4 done c t hcr hbreak ih => rw [ih, breaks_cons (Bool.eq_false_iff.mpr hbreak)]

theorem find?_lineBreaks_cons (hcr : ∀ t', c = '\r' → t = '\n' :: t' → False)
    (hc : isLineBreak c = true) : lineBreaks.find? (·.isPrefixOf (c :: t)) = some [c] := by
  simp only [isLineBreak, Bool.or_eq_true, beq_iff_eq] at hc
  obtain ((rfl | rfl) | rfl) | rfl := hc
  · rfl
  · cases t with
    | nil => rfl
    | cons d t =>
      have hd : d ≠ '\n' := by
        rintro rfl
        exact hcr t rfl rfl
      have hfirst : List.isPrefixOf ['\r', '\n'] ('\r' :: d :: t) = false := by
        simpa [List.isPrefixOf] using hd.symm
      rw [lineBreaks, List.find?_cons_of_neg (by simp [hfirst])]
      rfl
  · rfl
  · rfl

theorem find?_lineBreaks_eq_none (hc : isLineBreak c = false) :
    lineBreaks.find? (·.isPrefixOf (c :: t)) = none := by
  have hnone := Cut.isSome_breakAfter? ⟨[], c :: t⟩
  rwa [Cut.breakAfter?, List.head?_cons, Option.any_some, hc, Option.isSome_eq_false_iff,
    Option.isNone_iff_eq_none] at hnone

theorem byteSize_pos_of_mem_lineBreaks (h : line ∈ lineBreaks) : 0 < line.byteSize := by
  revert line
  decide

end Text

namespace Source

variable {s : Source} {front rest : Text} {c : Char} {size index : Nat}

theorem breakAt?_of_text_eq (h : s.text = front ++ rest) :
    s.breakAt? front.byteSize = (Text.lineBreaks.find? (·.isPrefixOf rest)).map Text.byteSize := by
  rw [breakAt?, cut?_of_text_eq h]
  rfl

theorem breakAt?_pos (h : s.breakAt? index = some size) : 0 < size := by
  obtain ⟨line, hline, rfl⟩ := Option.map_eq_some_iff.mp h
  obtain ⟨cut, -, hbreak⟩ := Option.bind_eq_some_iff.mp hline
  exact Text.byteSize_pos_of_mem_lineBreaks (List.mem_of_find?_eq_some hbreak)

theorem lt_byteSize_of_after? (h : s.text.after? index = some (c :: rest)) :
    index < s.text.byteSize := by
  obtain ⟨front, htext, rfl⟩ := Text.after?_eq_some_iff.mp h
  have hc := c.utf8Size_pos
  rw [htext, Text.byteSize_append, Text.byteSize_cons]
  omega

/-- The lines of a source from byte `start` on, of which the first one does not end before byte
`index`. There is an answer only if all parts that are looked at are cut out between characters. -/
def linesFrom? (s : Source) (start index : Nat) : Option (List Text) :=
  match _ : s.text.after? index with
  | none => none
  | some [] => return [← s.text.after? start]
  | some (c :: _) =>
    match _ : s.breakAt? index with
    | some size =>
      return (← s.text.between? start index) :: (← s.linesFrom? (index + size) (index + size))
    | none => s.linesFrom? start (index + c.utf8Size)
termination_by s.text.byteSize - index
decreasing_by
  · have hlt := lt_byteSize_of_after? ‹_›
    have hpos := breakAt?_pos ‹_›
    omega
  · have hlt := lt_byteSize_of_after? ‹_›
    have hpos := c.utf8Size_pos
    omega

theorem linesFrom?_of_nil {start : Nat} (hafter : s.text.after? index = some []) :
    s.linesFrom? start index = (do return [← s.text.after? start]) := by
  rw [linesFrom?]
  grind

theorem linesFrom?_of_break {start size : Nat} (hafter : s.text.after? index = some (c :: rest))
    (hbreak : s.breakAt? index = some size) :
    s.linesFrom? start index =
      (do return (← s.text.between? start index) :: (← s.linesFrom? (index + size) (index + size))) := by
  rw [linesFrom?]
  grind

theorem linesFrom?_of_char {start : Nat} (hafter : s.text.after? index = some (c :: rest))
    (hbreak : s.breakAt? index = none) :
    s.linesFrom? start index = s.linesFrom? start (index + c.utf8Size) := by
  rw [linesFrom?]
  grind

theorem linesFrom?_eq_cons {done : Text} (sep : Text) {lines : List Text}
    (h : s.text = front ++ done.reverse ++ (sep ++ rest)) (hne : sep ++ rest ≠ [])
    (hsep : Text.lineBreaks.find? (·.isPrefixOf (sep ++ rest)) = some sep)
    (hrest : s.linesFrom? (front ++ done.reverse ++ sep).byteSize
      (front ++ done.reverse ++ sep).byteSize = some lines) :
    s.linesFrom? front.byteSize (front ++ done.reverse).byteSize = some (done.reverse :: lines) := by
  obtain ⟨c, t, hcons⟩ := List.exists_cons_of_ne_nil hne
  have hafter : s.text.after? (front ++ done.reverse).byteSize = some (c :: t) :=
    Text.after?_eq_some_iff.mpr ⟨_, hcons ▸ h, rfl⟩
  have hbreak : s.breakAt? (front ++ done.reverse).byteSize = some sep.byteSize := by
    rw [breakAt?_of_text_eq h, hsep, Option.map_some]
  have hline :
      s.text.between? front.byteSize (front ++ done.reverse).byteSize = some done.reverse :=
    Text.between?_eq_some_iff.mpr ⟨front, _, h, rfl, Text.byteSize_append _ _⟩
  rw [Text.byteSize_append _ sep] at hrest
  rw [linesFrom?_of_break hafter hbreak, hline, hrest]
  rfl

/-- A scan by byte offsets finds the lines of a text. -/
theorem linesFrom?_eq (front : Text) {done : Text} (h : s.text = front ++ done.reverse ++ rest) :
    s.linesFrom? front.byteSize (front ++ done.reverse).byteSize = some (Text.linesFrom done rest) := by
  fun_induction Text.linesFrom done rest generalizing front with
  | case1 done =>
    have hafter : s.text.after? (front ++ done.reverse).byteSize = some [] :=
      Text.after?_eq_some_iff.mpr ⟨_, h, rfl⟩
    have hline : s.text.after? front.byteSize = some done.reverse :=
      Text.after?_eq_some_iff.mpr ⟨front, by rw [h, List.append_nil], rfl⟩
    rw [linesFrom?_of_nil hafter, hline]
    rfl
  | case2 done t ih =>
    have hrest := ih (front ++ done.reverse ++ ['\r', '\n']) (by simp [h])
    exact linesFrom?_eq_cons ['\r', '\n'] h (by simp) rfl (by simpa using hrest)
  | case3 done c t hcr hbreak ih =>
    have hrest := ih (front ++ done.reverse ++ [c]) (by simp [h])
    exact linesFrom?_eq_cons [c] h (by simp) (Text.find?_lineBreaks_cons hcr hbreak)
      (by simpa using hrest)
  | case4 done c t hcr hbreak ih =>
    have hafter : s.text.after? (front ++ done.reverse).byteSize = some (c :: t) :=
      Text.after?_eq_some_iff.mpr ⟨_, h, rfl⟩
    have hnone : s.breakAt? (front ++ done.reverse).byteSize = none := by
      rw [breakAt?_of_text_eq h, Text.find?_lineBreaks_eq_none (Bool.eq_false_iff.mpr hbreak),
        Option.map_none]
    have hrest := ih front (by simp [h])
    rw [linesFrom?_of_char hafter hnone, ← hrest]
    simp [Nat.add_assoc]

theorem linesFrom?_ofText (t : Text) : (ofText t).linesFrom? 0 0 = some t.lines := by
  have h : (ofText t).text = ([] : Text) ++ ([] : Text).reverse ++ t := rfl
  exact linesFrom?_eq [] h

example : (ofText ['é']).linesFrom? 0 1 = none := by
  decide +kernel

end Source

end SourceLayout
