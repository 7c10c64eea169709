import SourceLayout.Proofs.Doc.Rendering
import SourceLayout.Proofs.Text.Lines

/-! # Texts as written

A text as written is its lines with literal lines in between. Lines without characters are left out,
so the literal lines alone say how many line breaks there were, and where. With the line breaks put
back in their places, the text can be read off the document again.
-/

namespace SourceLayout

namespace Form

def ofLine (line : Text) : List Form := if line.isEmpty then [] else [.text line]

/-- The text that a sequence shows if its literal lines stand for the given line breaks in turn. -/
def restore : List Text → List Form → Text
  | _, [] => []
  | breaks, .text content :: forms => content ++ restore breaks forms
  | sep :: breaks, .line .literal :: forms => sep ++ restore breaks forms
  | breaks, _ :: forms => restore breaks forms

theorem restore_ofLine_append (breaks : List Text) (line : Text) (forms : List Form) :
    restore breaks (ofLine line ++ forms) = line ++ restore breaks forms := by
  cases line with
  | nil => rfl
  | cons c line => simp [ofLine, restore]

theorem mem_of_mem_intercalate {content : Text} {lines : List Text}
    (h : .text content ∈ [line .literal].intercalate (lines.map ofLine)) : content ∈ lines := by
  rcases Text.mem_of_mem_intercalate h with h | ⟨forms, hforms, h⟩
  · cases List.mem_singleton.mp h
  · obtain ⟨line, hline, rfl⟩ := List.mem_map.mp hforms
    unfold ofLine at h
    split at h
    · cases h
    · rwa [Form.text.inj (List.mem_singleton.mp h)]

/-- Lines that are parted by literal lines are put together again by the breaks between them. -/
theorem restore_intercalate (done t : Text) :
    restore t.breaks ([.line .literal].intercalate ((Text.linesFrom done t).map ofLine)) =
      done.reverse ++ t := by
  have hcons : ∀ (line sep t : Text) (breaks : List Text),
      restore breaks ([.line .literal].intercalate ((Text.linesFrom [] t).map ofLine)) = t →
      restore (sep :: breaks) ([.line .literal].intercalate
        ((line :: Text.linesFrom [] t).map ofLine)) = line ++ (sep ++ t) := by
    intro line sep t breaks hrest
    obtain ⟨next, others, hlines⟩ := Text.exists_linesFrom_eq [] t
    rw [hlines] at hrest ⊢
    rw [List.map_cons, List.map_cons, List.intercalate_cons_cons, List.append_assoc,
      restore_ofLine_append, ← List.map_cons, List.singleton_append, restore, hrest]
  fun_induction Text.linesFrom done t with
  | case1 done =>
    have hline := restore_ofLine_append [] done.reverse []
    rw [List.append_nil] at hline
    rw [List.map_singleton, List.intercalate_singleton, Text.breaks, hline]
    rfl
  | case2 done t ih => exact hcons done.reverse ['\r', '\n'] t _ ih
  | case3 done c t hcr hbreak ih =>
    rw [Text.breaks_cons_of_isLineBreak hcr hbreak]
    exact hcons done.reverse [c] t _ ih
  | case4 done c t hcr hbreak ih =>
    rw [Text.breaks_cons (Bool.eq_false_iff.mpr hbreak), ih, List.reverse_cons, List.append_assoc,
      List.singleton_append]

end Form

namespace Build

variable {breaks : Label → Bool}

theorem shows_line (kind : LineKind) : Shows breaks (line kind) [.line kind] :=
  fun _ hs => ⟨hs, rfl⟩

theorem shows_text [TextWidth] (origin : Origin) (content : Text) :
    Shows breaks (text origin content) (Form.ofLine content) := by
  unfold text Form.ofLine
  split
  · exact shows_nil
  · have hleaf : Shows breaks (return .text (← freshLabel) origin content) [.text content] :=
      fun _ hs => ⟨hs, rfl⟩
    refine hleaf.bind (f := fun leaf => if content.isAscii then pure leaf
      else return .measured (← freshLabel) (TextWidth.width content) leaf) fun leaf hcontent => ?_
    split
    · rw [← hcontent]
      exact shows_pure leaf
    · intro s hs
      have hmembers : leaf.members breaks = [.text content] := by
        unfold Doc.content at hcontent
        split at hcontent
        · cases hcontent
        · exact hcontent
      refine ⟨hs, ?_⟩
      change [Form.whole (leaf.members breaks)] = _
      rw [hmembers, Form.whole]

theorem shows_mapM {γ : Type} {f : γ → DocM Doc} {parts : γ → List Form} {s : Store}
    (as : List γ) (hf : ∀ a, Shows breaks (f a) (parts a)) (hs : s.isBroken = breaks) :
    ((as.mapM f).run s).2.isBroken = breaks ∧
      ((as.mapM f).run s).1.map (Doc.content breaks) = as.map parts := by
  induction as generalizing s with
  | nil => exact ⟨hs, rfl⟩
  | cons a as ih =>
    rw [List.mapM_cons]
    obtain ⟨hs', hdoc⟩ := hf a s hs
    obtain ⟨hs'', hdocs⟩ := ih hs'
    refine ⟨hs'', ?_⟩
    rw [List.map_cons, ← hdocs, ← hdoc]
    rfl

theorem flatMap_intersperse (docs : List Doc) (separator : Doc) :
    (docs.intersperse separator).flatMap (Doc.content breaks) =
      (separator.content breaks).intercalate (docs.map (Doc.content breaks)) := by
  induction docs with
  | nil => rfl
  | cons doc docs ih =>
    cases docs with
    | nil => simp
    | cons next docs =>
      simp only [List.map_cons, List.intersperse_cons_cons, List.flatMap_cons,
        List.intercalate_cons_cons, List.append_assoc] at ih ⊢
      rw [ih]

/-- A text as written shows its lines, with a literal line for each break. -/
theorem shows_verbatim [TextWidth] (content : Text) :
    Shows breaks (verbatim content)
      ([.line .literal].intercalate (content.lines.map Form.ofLine)) := by
  refine (shows_line .literal).bind fun separator hseparator s hs => ?_
  obtain ⟨hs', hdocs⟩ := shows_mapM content.lines (shows_text .owned) hs
  have hjoined := shows_intersperse ((content.lines.mapM (text .owned)).run s).1 separator _ hs'
  rwa [flatMap_intersperse, hdocs, hseparator] at hjoined

/-- A text as written is flattened to the lines of the text, without the empty ones, and one literal
line for each line break in between. The lines are found by byte offsets without cutting through a
character. No text of the document holds a character that ends a line, and with the line breaks in
place of the literal lines the text is back. -/
theorem verbatim_restores [TextWidth] (t : Text) (s : Store) :
    let parts := ((verbatim t).run s).1.content s.isBroken
    parts = [.line .literal].intercalate (t.lines.map Form.ofLine) ∧
      t.lines.length = t.breaks.length + 1 ∧
      (Source.ofText t).linesFrom? 0 0 = some t.lines ∧
      (∀ content, .text content ∈ parts → ∀ c ∈ content, Text.isLineBreak c = false) ∧
      Form.restore t.breaks parts = t := by
  have hparts := (shows_verbatim t s rfl).2
  refine ⟨hparts, Text.length_linesFrom [] t, Source.linesFrom?_ofText t, ?_, ?_⟩
  · intro content hcontent c hc
    rw [hparts] at hcontent
    exact Text.not_isLineBreak_of_mem_lines (Form.mem_of_mem_intercalate hcontent) hc
  · rw [hparts]
    exact Form.restore_intercalate [] t

end Build

end SourceLayout
