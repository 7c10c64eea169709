import Mathlib.Data.List.Basic
import Mathlib.Data.List.Induction
import SourceLayout.Proofs.Text.Lines

/-! # Blanks and line breaks from both sides

Two places of a text with only blanks and line breaks between them may be told apart by how many
line breaks those are. Scanning ahead splits them off from the left and scanning back from the
right, and a carriage return and a line feed that stand together count once either way. So both
find the same. A scan takes each step inside the text, and from where there is no step to take it
goes nowhere.
-/

namespace SourceLayout

namespace Text

variable {t left right gap rest sep blanks : Text} {c : Char} {i j : Nat}

def isSpacing (c : Char) : Bool := isBlank c || isLineBreak c

theorem isLineBreak_of_isBlank (hc : isBlank c = true) : isLineBreak c = false := by
  simp only [isBlank, Bool.or_eq_true, beq_iff_eq] at hc
  rcases hc with rfl | rfl <;> rfl

/-- Side by side two texts have the line breaks of both, unless a carriage return of the one meets a
line feed of the other. -/
theorem breaks_append (h : left.getLast? = some '\r' → right.head? ≠ some '\n') :
    breaks (left ++ right) = breaks left ++ breaks right := by
  fun_induction breaks left with
  | case1 => rfl
  | case2 t ih =>
    have hrest : t.getLast? = some '\r' → right.head? ≠ some '\n' := by
      intro hlast
      apply h
      rw [List.getLast?_cons_cons, List.getLast?_cons, hlast]
      rfl
    rw [List.cons_append, List.cons_append, breaks, ih hrest, List.cons_append]
  | case3 c t hcr hbreak ih | case4 c t hcr hbreak ih =>
    have hrest : t.getLast? = some '\r' → right.head? ≠ some '\n' := by
      intro hlast
      apply h
      rw [List.getLast?_cons, hlast]
      rfl
    have hcr' : ∀ t', c = '\r' → t ++ right = '\n' :: t' → False := by
      rintro t' rfl ht
      cases t with
      | nil => exact h rfl (by rw [← List.nil_append right, ht]; rfl)
      | cons d t =>
        obtain ⟨rfl, -⟩ := List.cons.inj ht
        exact hcr t rfl rfl
    rw [List.cons_append, breaks.eq_3 _ _ hcr', ih hrest]
    simp [hbreak]

theorem breaks_eq_nil_iff : breaks t = [] ↔ ∀ c ∈ t, isLineBreak c = false := by
  fun_induction breaks t with
  | case1 => simp
  | case2 t ih => simp [isLineBreak]
  | case3 c t hcr hbreak ih => simp [hbreak]
  | case4 c t hcr hbreak ih => simpa [hbreak] using ih

theorem one_le_length_breaks (t : Text) : decide (1 ≤ t.breaks.length) = t.any isLineBreak := by
  rw [Bool.eq_iff_iff, decide_eq_true_iff, Nat.one_le_iff_ne_zero, Ne, List.length_eq_zero_iff,
    breaks_eq_nil_iff]
  simp

theorem breaks_eq_singleton (hsep : sep ∈ lineBreaks) : breaks sep = [sep] := by
  simp only [lineBreaks, List.mem_cons, List.not_mem_nil, or_false] at hsep
  rcases hsep with rfl | rfl | rfl | rfl | rfl <;> rfl

theorem isBlank_eq_false_of_mem (hsep : sep ∈ lineBreaks) (hc : c ∈ sep) : isBlank c = false := by
  have hall : lineBreaks.all (List.all · (!isBlank ·)) = true := by decide
  simpa using List.all_eq_true.mp (List.all_eq_true.mp hall sep hsep) c hc

theorem ne_nil_of_mem_lineBreaks (hsep : sep ∈ lineBreaks) : sep ≠ [] := by
  rintro rfl
  exact Nat.lt_irrefl 0 (byteSize_pos_of_mem_lineBreaks hsep)

theorem breaks_append_break (hsep : sep ∈ lineBreaks)
    (hleft : sep = ['\n'] → left.getLast? ≠ some '\r')
    (hright : sep = ['\r'] → right.head? ≠ some '\n') :
    breaks (left ++ sep ++ right) = breaks left ++ sep :: breaks right := by
  have hends : ∀ sep ∈ lineBreaks, (sep.head? = some '\n' → sep = ['\n']) ∧
      (sep.getLast? = some '\r' → sep = ['\r']) := by decide
  obtain ⟨hhead, hlast⟩ := hends sep hsep
  rw [breaks_append, breaks_append, breaks_eq_singleton hsep, List.append_assoc,
    List.singleton_append]
  · exact fun hreturn hfeed => hleft (hhead hfeed) hreturn
  · intro hreturn
    rw [List.getLast?_append_of_ne_nil _ (ne_nil_of_mem_lineBreaks hsep)] at hreturn
    exact hright (hlast hreturn)

theorem find?_lineBreaks_append (hsep : sep ∈ lineBreaks)
    (hrest : sep = ['\r'] → rest.head? ≠ some '\n') :
    lineBreaks.find? (·.isPrefixOf (sep ++ rest)) = some sep := by
  simp only [lineBreaks, List.mem_cons, List.not_mem_nil, or_false] at hsep
  rcases hsep with rfl | rfl | rfl | rfl | rfl
  · rfl
  · rfl
  · refine find?_lineBreaks_cons ?_ rfl
    rintro t' - rfl
    exact hrest rfl rfl
  · rfl
  · rfl

theorem find?_reverse_lineBreaks_append (hsep : sep ∈ lineBreaks)
    (hleft : sep = ['\n'] → left.getLast? ≠ some '\r') :
    lineBreaks.find? (·.reverse.isPrefixOf (left ++ sep).reverse) = some sep := by
  rw [List.reverse_append]
  simp only [lineBreaks, List.mem_cons, List.not_mem_nil, or_false] at hsep
  rcases hsep with rfl | rfl | rfl | rfl | rfl
  · rfl
  · have hhead : left.reverse.head? ≠ some '\r' := by
      rw [List.head?_reverse]
      exact hleft rfl
    rw [List.reverse_singleton, List.singleton_append, lineBreaks, List.find?_cons_of_neg]
    · rfl
    · cases hreverse : left.reverse with
      | nil => exact Bool.false_ne_true
      | cons d u =>
        rw [hreverse, List.head?_cons, Ne, Option.some_inj] at hhead
        simpa [List.isPrefixOf] using fun heq => hhead heq.symm
  · rfl
  · rfl
  · rfl

theorem exists_first_break (h : t.any isLineBreak = true) : ∃ blanks sep rest,
    t = blanks ++ sep ++ rest ∧ (∀ c ∈ blanks, isLineBreak c = false) ∧ sep ∈ lineBreaks ∧
      (sep = ['\r'] → rest.head? ≠ some '\n') := by
  fun_induction breaks t with
  | case1 => cases h
  | case2 t ih => exact ⟨[], ['\r', '\n'], t, rfl, nofun, by decide, nofun⟩
  | case3 c t hcr hbreak ih =>
    refine ⟨[], [c], t, rfl, nofun, ?_, ?_⟩
    · simp only [isLineBreak, Bool.or_eq_true, beq_iff_eq] at hbreak
      obtain ((rfl | rfl) | rfl) | rfl := hbreak <;> decide
    · rintro ⟨⟩ hhead
      obtain ⟨t', rfl⟩ := List.head?_eq_some_iff.mp hhead
      exact hcr t' rfl rfl
  | case4 c t hcr hbreak ih =>
    rw [Bool.not_eq_true] at hbreak
    rw [List.any_cons, hbreak, Bool.false_or] at h
    obtain ⟨blanks, sep, rest, rfl, hblanks, hsep, hrest⟩ := ih h
    exact ⟨c :: blanks, sep, rest, rfl, List.forall_mem_cons.mpr ⟨hbreak, hblanks⟩, hsep, hrest⟩

theorem exists_last_break (h : t.any isLineBreak = true) : ∃ left sep blanks,
    t = left ++ sep ++ blanks ∧ (∀ c ∈ blanks, isLineBreak c = false) ∧ sep ∈ lineBreaks ∧
      (sep = ['\n'] → left.getLast? ≠ some '\r') := by
  induction t using List.reverseRecOn with
  | nil => cases h
  | append_singleton t c ih =>
    cases hc : isLineBreak c with
    | false =>
      rw [List.any_append, List.any_cons, List.any_nil, hc, Bool.or_false, Bool.or_false] at h
      obtain ⟨left, sep, blanks, rfl, hblanks, hsep, hleft⟩ := ih h
      refine ⟨left, sep, blanks ++ [c], by simp, ?_, hsep, hleft⟩
      exact List.forall_mem_append.mpr ⟨hblanks, by simpa using hc⟩
    | true =>
      by_cases hcrlf : c = '\n' ∧ t.getLast? = some '\r'
      · obtain ⟨rfl, hlast⟩ := hcrlf
        obtain ⟨left, rfl⟩ := List.getLast?_eq_some_iff.mp hlast
        exact ⟨left, ['\r', '\n'], [], by simp, nofun, by decide, nofun⟩
      · refine ⟨t, [c], [], by simp, nofun, ?_, ?_⟩
        · simp only [isLineBreak, Bool.or_eq_true, beq_iff_eq] at hc
          obtain ((rfl | rfl) | rfl) | rfl := hc <;> decide
        · rintro ⟨⟩ hlast
          exact hcrlf ⟨rfl, hlast⟩

/-- From byte `i` to byte `j` a text has blanks and line breaks only, and there are none right
before or right behind. -/
structure Spaced (t : Text) (i j : Nat) (gap : Text) : Prop where
  between : t.between? i j = some gap
  spacing : ∀ c ∈ gap, isSpacing c = true
  before : ∀ front c, t.before? i = some front → front.getLast? = some c → isSpacing c = false
  after : ∀ rest c, t.after? j = some rest → rest.head? = some c → isSpacing c = false

/-- What the first character is that is no blank, where the spacing goes as far as `gap`. -/
theorem any_find?_append (hgap : ∀ c ∈ gap, isSpacing c = true)
    (hrest : ∀ c ∈ rest.head?, isSpacing c = false) :
    ((gap ++ rest).find? (!isBlank ·)).any isLineBreak = gap.any isLineBreak := by
  induction gap with
  | nil =>
    cases rest with
    | nil => rfl
    | cons c rest =>
      have hc := hrest c rfl
      rw [isSpacing, Bool.or_eq_false_iff] at hc
      rw [List.nil_append, List.find?_cons_of_pos (by simp [hc.1]), Option.any_some, hc.2]
      rfl
  | cons c gap ih =>
    rw [List.forall_mem_cons, isSpacing] at hgap
    cases hblank : isBlank c with
    | true =>
      rw [List.cons_append, List.find?_cons_of_neg (by simp [hblank]), ih hgap.2, List.any_cons,
        isLineBreak_of_isBlank hblank, Bool.false_or]
    | false =>
      rw [hblank, Bool.false_or] at hgap
      rw [List.cons_append, List.find?_cons_of_pos (by simp [hblank]), Option.any_some, List.any_cons,
        hgap.1, Bool.true_or]

theorem isBlank_of_isSpacing (hc : isSpacing c = true) (hbreak : isLineBreak c = false) :
    isBlank c = true := by
  rwa [isSpacing, hbreak, Bool.or_false] at hc

theorem isSpacing_eq_false (hc : isSpacing c = false) : isBlank c = false ∧ isLineBreak c = false :=
  Bool.or_eq_false_iff.mp hc

theorem takeWhile_isBlank_append (hblanks : ∀ c ∈ blanks, isBlank c = true)
    (hrest : ∀ c ∈ rest.head?, isBlank c = false) : (blanks ++ rest).takeWhile isBlank = blanks := by
  rw [List.takeWhile_append_of_pos hblanks]
  cases rest with
  | nil => rw [List.takeWhile_nil, List.append_nil]
  | cons c rest => rw [List.takeWhile_cons_of_neg (by simp [hrest c rfl]), List.append_nil]

theorem dropWhile_isBlank_append (hblanks : ∀ c ∈ blanks, isBlank c = true)
    (hrest : ∀ c ∈ rest.head?, isBlank c = false) : (blanks ++ rest).dropWhile isBlank = rest := by
  rw [List.dropWhile_append_of_pos hblanks]
  cases rest with
  | nil => rfl
  | cons c rest => rw [List.dropWhile_cons_of_neg (by simp [hrest c rfl])]

end Text

namespace Source

open Text (isBlank isLineBreak isSpacing lineBreaks)

variable {s : Source} {front gap rest sep blanks : Text} {i : Nat}

theorem breakUpTo?_of_text_eq (h : s.text = front ++ rest) :
    s.breakUpTo? front.byteSize =
      (lineBreaks.find? (·.reverse.isPrefixOf front.reverse)).map Text.byteSize := by
  rw [breakUpTo?, cut?_of_text_eq h]
  rfl

section Spacing

variable (hgap : ∀ c ∈ gap, isSpacing c = true)
include hgap

theorem endsLine_eq_any (h : s.text = front ++ (gap ++ rest))
    (hrest : ∀ c ∈ rest.head?, isSpacing c = false) :
    s.endsLine front.byteSize = gap.any isLineBreak := by
  rw [endsLine_eq h, Text.any_find?_append hgap hrest]

theorem startsLine_eq_any (h : s.text = front ++ gap ++ rest)
    (hfront : ∀ c ∈ front.getLast?, isSpacing c = false) :
    s.startsLine (front ++ gap).byteSize = gap.any isLineBreak := by
  rw [startsLine_eq h, List.reverse_append, Text.any_find?_append, List.any_reverse]
  · simpa using hgap
  · rwa [List.head?_reverse]

theorem blankLineAfter_of_blank (h : s.text = front ++ (gap ++ rest))
    (hrest : ∀ c ∈ rest.head?, isSpacing c = false) (hnone : ∀ c ∈ gap, isLineBreak c = false) :
    s.blankLineAfter front.byteSize = false := by
  have hblank : ∀ c ∈ gap, isBlank c = true := fun c hc =>
    Text.isBlank_of_isSpacing (hgap c hc) (hnone c hc)
  have hends : s.endsLine front.byteSize = false := by
    rw [endsLine_eq_any hgap h hrest]
    simpa using hnone
  have hend : s.blanksEnd front.byteSize = (front ++ gap).byteSize := by
    rw [blanksEnd_eq h, Text.takeWhile_isBlank_append hblank]
    exact fun c hc => (Text.isSpacing_eq_false (hrest c hc)).1
  have hnothing : ∀ c ∈ ([] : Text), isSpacing c = true := nofun
  have hagain : s.endsLine (front ++ gap).byteSize = false :=
    endsLine_eq_any hnothing (by simpa using h) hrest
  rw [endsLine, Option.isSome_eq_false_iff, Option.isNone_iff_eq_none] at hends
  rw [blankLineAfter]
  rw [hends, hend]
  exact hagain

theorem blankLineBefore_of_blank (h : s.text = front ++ gap ++ rest)
    (hfront : ∀ c ∈ front.getLast?, isSpacing c = false) (hnone : ∀ c ∈ gap, isLineBreak c = false) :
    s.blankLineBefore (front ++ gap).byteSize = false := by
  have hblank : ∀ c ∈ gap, isBlank c = true := fun c hc =>
    Text.isBlank_of_isSpacing (hgap c hc) (hnone c hc)
  have hstarts : s.startsLine (front ++ gap).byteSize = false := by
    rw [startsLine_eq_any hgap h hfront]
    simpa using hnone
  have hstart : s.blanksStart (front ++ gap).byteSize = front.byteSize := by
    rw [blanksStart_eq h, List.reverse_append, Text.dropWhile_isBlank_append, List.reverse_reverse]
    · simpa using hblank
    · rw [List.head?_reverse]
      exact fun c hc => (Text.isSpacing_eq_false (hfront c hc)).1
  have hagain : s.startsLine (front ++ []).byteSize = false :=
    startsLine_eq_any nofun (by simpa using h) hfront
  rw [List.append_nil] at hagain
  rw [startsLine, Option.isSome_eq_false_iff, Option.isNone_iff_eq_none] at hstarts
  rw [blankLineBefore]
  rw [hstarts, hstart]
  exact hagain

end Spacing

/-- Scanning ahead goes over the first line break and asks for another one. -/
theorem blankLineAfter_of_break (h : s.text = front ++ (blanks ++ sep ++ rest))
    (hblanks : ∀ c ∈ blanks, isBlank c = true) (hsep : sep ∈ lineBreaks)
    (hrest : sep = ['\r'] → rest.head? ≠ some '\n') :
    s.blankLineAfter front.byteSize = s.endsLine (front ++ blanks ++ sep).byteSize := by
  have hend : s.blanksEnd front.byteSize = (front ++ blanks).byteSize := by
    rw [blanksEnd_eq h, List.append_assoc, Text.takeWhile_isBlank_append hblanks]
    intro c hc
    rw [List.head?_append_of_ne_nil _ (Text.ne_nil_of_mem_lineBreaks hsep)] at hc
    exact Text.isBlank_eq_false_of_mem hsep (List.mem_of_head? hc)
  have hbreak : s.breakAt? (front ++ blanks).byteSize = some sep.byteSize := by
    have htext : s.text = front ++ blanks ++ (sep ++ rest) := by simp [h]
    rw [breakAt?_of_text_eq htext, Text.find?_lineBreaks_append hsep hrest, Option.map_some]
  rw [blankLineAfter]
  rw [hend, hbreak, Option.getD_some, Text.byteSize_append _ sep]

theorem blankLineBefore_of_break (h : s.text = front ++ sep ++ blanks ++ rest)
    (hblanks : ∀ c ∈ blanks, isBlank c = true) (hsep : sep ∈ lineBreaks)
    (hfront : sep = ['\n'] → front.getLast? ≠ some '\r') :
    s.blankLineBefore (front ++ sep ++ blanks).byteSize = s.startsLine front.byteSize := by
  have hstart : s.blanksStart (front ++ sep ++ blanks).byteSize = (front ++ sep).byteSize := by
    rw [blanksStart_eq h, List.reverse_append, Text.dropWhile_isBlank_append, List.reverse_reverse]
    · simpa using hblanks
    · rw [List.head?_reverse]
      intro c hc
      rw [List.getLast?_append_of_ne_nil _ (Text.ne_nil_of_mem_lineBreaks hsep)] at hc
      exact Text.isBlank_eq_false_of_mem hsep (List.mem_of_getLast? hc)
  have hbreak : s.breakUpTo? (front ++ sep).byteSize = some sep.byteSize := by
    have htext : s.text = front ++ sep ++ (blanks ++ rest) := by simp [h]
    rw [breakUpTo?_of_text_eq htext, Text.find?_reverse_lineBreaks_append hsep hfront, Option.map_some]
  rw [blankLineBefore]
  rw [hstart, hbreak, Option.getD_some, Text.byteSize_append _ sep, Nat.add_sub_cancel]

section Counts

variable (hgap : ∀ c ∈ gap, isSpacing c = true)
include hgap

theorem blankLineAfter_eq (h : s.text = front ++ (gap ++ rest))
    (hrest : ∀ c ∈ rest.head?, isSpacing c = false) :
    s.blankLineAfter front.byteSize = decide (2 ≤ gap.breaks.length) := by
  cases hany : gap.any isLineBreak with
  | false =>
    have hnone : ∀ c ∈ gap, isLineBreak c = false := by simpa using hany
    rw [blankLineAfter_of_blank hgap h hrest hnone, Text.breaks_eq_nil_iff.mpr hnone]
    rfl
  | true =>
    obtain ⟨blanks, sep, inner, rfl, hblanks, hsep, hinner⟩ := Text.exists_first_break hany
    have hbreaks : Text.breaks (blanks ++ sep ++ inner) = sep :: inner.breaks := by
      rw [Text.breaks_append_break hsep _ hinner, Text.breaks_eq_nil_iff.mpr hblanks, List.nil_append]
      intro _ hlast
      cases hblanks '\r' (List.mem_of_getLast? hlast)
    have hspacing : ∀ c ∈ inner, isSpacing c = true := fun c hc => hgap c (by simp [hc])
    have hblanks : ∀ c ∈ blanks, isBlank c = true := fun c hc =>
      Text.isBlank_of_isSpacing (hgap c (by simp [hc])) (hblanks c hc)
    have htext : s.text = front ++ (blanks ++ sep ++ (inner ++ rest)) := by simp [h]
    have htext' : s.text = front ++ blanks ++ sep ++ (inner ++ rest) := by simp [h]
    have hnext : sep = ['\r'] → (inner ++ rest).head? ≠ some '\n' := by
      intro hreturn hfeed
      cases inner with
      | nil => cases hrest '\n' hfeed
      | cons c inner => exact hinner hreturn hfeed
    rw [hbreaks, List.length_cons, blankLineAfter_of_break htext hblanks hsep hnext,
      endsLine_eq_any hspacing htext' hrest, ← Text.one_le_length_breaks]
    exact decide_eq_decide.mpr Nat.succ_le_succ_iff.symm

theorem blankLineBefore_eq (h : s.text = front ++ gap ++ rest)
    (hfront : ∀ c ∈ front.getLast?, isSpacing c = false) :
    s.blankLineBefore (front ++ gap).byteSize = decide (2 ≤ gap.breaks.length) := by
  cases hany : gap.any isLineBreak with
  | false =>
    have hnone : ∀ c ∈ gap, isLineBreak c = false := by simpa using hany
    rw [blankLineBefore_of_blank hgap h hfront hnone, Text.breaks_eq_nil_iff.mpr hnone]
    rfl
  | true =>
    obtain ⟨inner, sep, blanks, rfl, hblanks, hsep, hinner⟩ := Text.exists_last_break hany
    have hbreaks : Text.breaks (inner ++ sep ++ blanks) = inner.breaks ++ [sep] := by
      rw [Text.breaks_append_break hsep hinner, Text.breaks_eq_nil_iff.mpr hblanks]
      intro _ hhead
      cases hblanks '\n' (List.mem_of_head? hhead)
    have hspacing : ∀ c ∈ inner, isSpacing c = true := fun c hc => hgap c (by simp [hc])
    have hblanks : ∀ c ∈ blanks, isBlank c = true := fun c hc =>
      Text.isBlank_of_isSpacing (hgap c (by simp [hc])) (hblanks c hc)
    have htext : s.text = front ++ inner ++ (sep ++ blanks ++ rest) := by simp [h]
    have hsplit : front ++ (inner ++ sep ++ blanks) = front ++ inner ++ sep ++ blanks := by simp
    rw [hsplit] at h ⊢
    have hnext : sep = ['\n'] → (front ++ inner).getLast? ≠ some '\r' := by
      intro hfeed hreturn
      rcases List.eq_nil_or_concat' inner with rfl | ⟨inner, c, rfl⟩
      · rw [List.append_nil] at hreturn
        cases hfront '\r' hreturn
      · rw [List.getLast?_append_of_ne_nil _ (by simp)] at hreturn
        exact hinner hfeed hreturn
    rw [hbreaks, List.length_append, List.length_singleton,
      blankLineBefore_of_break h hblanks hsep hnext,
      startsLine_eq_any hspacing htext hfront, ← Text.one_le_length_breaks]
    exact decide_eq_decide.mpr Nat.succ_le_succ_iff.symm

end Counts

/-- What the steps of a scan come to from an offset. No step back is longer than the way to the
start. From between two characters each step leads between two characters, and from anywhere else
there is no step and nothing is found. -/
structure StaysInside (s : Source) (i : Nat) : Prop where
  blanks : ((s.cut? i).map Cut.blanksBefore).getD 0 ≤ i
  lineBreak : (s.breakUpTo? i).getD 0 ≤ i
  inside : (s.cut? i).isSome = true →
    ∀ j ∈ [s.blanksEnd i, s.blanksStart i, i + (s.breakAt? i).getD 0, i - (s.breakUpTo? i).getD 0],
      (s.cut? j).isSome = true
  outside : s.cut? i = none → (s.blanksEnd i = i ∧ s.blanksStart i = i ∧ s.breakAt? i = none ∧
    s.breakUpTo? i = none) ∧ s.endsLine i = false ∧ s.startsLine i = false ∧
    s.blankLineAfter i = false ∧ s.blankLineBefore i = false

theorem isSome_cut?_iff : (s.cut? i).isSome = true ↔
    ∃ front rest, s.text = front ++ rest ∧ i = front.byteSize := by
  rw [cut?_eq, Text.cutAt?, Option.isSome_map, Option.isSome_iff_exists, Prod.exists]
  simp only [Text.cut?_eq_some_iff]

section Steps

variable (h : s.text = front ++ rest)
include h

theorem isSome_cut?_blanksEnd : (s.cut? (s.blanksEnd front.byteSize)).isSome = true := by
  rw [blanksEnd_eq h, isSome_cut?_iff]
  refine ⟨_, rest.dropWhile isBlank, ?_, rfl⟩
  rw [List.append_assoc, List.takeWhile_append_dropWhile, h]

theorem isSome_cut?_blanksStart : (s.cut? (s.blanksStart front.byteSize)).isSome = true := by
  rw [blanksStart_eq h, isSome_cut?_iff]
  refine ⟨_, (front.reverse.takeWhile isBlank).reverse ++ rest, ?_, rfl⟩
  rw [← List.append_assoc, ← List.reverse_append, List.takeWhile_append_dropWhile,
    List.reverse_reverse, h]

theorem isSome_cut?_breakAt? :
    (s.cut? (front.byteSize + (s.breakAt? front.byteSize).getD 0)).isSome = true := by
  rw [isSome_cut?_iff, breakAt?_of_text_eq h]
  cases hsep : lineBreaks.find? (·.isPrefixOf rest) with
  | none => exact ⟨front, rest, h, rfl⟩
  | some sep =>
    have hprefix := List.find?_some hsep
    obtain ⟨rest', rfl⟩ := List.isPrefixOf_iff_prefix.mp hprefix
    exact ⟨front ++ sep, rest', by rw [h, List.append_assoc], (Text.byteSize_append _ _).symm⟩

theorem breakUpTo?_le :
    (s.breakUpTo? front.byteSize).getD 0 ≤ front.byteSize ∧
      (s.cut? (front.byteSize - (s.breakUpTo? front.byteSize).getD 0)).isSome = true := by
  rw [isSome_cut?_iff, breakUpTo?_of_text_eq h]
  cases hsep : lineBreaks.find? (·.reverse.isPrefixOf front.reverse) with
  | none => exact ⟨Nat.zero_le _, front, rest, h, rfl⟩
  | some sep =>
    obtain ⟨front', rfl⟩ : sep <:+ front := by simpa using List.find?_some hsep
    rw [Option.map_some, Option.getD_some, Text.byteSize_append, Nat.add_sub_cancel]
    exact ⟨Nat.le_add_left _ _, front', sep ++ rest, by rw [h, List.append_assoc], rfl⟩

theorem blanksBefore_le :
    ((s.cut? front.byteSize).map Cut.blanksBefore).getD 0 ≤ front.byteSize := by
  have hsize := congrArg Text.byteSize
    (List.takeWhile_append_dropWhile (p := isBlank) (l := front.reverse))
  rw [Text.byteSize_append, Text.byteSize_reverse] at hsize
  rw [cut?_of_text_eq h, Option.map_some, Option.getD_some, Cut.blanksBefore]
  dsimp only
  omega

end Steps

theorem staysInside (s : Source) (i : Nat) : s.StaysInside i := by
  cases hcut : s.cut? i with
  | none =>
    have hend : s.blanksEnd i = i := by rw [blanksEnd, hcut]; rfl
    have hstart : s.blanksStart i = i := by rw [blanksStart, hcut]; rfl
    have hat : s.breakAt? i = none := by rw [breakAt?, hcut]; rfl
    have hupTo : s.breakUpTo? i = none := by rw [breakUpTo?, hcut]; rfl
    have hends : s.endsLine i = false := by rw [endsLine, hend, hat]; rfl
    have hstarts : s.startsLine i = false := by rw [startsLine, hstart, hupTo]; rfl
    refine ⟨?_, ?_, ?_, fun _ => ⟨⟨hend, hstart, hat, hupTo⟩, hends, hstarts, ?_, ?_⟩⟩
    · rw [hcut]
      exact Nat.zero_le i
    · rw [hupTo]
      exact Nat.zero_le i
    · intro hsome
      rw [hcut] at hsome
      cases hsome
    · rw [blankLineAfter, hend, hat]
      exact hends
    · rw [blankLineBefore, hstart, hupTo]
      exact hstarts
  | some cut =>
    have hsome : (s.cut? i).isSome = true := by rw [hcut]; rfl
    obtain ⟨front, rest, htext, rfl⟩ := isSome_cut?_iff.mp hsome
    obtain ⟨hle, hbreak⟩ := breakUpTo?_le htext
    refine ⟨blanksBefore_le htext, hle, fun _ => ?_, fun hnone => ?_⟩
    · simpa using ⟨isSome_cut?_blanksEnd htext, isSome_cut?_blanksStart htext,
        isSome_cut?_breakAt? htext, hbreak⟩
    · rw [hcut] at hnone
      cases hnone

/-- From the two ends of blanks and line breaks, scanning ahead and scanning back find the same: a
line that ends and one that starts if there is any line break, and a blank line if there are two.
Wherever a scan begins, it does not leave the text. -/
theorem scans_agree :
    (∀ (s : Source) (i j : Nat) (gap : Text), s.text.Spaced i j gap →
      s.endsLine i = decide (1 ≤ gap.breaks.length) ∧
      s.startsLine j = decide (1 ≤ gap.breaks.length) ∧
      s.blankLineAfter i = decide (2 ≤ gap.breaks.length) ∧
      s.blankLineBefore j = decide (2 ≤ gap.breaks.length)) ∧
    ∀ (s : Source) (i : Nat), s.StaysInside i := by
  refine ⟨?_, staysInside⟩
  rintro s i j gap ⟨hbetween, hgap, hbefore, hafter⟩
  obtain ⟨front, rest, htext, rfl, rfl⟩ := Text.between?_eq_some_iff.mp hbetween
  rw [← Text.byteSize_append] at hafter ⊢
  have htext' : s.text = front ++ (gap ++ rest) := by rw [htext, List.append_assoc]
  have hfront : ∀ c ∈ front.getLast?, isSpacing c = false := fun c hc =>
    hbefore front c (Text.before?_eq_some_iff.mpr ⟨_, htext', rfl⟩) hc
  have hrest : ∀ c ∈ rest.head?, isSpacing c = false := fun c hc =>
    hafter rest c (Text.after?_eq_some_iff.mpr ⟨_, htext, rfl⟩) hc
  rw [Text.one_le_length_breaks]
  exact ⟨endsLine_eq_any hgap htext' hrest, startsLine_eq_any hgap htext hfront,
    blankLineAfter_eq hgap htext' hrest, blankLineBefore_eq hgap htext hfront⟩

def mixedBreaks : Text := "é\n\r\n x".toList

theorem scans_agree_mixedBreaks :
    mixedBreaks.Spaced 2 6 ['\n', '\r', '\n', ' '] ∧
      (ofText mixedBreaks).blankLineAfter 2 = true ∧
      (ofText mixedBreaks).blankLineBefore 6 = true ∧ (ofText mixedBreaks).StaysInside 1 := by
  have hspaced : mixedBreaks.Spaced 2 6 ['\n', '\r', '\n', ' '] := by
    have hgap : List.all ['\n', '\r', '\n', ' '] isSpacing = true := by decide
    refine ⟨by decide, List.all_eq_true.mp hgap, ?_, ?_⟩
    · intro front c hfront hc
      obtain rfl : ['é'] = front := Option.some.inj hfront
      cases hc
      rfl
    · intro rest c hrest hc
      obtain rfl : ['x'] = rest := Option.some.inj hrest
      cases hc
      rfl
  obtain ⟨-, -, hafter, hbefore⟩ := scans_agree.1 (ofText mixedBreaks) 2 6 _ hspaced
  exact ⟨hspaced, hafter, hbefore, scans_agree.2 _ 1⟩

end Source

end SourceLayout
