import SourceLayout.Proofs.Toy.Exposure

/-! # Where line comments swallow code

A pass over a toy text keeps every line comment apart from the code behind it, except in an empty
list and in a block of nothing but comments. There the closing bracket or brace follows on the line
of the comment.
-/

namespace SourceLayout.Toy

open Pass Piece Doc Meaning

variable {text : Text} {t : Tree} {a : Attachments} {events : List Event} {language : Option Text}
  {nested : Text → Text → Options → Except Failure Doc}

theorem tidy_of_assignComments (h : Parsed t)
    (hassign : assignComments policy t = .ok (a, events)) :
    Tidy t a := by
  obtain ⟨a', events', hassign', ha, -⟩ := exists_tidy h
  rw [hassign] at hassign'
  cases hassign'
  exact ha

theorem separated_of_ofPass [TextWidth] {doc : Doc} (hparse : parse text = .ok t)
    (hassign : assignComments policy t = .ok (a, events)) (hnested : Formats nested t)
    (hdoc : ofPass nested language (grammar false) {} t = .ok doc) :
    (Separated doc.row ↔ ¬ Exposed t a t.root) ∧
      (Separated doc.trimmed.row ∧ Settled doc.trimmed.row ↔
        ¬ ((∃ c, Dangles t a t.root c) ∨ Exposed t a t.root)) := by
  have ha := tidy_of_assignComments (parsed_of_parse hparse) hassign
  have hgives : (ofRoot nested (passJob language t a)).Gives _ := gives_ofRoot hnested hparse ha
  obtain ⟨root, hroot, hempty, hcloses, hiff⟩ := hgives
  obtain rfl : doc = root.hardened := by
    obtain ⟨⟨a', events'⟩, hassign', hdoc⟩ := bind_eq_ok_iff.mp hdoc
    cases hassign.symm.trans hassign'
    obtain ⟨root', hroot', hdoc⟩ := bind_eq_ok_iff.mp hdoc
    obtain ⟨_, -, hdoc⟩ := bind_eq_ok_iff.mp hdoc
    obtain rfl : root = root' := Except.ok.inj (hroot.symm.trans hroot')
    exact (pure_eq_ok_iff.mp hdoc).symm
  rw [row_hardened, (trimmed_hardened root).1, hiff, not_or]
  refine ⟨Iff.rfl, ?_⟩
  by_cases hchildren : (t.node t.root).children = []
  · have hstrand := strand_dangling (passJob language t a) t.root
    rw [← hiff, hempty hchildren, hstrand.neat.separated_trimmed,
      settled_trimmed_dangling_iff hparse ha hchildren, and_comm]
  · have hcloses := hcloses hchildren
    rw [hcloses.neat.separated_trimmed, hiff, and_iff_left hcloses.settled_trimmed]
    exact (and_iff_right fun ⟨c, hc⟩ => hchildren hc.1).symm

theorem exists_ofPass [TextWidth] (h : Parsed t) (depth : Nat) :
    ∃ doc, ofPass (ofText languages depth) language (grammar false) {} t = .ok doc := by
  have hstrict : ({} : Options).strict = false := rfl
  obtain ⟨a, events, doc, session, -, -, hrun, -⟩ :=
    exists_overTree (keeps_formatWithin languages depth) hstrict h
  have hconcur :=
    concur_overTreeBy (mirrors_grammar false) mirrors_languages h.wellNested.earlier {}
    .reuse depth none
  rw [formatBy_reuse, overTreeBy_reuse, hrun] at hconcur
  rw [ofPass_language]
  generalize ofPass (ofText languages depth) none (grammar false) {} t = result at hconcur
  cases hconcur with
  | ok hdoc => exact ⟨_, rfl⟩

theorem formats_of_brace [TextWidth] (hparse : parse text = .ok t) (hbrace : '\x7d' ∉ text) :
    Formats nested t ∧ ∀ n, ¬ SwallowingBlock t n := by
  have hkind : ∀ n, (t.node n).kind ≠ "Embed" := by
    intro n
    by_cases hn : n < t.nodes.size
    · exact kind_ne_embed hparse hbrace hn
    · simp [Tree.node, Array.getD, hn]
  exact ⟨⟨fun n _ hn => absurd hn (hkind n), fun n _ hn => absurd hn (hkind n)⟩,
    fun n hn => hkind n hn.1⟩

theorem ofText_eq_ok [TextWidth] {depth : Nat} {name code : Text} {doc : Doc}
    (h : ofText languages (depth + 1) name code {} = .ok doc) :
    name = "toy".toList ∧ ∃ t, parse code = .ok t := by
  unfold ofText at h
  cases hl : languages.get? name with
  | none =>
    rw [hl] at h
    cases h
  | some l =>
    rw [hl] at h
    obtain ⟨t, htree, -⟩ := bind_eq_ok_iff.mp h
    refine ⟨?_, t, (parse_of_get? hl htree).2⟩
    have hname : (l.name == name) = true :=
      List.find?_some (p := fun k : Language => k.name == name) hl
    have hmem := List.mem_of_find?_eq_some hl
    rw [languages_eq, List.mem_cons, List.mem_singleton] at hmem
    rcases hmem with rfl | rfl
    · exact (beq_iff_eq.mp hname).symm
    · cases htree

theorem ofText_toy [TextWidth] {depth : Nat} {code : Text} (h : parse code = .ok t) :
    ofText languages (depth + 1) "toy".toList code {} =
      ofPass (ofText languages depth) (some "toy".toList) (grammar false) {} t := by
  have hget : languages.get? "toy".toList = some Toy.language := rfl
  have htree : Toy.language.parse code = .ok t := by
    change ((parse code).mapError SyntaxError.message).mapError _ = _
    rw [h]
    rfl
  rw [ofText, hget]
  dsimp only
  rw [htree]
  rfl

theorem brace_notMem_blockCode (hparse : parse text = .ok t) {n : NodeId}
    (hkind : (t.node n).kind = "Embed") : '\x7d' ∉ blockCode t n := by
  have hn : n < t.nodes.size := by
    by_contra hn
    simp [Tree.node, Array.getD, hn] at hkind
  have hcode := (((spelling_of_parse hparse).nodes n hn).code hkind).2
  unfold blockCode
  cases hfield : (t.node n).text? "code" with
  | none => exact List.not_mem_nil
  | some code => exact hcode code hfield

/-- The code of a block is formatted as a text of its own. -/
theorem formats_ofText [TextWidth] (hparse : parse text = .ok t) (depth : Nat) :
    Formats (ofText languages (depth + 1)) t := by
  constructor
  · intro n doc hkind hdoc
    obtain ⟨hlanguage, t', hcode⟩ := ofText_eq_ok hdoc
    obtain ⟨a', events', hassign, -, -⟩ := exists_tidy (parsed_of_parse hcode)
    have hnone : Formats (ofText languages depth) t' ∧ ∀ m, ¬ SwallowingBlock t' m :=
      formats_of_brace hcode (brace_notMem_blockCode hparse hkind)
    rw [hlanguage, ofText_toy hcode] at hdoc
    refine (separated_of_ofPass hcode hassign hnone.1 hdoc).2.trans (not_congr ?_)
    have hexposed : Exposed t' a' t'.root ↔ ∃ m, Visible t' a' t'.root m ∧ SwallowingList t' a' m :=
      exists_congr fun m => and_congr_right fun _ => or_iff_left (hnone.2 m)
    rw [hexposed]
    constructor
    · exact fun hswallows => ⟨hkind, hlanguage, t', a', events', hcode, hassign, hswallows⟩
    · rintro ⟨-, -, t'', a'', events'', hcode'', hassign'', hswallows⟩
      cases hcode.symm.trans hcode''
      cases hassign.symm.trans hassign''
      exact hswallows
  · rintro n e hkind herror ⟨-, hlanguage, t', a', events', hcode, -⟩
    rw [hlanguage, ofText_toy hcode] at herror
    obtain ⟨doc, hdoc⟩ : ∃ doc, ofPass (ofText languages depth) (some "toy".toList) (grammar false) {}
        t' = .ok doc := exists_ofPass (parsed_of_parse hcode) depth
    rw [hdoc] at herror
    cases herror

/-- A line comment swallows code just in two places: in a list with nothing but comments, and in a
block of toy code with nothing but comments. For every text that the toy parser accepts, in the
document of a pass with default options, each text of a line comment has a forced line between it
and the next text, unless the pass gets to a list or a block where a line comment comes right before
the closing bracket or brace. -/
theorem layoutTree_separates_iff [TextWidth] (hparse : parse text = .ok t) :
    ∃ a events doc session, assignComments policy t = .ok (a, events) ∧
      layoutTree (grammar false) languages {} t = (.ok doc, session) ∧
      (Separated (doc.pieces session.marks) ↔
        ∀ n, Visible t a t.root n → ¬ SwallowingList t a n ∧ ¬ SwallowingBlock t n) := by
  have h := parsed_of_parse hparse
  obtain ⟨a, events, hassign, -, -⟩ := exists_tidy h
  have hconcur :=
    concur_ofPass (mirrors_grammar false) mirrors_languages h.wellNested.earlier {} .reuse
  rw [layoutBy_reuse] at hconcur
  obtain ⟨bare, hbare⟩ : ∃ bare, ofPass (ofText languages (nestingLimit t.source.text)) none
      (grammar false) {} t = .ok bare := exists_ofPass h _
  have hlimit : nestingLimit t.source.text = (t.source.text.length + 65535) + 1 := rfl
  have hformats := formats_ofText hparse (t.source.text.length + 65535)
  rw [← hlimit] at hformats
  have hrow := (separated_of_ofPass hparse hassign hformats hbare).1
  rw [hbare] at hconcur
  generalize hlayout : layoutTree (grammar false) languages {} t = run at hconcur
  obtain ⟨result, session⟩ := run
  cases hconcur with
  | @ok doc _ hdoc =>
    refine ⟨a, events, doc, session, hassign, rfl, ?_⟩
    rw [← hdoc, Session.flags, row_bare] at hrow
    rw [hrow, Exposed]
    simp only [not_exists, not_and, not_or]

def danglingList : Text := "( // c\n)".toList

section Sample

attribute [local instance] TextWidth.perCharacter

theorem layoutTree_separates_iff_danglingList :
    ∃ t, parse danglingList = .ok t ∧ ∃ a events doc session,
      assignComments policy t = .ok (a, events) ∧
      layoutTree (grammar false) languages {} t = (.ok doc, session) ∧
      doc.pieces session.marks = [.text false, .text true, .text false] ∧
      ∃ n, Visible t a t.root n ∧ (SwallowingList t a n ∨ SwallowingBlock t n) := by
  have hpieces : ((parse danglingList).toOption.bind fun t =>
      let run := layoutTree (grammar false) languages {} t
      run.1.toOption.map fun doc => doc.pieces run.2.marks) =
        some [.text false, .text true, .text false] := by
    decide +kernel
  cases hparse : parse danglingList with
  | error e =>
    rw [hparse] at hpieces
    cases hpieces
  | ok t =>
    obtain ⟨a, events, doc, session, hassign, hlayout, hiff⟩ := layoutTree_separates_iff hparse
    have hpieces : doc.pieces session.marks = [.text false, .text true, .text false] := by
      rw [hparse] at hpieces
      simpa [Except.toOption, hlayout] using hpieces
    refine ⟨t, rfl, a, events, doc, session, hassign, hlayout, hpieces, ?_⟩
    by_contra hnone
    have hseparated : Separated (doc.pieces session.marks) := by
      refine hiff.mpr fun n hn => ⟨fun hlist => ?_, fun hblock => ?_⟩
      · exact hnone ⟨n, hn, .inl hlist⟩
      · exact hnone ⟨n, hn, .inr hblock⟩
    rw [hpieces] at hseparated
    exact absurd hseparated (by decide)

end Sample

end SourceLayout.Toy
