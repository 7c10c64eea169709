import SourceLayout.Proofs.Toy.Sharing
import SourceLayout.Proofs.Toy.Spelling

/-! # Line comments and the code behind them

What follows a line comment on its line is part of the comment. A pass over a toy text ends the line
behind a leading comment and holds a trailing one back, but a comment in an empty list, or in a
block of nothing but comments, is followed by the closing bracket or brace. So these are the places
where a line comment swallows code, and there is no other.
-/

namespace SourceLayout.Toy

open Pass Piece Doc

section Places

variable (t : Tree) (a : Attachments) (n : NodeId)

/-- The last comment inside a node without children is a line comment. -/
def Dangles (c : CommentId) : Prop :=
  (t.node n).children = [] ∧ (a.placed n .dangling).getLast? = some c ∧ (t.comment c).kind = .line

/-- A list with a line comment right before its closing bracket. A comment that ends with a line
break is not. -/
def SwallowingList : Prop :=
  (t.node n).kind = "List" ∧ ∃ c, Dangles t a n c ∧ (t.comment c).text.lines.getLast? ≠ some []

/-- A block with a line comment right before its closing brace, or with such a list in its code. The
line breaks at the end of the code are gone. -/
def SwallowingBlock : Prop :=
  (t.node n).kind = "Embed" ∧ blockLanguage t n = "toy".toList ∧ ∃ t' a' events,
    parse (blockCode t n) = .ok t' ∧ assignComments policy t' = .ok (a', events) ∧
      ((∃ c, Dangles t' a' t'.root c) ∨ ∃ m, Visible t' a' t'.root m ∧ SwallowingList t' a' m)

/-- A pass from a node gets to a place where a line comment swallows code. -/
def Exposed : Prop := ∃ m, Visible t a n m ∧ (SwallowingList t a m ∨ SwallowingBlock t m)

end Places

variable {t : Tree} {a : Attachments} {n : NodeId}

theorem exposed_iff (h : Parsed t) (hr : t.Reaches t.root n) :
    Exposed t a n ↔ isMarked t a n = false ∧
      (SwallowingList t a n ∨ SwallowingBlock t n ∨ ∃ d ∈ (t.node n).children, Exposed t a d) := by
  have hkind : ∀ {m}, SwallowingList t a m ∨ SwallowingBlock t m → (t.node m).kind ≠ "Quasi" := by
    rintro m (hm | hm)
    · rw [hm.1]
      decide
    · rw [hm.1]
      decide
  constructor
  · rintro ⟨m, hvisible, hm⟩
    obtain ⟨hmarked, rfl | ⟨d, hd, hvisible⟩⟩ := (visible_iff h hr (hkind hm)).mp hvisible
    · exact ⟨hmarked, or_assoc.mp (.inl hm)⟩
    · exact ⟨hmarked, .inr (.inr ⟨d, hd, m, hvisible, hm⟩)⟩
  · rintro ⟨hmarked, hn⟩
    rcases or_assoc.mpr hn with hn | ⟨d, hd, m, hvisible, hm⟩
    · exact ⟨n, (visible_iff h hr (hkind hn)).mpr ⟨hmarked, .inl rfl⟩, hn⟩
    · exact ⟨m, (visible_iff h hr (hkind hm)).mpr ⟨hmarked, .inr ⟨d, hd, hvisible⟩⟩, hm⟩

variable [TextWidth]

/-- The document that a node comes to. What follows it does not matter to a line comment in it. -/
structure Comes (t : Tree) (a : Attachments) (n : NodeId) (doc : Doc) : Prop where
  settled : Settled doc.row
  separated_iff : Separated doc.row ↔ ¬ Exposed t a n
  closes : (t.node n).kind ∈ itemKinds → Closes false doc

theorem Comes.of_closes {doc : Doc} (hcloses : Closes false doc)
    (hiff : Separated doc.row ↔ ¬ Exposed t a n) : Comes t a n doc :=
  ⟨hcloses.settled, hiff, fun _ => hcloses⟩

section Children

variable {ns : List NodeId} {docs : List Doc} (h : List.Forall₂ (Comes t a) ns docs)
include h

theorem forall_settled : ∀ doc ∈ docs, Settled doc.row := by
  induction h with
  | nil => exact fun _ hdoc => nomatch hdoc
  | cons hdoc _ ih => exact List.forall_mem_cons.mpr ⟨hdoc.settled, ih⟩

theorem forall_separated_iff :
    (∀ doc ∈ docs, Separated doc.row) ↔ ¬ ∃ n ∈ ns, Exposed t a n := by
  induction h with
  | nil => exact iff_of_true (fun _ hdoc => nomatch hdoc) nofun
  | cons hdoc _ ih =>
    rw [List.forall_mem_cons, ih, hdoc.separated_iff, List.exists_mem_cons_iff, not_or]

theorem forall_closes (hns : ∀ n ∈ ns, (t.node n).kind ∈ itemKinds) :
    ∀ doc ∈ docs, Closes false doc := by
  induction h with
  | nil => exact fun _ hdoc => nomatch hdoc
  | cons hdoc _ ih =>
    rw [List.forall_mem_cons] at hns ⊢
    exact ⟨hdoc.closes hns.1, ih hns.2⟩

end Children

abbrev passJob (language : Option Text) (t : Tree) (a : Attachments) : Job :=
  jobFor language (grammar false) {} t a

variable {text : Text} {language : Option Text} {place : Cursor} {print : Cursor → Account Doc}
  {nested : Text → Text → Options → Except Failure Doc}

open Meaning Account

theorem tells (hparse : parse text = .ok t) (ha : Tidy t a) {c : CommentId} {placement : Placement}
    (hc : c ∈ a.placed n placement) : Tells (passJob language t a) c := by
  change (linesOf (t.comment c).text).isLineComment = !((t.comment c).kind == .block)
  rw [isLineComment_comment hparse (ha.mem_commentIds hc)]
  cases (t.comment c).kind <;> rfl

theorem dangling_eq_nil (h : a.placed n .dangling = []) :
    dangling (passJob language t a) n = .nil 0 := by
  rw [dangling, show (passJob language t a).scene.attachments = a from rfl, h]
  rfl

structure Given (t : Tree) (a : Attachments) (n : NodeId) (print : Cursor → Account Doc) :
    Prop where
  node : ∀ m ∈ (t.node n).children, ∀ place, At t place m → (print place).Gives (Comes t a m)
  text : ∀ place content, place.value = .str content → (print place).Gives (· = .leaf .owned content)

section Dangling

variable (hparse : parse text = .ok t) (ha : Tidy t a)
include hparse ha

theorem exists_dangling_eq_joined {c : CommentId} (hc : (a.placed n .dangling).getLast? = some c) :
    ∃ before : Doc, dangling (passJob language t a) n =
        before.joined (inked ((t.comment c).kind == .line) (t.comment c).text) ∧
      (texts (inked ((t.comment c).kind == .line) (t.comment c).text).row).getLast? =
        some ((t.comment c).kind == .line) := by
  have hknown := ha.mem_commentIds (List.mem_of_getLast? hc)
  obtain ⟨second, rest, htext, -⟩ := (spelling_of_parse hparse).comments c hknown
  have hslash : '/' ∈ (t.comment c).text := by
    rw [htext]
    exact List.mem_cons_self
  have hkind : (!((t.comment c).kind == .block)) = ((t.comment c).kind == .line) := by
    cases (t.comment c).kind <;> rfl
  have hdangling : ∃ before : Doc, dangling (passJob language t a) n =
      before.joined (inked (!((t.comment c).kind == .block)) (t.comment c).text) :=
    exists_dangling_eq hc
  rw [hkind] at hdangling
  obtain ⟨before, heq⟩ := hdangling
  exact ⟨before, heq, getLast?_texts_inked _ hslash (by decide)⟩

theorem getLast?_texts_dangling {c : CommentId} (hc : (a.placed n .dangling).getLast? = some c) :
    (texts (dangling (passJob language t a) n).row).getLast? = some ((t.comment c).kind == .line) := by
  obtain ⟨before, heq, hlast⟩ := exists_dangling_eq_joined hparse ha hc
  rw [heq, row_joined, texts_append, List.getLast?_append, hlast]
  rfl

theorem settled_dangling_iff (hchildren : (t.node n).children = []) :
    Settled (dangling (passJob language t a) n).row ↔
      ¬ ∃ c, Dangles t a n c ∧ (t.comment c).text.lines.getLast? ≠ some [] := by
  cases hc : (a.placed n .dangling).getLast? with
  | none =>
    refine iff_of_true ?_ ?_
    · rw [dangling_eq_nil (List.getLast?_eq_none_iff.mp hc)]
      exact nofun
    · rintro ⟨c, ⟨-, hlast, -⟩, -⟩
      rw [hc] at hlast
      cases hlast
  | some c =>
    obtain ⟨before, heq, hlast⟩ := exists_dangling_eq_joined hparse ha hc
    have hne : (inked ((t.comment c).kind == .line) (t.comment c).text).row ≠ [] := by
      intro hempty
      rw [hempty] at hlast
      cases hlast
    rw [heq, row_joined, Settled, List.getLast?_append_of_ne_nil _ hne, ← Settled, settled_inked_iff,
      beq_eq_false_iff_ne]
    constructor
    · rintro hor ⟨c', ⟨-, hc', hkind⟩, hline⟩
      obtain rfl : c = c' := Option.some.inj (hc.symm.trans hc')
      exact hor.elim (fun hne => hne hkind) hline
    · intro hnot
      by_contra hor
      rw [not_or, not_not] at hor
      exact hnot ⟨c, ⟨hchildren, hc, hor.1⟩, hor.2⟩

theorem settled_trimmed_dangling_iff (hchildren : (t.node n).children = []) :
    Settled (dangling (passJob language t a) n).trimmed.row ↔ ¬ ∃ c, Dangles t a n c := by
  cases hc : (a.placed n .dangling).getLast? with
  | none =>
    refine iff_of_true ?_ ?_
    · rw [dangling_eq_nil (List.getLast?_eq_none_iff.mp hc)]
      exact nofun
    · rintro ⟨c, -, hlast, -⟩
      rw [hc] at hlast
      cases hlast
  | some c =>
    rw [Settled, (strand_dangling _ n).getLast?_trimmed (getLast?_texts_dangling hparse ha hc)]
    constructor
    · rintro hne ⟨c', -, hc', hkind⟩
      obtain rfl : c = c' := Option.some.inj (hc.symm.trans hc')
      rw [hkind] at hne
      exact hne rfl
    · intro hnot hmarked
      have hkind : ((t.comment c).kind == .line) = true := by simpa using hmarked
      exact hnot ⟨c, hchildren, hc, beq_iff_eq.mp hkind⟩

omit ha in
theorem closes_linesOf_slice (hn : n < t.nodes.size) (hkind : (t.node n).kind ∈ itemKinds) :
    Closes false (linesOf (t.slice (t.node n).span)) ∧
      Separated (linesOf (t.slice (t.node n).span)).row := by
  obtain ⟨c, hc, hother⟩ := exists_mem_slice hparse hn hkind
  rw [linesOf_eq_inked]
  exact ⟨(strand_inked _ _).closes (getLast?_texts_inked _ hc hother), separated_inked _ _⟩

end Dangling

section Rules

variable (hp : At t place n) (hprint : Given t a n print)
include hp hprint

theorem gives_printList {name : String} {ns : List NodeId}
    (hf : (t.node n).field? name = some (.list (ns.map .node)))
    (hns : ∀ m ∈ ns, m ∈ (t.node n).children) :
    ((Rule.printList place name).run (answer nested (passJob language t a) print)).Gives
      (List.Forall₂ (Comes t a) ns) := by
  refine gives_run_mapM (hp.forall₂_elements hf) fun place m hm hplace => ?_
  exact gives_bind_iff.mpr ((hprint.node m (hns m hm) place hplace).mono fun _ => gives_pure)

theorem gives_printField {name : String} {content : Text}
    (hf : (t.node n).field? name = some (.str content)) :
    ((Rule.printField place name).run (answer nested (passJob language t a) print)).Gives
      (· = leaf .owned content) := by
  have hfield := hprint.text _ content (hp.value_enter hf)
  refine gives_bind_iff.mpr (hfield.mono ?_)
  rintro _ rfl
  exact gives_pure rfl

omit hp hprint in
theorem gives_weave {doc : Doc} {quasis expressions : List Doc} (hdoc : Settled doc.row)
    (hquasis : ∀ q ∈ quasis, Settled q.row) (hexpressions : ∀ e ∈ expressions, Settled e.row)
    (hlength : expressions.length ≤ quasis.length) :
    ((weave doc quasis expressions).run (answer nested (passJob language t a) print)).Gives
      fun out => Settled out.row ∧ (Separated out.row ↔ Separated doc.row ∧
        (∀ q ∈ quasis, Separated q.row) ∧ ∀ e ∈ expressions, Separated e.row) := by
  induction quasis generalizing doc expressions with
  | nil =>
    obtain rfl : expressions = [] := List.eq_nil_of_length_eq_zero (Nat.le_zero.mp hlength)
    exact gives_pure ⟨hdoc, by simp⟩
  | cons q quasis ih =>
    rw [List.forall_mem_cons] at hquasis
    have hjoined : Settled (doc.joined q).row := by
      rw [row_joined]
      exact hdoc.append hquasis.1
    have hjoined_iff : Separated (doc.joined q).row ↔ Separated doc.row ∧ Separated q.row := by
      rw [row_joined, separated_append hdoc]
    cases expressions with
    | nil =>
      have hnone : ∀ e ∈ ([] : List Doc), Settled e.row := fun _ he => nomatch he
      refine gives_build_bind ((ih hjoined hquasis.2 hnone (Nat.zero_le _)).mono ?_)
      rintro out ⟨hout, hiff⟩
      refine ⟨hout, hiff.trans ?_⟩
      rw [hjoined_iff, List.forall_mem_cons, and_assoc, and_assoc]
    | cons e expressions =>
      rw [List.forall_mem_cons] at hexpressions
      let hole := joinedAll [leaf .fixed ['$', '\x7b'], e, leaf .fixed ['\x7d']]
      have hhole : hole.row = [.text false] ++ e.row ++ [.text false] := by
        rw [row_joinedAll, List.append_assoc]
        rfl
      have hopened : Settled ((doc.joined q).joined hole).row := by
        rw [row_joined, hhole]
        exact hjoined.append settled_concat_text
      have hopened_iff : Separated ((doc.joined q).joined hole).row ↔
          (Separated doc.row ∧ Separated q.row) ∧ Separated e.row := by
        rw [row_joined, separated_append hjoined, hhole, separated_enclosed, hjoined_iff]
        exact and_congr_right fun _ => and_iff_left hexpressions.1
      have hlength : expressions.length ≤ quasis.length := Nat.le_of_succ_le_succ hlength
      refine gives_build_bind (gives_build_bind (gives_build_bind (gives_build_bind ?_)))
      refine gives_build_bind ((ih hopened hquasis.2 hexpressions.2 hlength).mono ?_)
      rintro out ⟨hout, hiff⟩
      refine ⟨hout, hiff.trans ?_⟩
      rw [hopened_iff, List.forall_mem_cons, List.forall_mem_cons]
      constructor
      · rintro ⟨⟨⟨hdoc, hq⟩, he⟩, hquasis, hexpressions⟩
        exact ⟨hdoc, ⟨hq, hquasis⟩, he, hexpressions⟩
      · rintro ⟨hdoc, ⟨hq, hquasis⟩, he, hexpressions⟩
        exact ⟨⟨⟨hdoc, hq⟩, he⟩, hquasis, hexpressions⟩

variable (hparse : parse text = .ok t) (ha : Tidy t a)
include hparse ha

theorem gives_listRule
    (hf : (t.node n).field? "items" = some (.list ((t.node n).children.map .node))) :
    ((listRule (passJob language t a).scene place).run
        (answer nested (passJob language t a) print)).Gives
      fun doc => Closes false doc ∧ (Separated doc.row ↔
        (¬ ∃ c, Dangles t a n c ∧ (t.comment c).text.lines.getLast? ≠ some []) ∧
          ¬ ∃ d ∈ (t.node n).children, Exposed t a d) := by
  have hbracket : Closes false (leaf .fixed [')']) := closes_leaf (by decide) (.inl rfl)
  refine gives_run_bind (gives_printList hp hprint hf fun _ => id) fun items hitems => ?_
  split
  · rename_i hempty
    rw [List.isEmpty_iff] at hempty
    rw [hempty] at hitems
    have hchildren : (t.node n).children = [] := List.forall₂_nil_right_iff.mp hitems
    have hdangling : ∀ c ∈ (passJob language t a).scene.attachments.placed place.node .dangling,
        Tells (passJob language t a) c := fun c hc => tells hparse ha hc
    refine gives_run_bind (gives_danglingComments hdangling) ?_
    rintro _ rfl
    refine gives_build_bind (gives_build_bind (gives_run_build ⟨?_, ?_⟩))
    · exact hbracket.joined_right _
    · change Separated (joinedAll [leaf .fixed ['('], _, leaf .fixed [')']]).row ↔ _
      rw [row_joinedAll, hp.node_eq]
      change Separated ([.text false] ++ (_ ++ [.text false])) ↔ _
      rw [← List.append_assoc, separated_enclosed, settled_dangling_iff hparse ha hchildren, hchildren]
      simp [separated_dangling]
  · rename_i hne
    have hchildren : (t.node n).children ≠ [] := by
      intro hchildren
      rw [hchildren] at hitems
      exact hne (by rw [List.forall₂_nil_left_iff.mp hitems]; rfl)
    let inner := (joinedAll [.line 0 .soft, spaced items (.line 0 .normal)]).indented
    have hinner : inner.row = items.flatMap row := by
      rw [row_indented, row_joinedAll]
      change [] ++ ((spaced items _).row ++ []) = _
      rw [List.nil_append, List.append_nil, row_spaced rfl]
    suffices hdoc : Closes false (joinedAll [leaf .fixed ['('], inner, .line 0 .soft,
        leaf .fixed [')']]).grouped ∧ (Separated (joinedAll [leaf .fixed ['('], inner, .line 0 .soft,
        leaf .fixed [')']]).grouped.row ↔ (¬ ∃ c, Dangles t a n c ∧
          (t.comment c).text.lines.getLast? ≠ some []) ∧ ¬ ∃ d ∈ (t.node n).children, Exposed t a d) by
      refine gives_build_bind (gives_build_bind (gives_build_bind (gives_build_bind ?_)))
      refine gives_build_bind (gives_build_bind (gives_build_bind (gives_build_bind ?_)))
      exact gives_build_bind (gives_run_build hdoc)
    constructor
    · exact (hbracket.joined_right _).grouped
    · rw [row_grouped, row_joinedAll]
      change Separated ([.text false] ++ (inner.row ++ [.text false])) ↔ _
      rw [← List.append_assoc, separated_enclosed, hinner, separated_flatMap (forall_settled hitems),
        forall_separated_iff hitems, and_iff_left (settled_flatMap (forall_settled hitems))]
      exact (and_iff_right fun ⟨c, hc, _⟩ => hchildren hc.1).symm

omit hparse ha in
theorem gives_templateRule {qs es : List NodeId} (hchildren : (t.node n).children = qs ++ es)
    (hquasis : (t.node n).field? "quasis" = some (.list (qs.map .node)))
    (hexpressions : (t.node n).field? "expressions" = some (.list (es.map .node)))
    (hlength : qs.length = es.length + 1) :
    ((templateRule place).run (answer nested (passJob language t a) print)).Gives
      fun doc => Closes false doc ∧
        (Separated doc.row ↔ ¬ ∃ d ∈ (t.node n).children, Exposed t a d) := by
  have hquote : Closes false (leaf .fixed ['"']) := closes_leaf (by decide) (.inl rfl)
  have hqs : ∀ q ∈ qs, q ∈ (t.node n).children := fun q hq => hchildren ▸ List.mem_append_left _ hq
  have hes : ∀ e ∈ es, e ∈ (t.node n).children := fun e he => hchildren ▸ List.mem_append_right _ he
  refine gives_run_bind (gives_printList hp hprint hquasis hqs) fun quasis hquasis => ?_
  refine gives_run_bind (gives_printList hp hprint hexpressions hes)
    fun expressions hexpressions => ?_
  have hle : expressions.length ≤ quasis.length := by
    rw [← hquasis.length_eq, ← hexpressions.length_eq, hlength]
    exact Nat.le_succ _
  refine gives_build_bind (gives_run_bind (gives_weave hquote.settled (forall_settled hquasis)
    (forall_settled hexpressions) hle) fun out hout => ?_)
  refine gives_build_bind (gives_run_build ⟨hquote.joined_right out, ?_⟩)
  change Separated (out.joined (leaf .fixed ['"'])).row ↔ _
  rw [row_joined]
  change Separated (out.row ++ [.text false]) ↔ _
  rw [separated_concat_text, and_iff_left hout.1, hout.2, forall_separated_iff hquasis,
    forall_separated_iff hexpressions, ← not_or, hchildren]
  refine (and_iff_right (.singleton _)).trans (not_congr ?_)
  simp only [List.mem_append, or_and_right, exists_or]

theorem gives_programRule
    (hf : (t.node n).field? "body" = some (.list ((t.node n).children.map .node)))
    (hitems : ∀ m ∈ (t.node n).children, (t.node m).kind ∈ itemKinds) :
    ((programRule false (passJob language t a).scene place).run
      (answer nested (passJob language t a) print)).Gives fun doc =>
        ((t.node n).children = [] → doc = dangling (passJob language t a) n) ∧
        ((t.node n).children ≠ [] → Closes false doc ∧
          (Separated doc.row ↔ ¬ ∃ d ∈ (t.node n).children, Exposed t a d)) := by
  have hdangling : ∀ c ∈ (passJob language t a).scene.attachments.placed place.node .dangling,
      Tells (passJob language t a) c := fun c hc => tells hparse ha hc
  refine gives_run_bind (gives_printList hp hprint hf fun _ => id) fun body hbody => ?_
  refine gives_run_bind (gives_danglingComments hdangling) ?_
  rintro _ rfl
  rw [hp.node_eq]
  refine gives_build_bind
    (gives_build_bind (gives_run_build ⟨fun hchildren => ?_, fun hchildren => ?_⟩))
  · rw [hchildren] at hbody
    rw [List.forall₂_nil_left_iff.mp hbody]
    rfl
  · have hnone : dangling (passJob language t a) n = .nil 0 :=
      dangling_eq_nil (ha.placed_dangling_eq_nil hchildren)
    have hbody_closes : Closes false (spaced body (.line 0 .hard)) := by
      refine .spaced ?_ (forall_closes hbody hitems) _
      rintro rfl
      exact hchildren (List.forall₂_nil_right_iff.mp hbody)
    constructor
    · rw [hnone]
      exact hbody_closes.joined_left (neat_of_isTrim rfl) fun _ hm => absurd hm List.not_mem_nil
    · rw [hnone]
      change Separated ((spaced body (.line 0 .hard)).joined (.nil 0)).row ↔ _
      rw [row_joined]
      change Separated ((spaced body (.line 0 .hard)).row ++ []) ↔ _
      rw [List.append_nil, separated_spaced rfl, forall_separated_iff hbody]

theorem gives_rule (hn : n < t.nodes.size) (hkind : (t.node n).kind ∈ itemKinds) :
    (Meaning.rule nested (passJob language t a) print place).Gives fun doc =>
      Closes false doc ∧ (Separated doc.row ↔
        ¬ SwallowingList t a n ∧ ¬ ∃ d ∈ (t.node n).children, Exposed t a d) := by
  change ((Toy.rule false (passJob language t a).scene place none).run
    (answer nested (passJob language t a) print)).Gives _
  have hlist : ∀ {kind : String}, (t.node n).kind = kind → kind ≠ "List" → ¬ SwallowingList t a n :=
    fun hk hne hlist => hne (hk.symm.trans hlist.1)
  cases ((parsed_of_parse hparse).shaped n hn).form with
  | embed kind children =>
    simp only [Toy.rule, hp.nodeHere_eq, kind]
    have hsource := closes_linesOf_slice hparse hn hkind
    refine gives_run_build ⟨hsource.1, iff_of_true hsource.2 ⟨hlist kind (by decide), ?_⟩⟩
    simp [children]
  | quasi kind | program kind => simp [kind, itemKinds] at hkind
  | @ident name kind children field =>
    simp only [Toy.rule, hp.nodeHere_eq, kind]
    have hname := ((spelling_of_parse hparse).nodes n hn).name kind name (by rw [Node.text?, field])
    refine (gives_printField hp hprint field).mono ?_
    rintro _ rfl
    refine ⟨closes_leaf hname.1 (.inr hname.2), iff_of_true ?_ ⟨hlist kind (by decide), ?_⟩⟩
    · rw [row_leaf]
      split
      · exact .nil
      · exact .singleton _
    · simp [children]
  | list kind _ field =>
    simp only [Toy.rule, hp.nodeHere_eq, kind]
    refine (gives_listRule hp hprint hparse ha field).mono fun doc hdoc => ⟨hdoc.1, hdoc.2.trans ?_⟩
    simp only [SwallowingList, kind, true_and]
  | template kind children hwoven literals holes =>
    simp only [Toy.rule, hp.nodeHere_eq, kind]
    refine (gives_templateRule hp hprint children literals holes hwoven.length_eq).mono
      fun doc hdoc => ⟨hdoc.1, hdoc.2.trans ?_⟩
    exact (and_iff_right (hlist kind (by decide))).symm

end Rules

/-- Formatting the code of a block tells whether the block lets a comment swallow its brace. -/
structure Formats (nested : Text → Text → Options → Except Failure Doc) (t : Tree) : Prop where
  ok : ∀ n doc, (t.node n).kind = "Embed" → nested (blockLanguage t n) (blockCode t n) {} = .ok doc →
    (Separated doc.trimmed.row ∧ Settled doc.trimmed.row ↔ ¬ SwallowingBlock t n)
  error : ∀ n e, (t.node n).kind = "Embed" →
    nested (blockLanguage t n) (blockCode t n) {} = .error e → ¬ SwallowingBlock t n

section Node

omit [TextWidth] in
theorem isIgnored_eq (hp : At t place n) : (passJob language t a).grammar.isIgnored
    (passJob language t a).scene.attachments place = isMarked t a n := hp.isIgnored_eq

variable (hnested : Formats nested t)
include hnested

theorem gives_embedded (hp : At t place n) :
    (embedded nested (passJob language t a) print place).Gives fun
      | none => ¬ SwallowingBlock t n
      | some doc => (t.node n).kind = "Embed" ∧ Closes false doc ∧
        (Separated doc.row ↔ ¬ SwallowingBlock t n) := by
  change (((embed (passJob language t a).scene place).run
    (answer nested (passJob language t a) print)).orElse false none).Gives _
  by_cases hkind : (t.node n).kind = "Embed"
  · rw [hp.embed_eq hkind]
    cases hcode : nested (blockLanguage t n) (blockCode t n) {} with
    | error e =>
      refine gives_orElse_of_error (e := e) ?_ (hnested.error n e hkind hcode)
      exact (outcome_bind ⟨nested (blockLanguage t n) (blockCode t n) {}, []⟩ _).trans
        (by rw [hcode])
    | ok code =>
      have hbrace : Closes false (leaf .fixed ['\x7d']) := closes_leaf (by decide) (.inl rfl)
      let doc := joinedAll [leaf .owned ('%' :: blockLanguage t n ++ ['\x7b']), code.trimmed,
        leaf .fixed ['\x7d']]
      have hdoc : Closes false doc ∧ (Separated doc.row ↔ ¬ SwallowingBlock t n) := by
        refine ⟨hbrace.joined_right _, ?_⟩
        rw [row_joinedAll]
        change Separated ((leaf .owned _).row ++ (code.trimmed.row ++ [.text false])) ↔ _
        rw [row_leaf]
        change Separated ([.text false] ++ (code.trimmed.row ++ [.text false])) ↔ _
        rw [← List.append_assoc, separated_enclosed]
        exact hnested.ok n code hkind hcode
      refine Gives.orElse ?_ _ _
      refine gives_bind_iff.mpr ⟨code, hcode, ?_⟩
      exact ⟨some doc, rfl, hkind, hdoc⟩
  · rw [hp.embed_eq_none hkind]
    exact ⟨none, rfl, fun hblock => hkind hblock.1⟩

variable (hparse : parse text = .ok t) (ha : Tidy t a)
include hparse ha

/-- What an item comes to without its comments, if it is given what its children come to. -/
theorem gives_content (hr : t.Reaches t.root n) (hkind : (t.node n).kind ∈ itemKinds)
    (hp : At t place n) (hprint : Given t a n print) :
    (Meaning.content nested (passJob language t a) print place n).Gives fun doc =>
      Closes false doc ∧ (Separated doc.row ↔ ¬ Exposed t a n) := by
  have h := parsed_of_parse hparse
  have hn : n < t.nodes.size := h.reaches_lt_size hr
  have hsource := closes_linesOf_slice hparse hn hkind
  unfold Meaning.content
  rw [isIgnored_eq hp]
  split
  · rename_i hmarked
    refine ⟨_, rfl, hsource.1, iff_of_true hsource.2 fun hexposed => ?_⟩
    rw [((exposed_iff h hr).mp hexposed).1] at hmarked
    cases hmarked
  · rename_i hmarked
    rw [Bool.not_eq_true] at hmarked
    refine gives_bind_iff.mpr ((gives_embedded hnested hp).mono fun result hresult => ?_)
    cases result with
    | some doc =>
      obtain ⟨hembed, hcloses, hiff⟩ := hresult
      have hchildren : (t.node n).children = [] :=
        (h.shaped n hn).children_eq_nil (by rw [hembed]; decide)
      refine gives_pure ⟨hcloses, hiff.trans (not_congr ?_)⟩
      rw [exposed_iff h hr, and_iff_right hmarked, hchildren]
      simp [SwallowingList, hembed]
    | none =>
      refine (gives_rule hp hprint hparse ha hn hkind).mono
        fun doc hdoc => ⟨hdoc.1, hdoc.2.trans ?_⟩
      rw [exposed_iff h hr, and_iff_right hmarked, not_or, not_or]
      exact and_congr_right fun _ => (and_iff_right hresult).symm

omit hparse in
theorem gives_node_of_rule {P : Doc → Prop} (hkind : (t.node n).kind ∉ itemKinds)
    (hp : At t place n) (h : (Meaning.rule nested (passJob language t a) print place).Gives P) :
    (Meaning.node nested (passJob language t a) print place n).Gives P := by
  have hmarked : isMarked t a n = false := isMarked_eq_false ha hkind
  have hcontent : (Meaning.content nested (passJob language t a) print place n).Gives P := by
    unfold Meaning.content
    rw [isIgnored_eq hp, hmarked, if_neg Bool.false_ne_true]
    refine gives_bind_iff.mpr ((gives_embedded hnested hp).mono fun result hresult => ?_)
    cases result with
    | some doc => exact absurd (by rw [hresult.1]; decide) hkind
    | none => exact h
  refine gives_bind_iff.mpr (hcontent.mono fun doc hdoc => ?_)
  have haround : around nested (passJob language t a) print place n doc = pure doc :=
    run_surround_eq (Option.some_ne_none _).symm fun _ => ha.placed_eq_nil hkind
  rw [haround]
  exact gives_pure hdoc

omit hnested hparse ha in
theorem given_of_children
    (h : ∀ m ∈ (t.node n).children,
      m < n ∧ (ofNode nested (passJob language t a) m).Gives (Comes t a m)) :
    Given t a n fun place => value nested (passJob language t a) place fun m =>
      if m < n then ofNode nested (passJob language t a) m else { outcome := .error .unbounded } := by
  constructor
  · intro m hm place hplace
    unfold value
    rw [hplace.value]
    dsimp only
    rw [if_pos (h m hm).1]
    exact (h m hm).2
  · intro place content hplace
    unfold value
    rw [hplace]
    exact gives_pure rfl

theorem gives_node_of_item (hr : t.Reaches t.root n) (hkind : (t.node n).kind ∈ itemKinds)
    (hp : At t place n) (hprint : Given t a n print) :
    (Meaning.node nested (passJob language t a) print place n).Gives (Comes t a n) := by
  refine gives_bind_iff.mpr ((gives_content hnested hparse ha hr hkind hp hprint).mono
    fun doc hdoc => ?_)
  have haround : (around nested (passJob language t a) print place n doc).Gives
      fun around => Closes false around ∧ (Separated around.row ↔ Separated doc.row) :=
    gives_surround nofun (fun placement c hc => tells hparse ha hc) hdoc.1
  exact haround.mono fun around haround => .of_closes haround.1 (haround.2.trans hdoc.2)

theorem gives_node_of_quasi (hr : t.Reaches t.root n) (hkind : (t.node n).kind = "Quasi")
    (hp : At t place n) (hprint : Given t a n print) :
    (Meaning.node nested (passJob language t a) print place n).Gives (Comes t a n) := by
  have h := parsed_of_parse hparse
  have hshape := h.shaped_of_reaches hr
  have hnot : ¬ Exposed t a n := by
    rw [exposed_iff h hr, hshape.children_eq_nil (by rw [hkind]; decide)]
    simp [SwallowingList, SwallowingBlock, hkind]
  refine gives_node_of_rule hnested ha (by rw [hkind]; decide) hp ?_
  change ((Toy.rule false (passJob language t a).scene place none).run
    (answer nested (passJob language t a) print)).Gives _
  cases hshape.form with
  | ident kind | embed kind | list kind | template kind | program kind => simp [kind] at hkind
  | @quasi raw _ _ field =>
    simp only [Toy.rule, hp.nodeHere_eq, hkind]
    refine (gives_printField hp hprint field).mono ?_
    rintro _ rfl
    have htexts : true ∉ texts (leaf .owned raw).row := by
      rw [row_leaf]
      split <;> simp [texts]
    refine ⟨settled_of_texts fun hlast => htexts (List.mem_of_getLast? hlast),
      iff_of_true (separated_of_texts htexts) hnot, fun hitem => ?_⟩
    rw [hkind] at hitem
    exact absurd hitem (by decide)

theorem gives_ofNode (hb : t.Below t.root n) :
    (ofNode nested (passJob language t a) n).Gives (Comes t a n) := by
  have h := parsed_of_parse hparse
  induction n using Nat.strongRecOn with
  | ind n ih =>
    have hr : t.Reaches t.root n := .inr hb
    have hchildren : ∀ m ∈ (t.node n).children,
        m < n ∧ (ofNode nested (passJob language t a) m).Gives (Comes t a m) := by
      intro m hm
      have hlt := h.wellNested.earlier n m hm
      exact ⟨hlt, ih m hlt (hr.below_child hm)⟩
    rw [ofNode]
    rcases h.kind_of_below h.root_lt hb with hkind | hkind
    · exact gives_node_of_item hnested hparse ha hr hkind ⟨rfl, rfl⟩ (given_of_children hchildren)
    · exact gives_node_of_quasi hnested hparse ha hr hkind ⟨rfl, rfl⟩ (given_of_children hchildren)

/-- What the root comes to: its items, or else the comments in it. -/
theorem gives_ofRoot : (ofRoot nested (passJob language t a)).Gives fun doc =>
    ((t.node t.root).children = [] → doc = dangling (passJob language t a) t.root) ∧
    ((t.node t.root).children ≠ [] → Closes false doc) ∧
      (Separated doc.row ↔ ¬ Exposed t a t.root) := by
  have h := parsed_of_parse hparse
  have hkind := h.kind_root
  have hshape := h.shaped t.root h.root_lt
  have hexposed : Exposed t a t.root ↔ ∃ d ∈ (t.node t.root).children, Exposed t a d := by
    rw [exposed_iff h (t.reaches_self _), and_iff_right (isMarked_root h ha)]
    simp [SwallowingList, SwallowingBlock, hkind]
  have hitems : ∀ m ∈ (t.node t.root).children, (t.node m).kind ∈ itemKinds := fun m hm =>
    hshape.isItem_of_child (by rw [hkind]; decide) hm
  have hf : (t.node t.root).field? "body" =
      some (.list ((t.node t.root).children.map .node)) := by
    cases hshape.form with
    | ident kind | embed kind | list kind | template kind | quasi kind => simp [kind] at hkind
    | program _ _ field => exact field
  have hchildren : ∀ m ∈ (t.node t.root).children,
      m < t.root ∧ (ofNode nested (passJob language t a) m).Gives (Comes t a m) := fun m hm =>
    ⟨h.wellNested.earlier t.root m hm, gives_ofNode hnested hparse ha (Tree.below_of_child hm)⟩
  have hroot : (ofNode nested (passJob language t a) t.root).Gives fun doc =>
      ((t.node t.root).children = [] → doc = dangling (passJob language t a) t.root) ∧
      ((t.node t.root).children ≠ [] → Closes false doc ∧
        (Separated doc.row ↔ ¬ ∃ d ∈ (t.node t.root).children, Exposed t a d)) := by
    rw [ofNode]
    refine gives_node_of_rule hnested ha (by rw [hkind]; decide) ⟨rfl, rfl⟩ ?_
    change ((Toy.rule false (passJob language t a).scene (.atNode t t.root) none).run
      (answer nested (passJob language t a) _)).Gives _
    have hhere : (Cursor.atNode t t.root).nodeHere = t.node t.root := rfl
    simp only [Toy.rule, hhere, hkind]
    exact gives_programRule ⟨rfl, rfl⟩ (given_of_children hchildren) hparse ha hf hitems
  refine gives_bind_iff.mpr
    (hroot.mono fun doc hdoc => gives_pure ⟨hdoc.1, fun hne => (hdoc.2 hne).1, ?_⟩)
  by_cases hempty : (t.node t.root).children = []
  · refine iff_of_true ?_ ?_
    · rw [hdoc.1 hempty]
      exact separated_dangling _ _
    · rw [hexposed, hempty]
      simp
  · rw [hexposed]
    exact (hdoc.2 hempty).2

end Node

end SourceLayout.Toy
