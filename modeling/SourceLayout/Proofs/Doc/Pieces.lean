import Mathlib.Data.List.Chain
import Mathlib.Data.List.DropRight
import SourceLayout.Proofs.Doc.Plain

/-! # The pieces of a document

Apart from what is held back to the end of a line, a document shows a row of texts and line ends. A
line comment takes up the rest of its line, so its text, a marked one, must not have another text
right behind it. Trimming takes line ends from the end of a row, and may bring texts together.
-/

namespace SourceLayout

/-- A text, marked or not, or the end of a line. -/
inductive Piece
  | text (marked : Bool)
  | lineEnd
  deriving DecidableEq, Repr

namespace Piece

variable {ps qs : List Piece} {m : Bool}

/-- No marked text has another text right behind it. -/
def Separated (ps : List Piece) : Prop := ps.IsChain fun p q => p = .text true → q = .lineEnd

instance (ps : List Piece) : Decidable (Separated ps) :=
  inferInstanceAs (Decidable (ps.IsChain fun p q => p = .text true → q = .lineEnd))

/-- No marked text is at the end. -/
def Settled (ps : List Piece) : Prop := ps.getLast? ≠ some (.text true)

def texts (ps : List Piece) : List Bool :=
  ps.filterMap fun
    | .text m => some m
    | .lineEnd => none

@[simp] theorem texts_append (ps qs : List Piece) : texts (ps ++ qs) = texts ps ++ texts qs :=
  List.filterMap_append

theorem mem_texts_iff : m ∈ texts ps ↔ .text m ∈ ps := by
  rw [texts, List.mem_filterMap]
  constructor
  · rintro ⟨p, hp, hm⟩
    cases p with
    | text m' => rwa [← Option.some.inj hm]
    | lineEnd => cases hm
  · exact fun hp => ⟨_, hp, rfl⟩

theorem texts_lineEnds (h : ∀ p ∈ ps, p = .lineEnd) : texts ps = [] := by
  rw [List.eq_nil_iff_forall_not_mem]
  intro m hm
  cases h _ (mem_texts_iff.mp hm)

theorem separated_append (h : Settled ps) : Separated (ps ++ qs) ↔ Separated ps ∧ Separated qs := by
  rw [Separated, List.isChain_append, ← and_assoc]
  exact and_iff_left fun p hp q _ hmarked => absurd (hmarked ▸ hp) h

theorem Settled.append (hp : Settled ps) (hq : Settled qs) : Settled (ps ++ qs) := by
  rw [Settled, List.getLast?_append]
  cases hlast : qs.getLast? with
  | none => exact hp
  | some q =>
    rw [Settled, hlast] at hq
    exact hq

theorem separated_append_lineEnd :
    Separated (ps ++ .lineEnd :: qs) ↔ Separated ps ∧ Separated qs := by
  have hcons : Separated (.lineEnd :: qs) ↔ Separated qs := by
    rw [Separated, List.isChain_cons]
    exact and_iff_right fun _ _ => nofun
  rw [Separated, List.isChain_append]
  refine and_congr_right fun _ => (and_iff_left ?_).trans hcons
  intro p _ q hq _
  exact (Option.some.inj hq).symm

theorem separated_append_lineEnds (h : ∀ q ∈ qs, q = .lineEnd) :
    Separated (ps ++ qs) ↔ Separated ps := by
  induction qs generalizing ps with
  | nil => rw [List.append_nil]
  | cons q qs ih =>
    rw [List.forall_mem_cons] at h
    rw [h.1, List.append_cons, ih h.2, separated_append_lineEnd]
    exact and_iff_left .nil

theorem separated_concat_text : Separated (ps ++ [.text m]) ↔ Separated ps ∧ Settled ps := by
  rw [Separated, List.isChain_append]
  refine and_congr_right fun _ => ⟨?_, ?_⟩
  · rintro ⟨-, hseam⟩ hlast
    cases hseam _ hlast _ rfl rfl
  · exact fun h => ⟨.singleton _, fun p hp q _ hmarked => absurd (hmarked ▸ hp) h⟩

theorem settled_concat_text : Settled (ps ++ [.text false]) := by
  rw [Settled, List.getLast?_concat]
  nofun

theorem separated_enclosed :
    Separated ([.text false] ++ ps ++ [.text false]) ↔ Separated ps ∧ Settled ps := by
  have hfirst : Settled [.text false] := nofun
  rw [List.append_assoc, separated_append hfirst, separated_concat_text]
  exact and_iff_right (.singleton _)

theorem settled_of_texts (h : (texts ps).getLast? ≠ some true) : Settled ps := by
  intro hlast
  obtain ⟨init, rfl⟩ := List.getLast?_eq_some_iff.mp hlast
  exact h (by simp [texts])

theorem separated_of_texts (h : true ∉ texts ps) : Separated ps := by
  induction ps with
  | nil => exact .nil
  | cons p ps ih =>
    rw [mem_texts_iff, List.mem_cons, not_or] at h
    refine List.isChain_cons.mpr ⟨fun q _ hmarked => absurd hmarked.symm h.1, ih ?_⟩
    rw [mem_texts_iff]
    exact h.2

end Piece

open Piece

namespace Doc

mutual

/-- The texts and forced lines of a document in order, but for what is held back. -/
def pieces (marks : Label → Bool) : Doc → List Piece
  | .append _ left right => pieces marks left ++ pieces marks right
  | .fill _ parts => piecesAll marks parts
  | .group _ body | .indent _ body | .align _ _ body | .measured _ _ body => pieces marks body
  | .line _ kind => if kind.isForced then [.lineEnd] else []
  | .text l _ _ => [.text (marks l)]
  | .nil _ | .breakParent _ | .suffix _ _ | .cursor _ => []

def piecesAll (marks : Label → Bool) : List Doc → List Piece
  | [] => []
  | doc :: docs => pieces marks doc ++ piecesAll marks docs

end

def row (doc : Doc) : List Piece := doc.pieces (· == 1)

mutual

theorem row_bare (s : Store) (marks : Label → Bool) :
    (doc : Doc) → (doc.bare (s.flags marks)).row = doc.pieces marks
  | .append _ left right => by
    rw [pieces, ← row_bare s marks left, ← row_bare s marks right]
    rfl
  | .fill _ parts => by
    rw [pieces, ← piecesAll_bareAll s marks parts]
    rfl
  | .group _ body | .indent _ body | .align _ _ body | .measured _ _ body => by
    rw [pieces, ← row_bare s marks body]
    rfl
  | .text l _ _ => by
    have hl : ((marks l).toNat == 1) = marks l := by cases marks l <;> rfl
    exact congrArg (fun m => [Piece.text m]) hl
  | .nil _ | .line _ _ | .breakParent _ | .suffix _ _ | .cursor _ => rfl

theorem piecesAll_bareAll (s : Store) (marks : Label → Bool) : (docs : List Doc) →
    piecesAll (· == 1) (bareAll (s.flags marks) docs) = piecesAll marks docs
  | [] => rfl
  | doc :: docs => by
    rw [piecesAll, ← row_bare s marks doc, ← piecesAll_bareAll s marks docs]
    rfl

end

section Builders

variable {left right body separator : Doc} {docs : List Doc}

theorem row_of_isNil (h : left.isNil = true) : left.row = [] := by
  cases left with
  | nil => rfl
  | _ => cases h

@[simp] theorem row_append (l : Label) (left right : Doc) :
    (Doc.append l left right).row = left.row ++ right.row := rfl

@[simp] theorem row_joined (left right : Doc) :
    (left.joined right).row = left.row ++ right.row := by
  unfold joined
  split
  · rename_i h
    rw [row_of_isNil h, List.nil_append]
  · split
    · rename_i h
      rw [row_of_isNil h, List.append_nil]
    · rfl

theorem row_foldl_joined (docs : List Doc) (first : Doc) :
    (docs.foldl joined first).row = first.row ++ docs.flatMap row := by
  induction docs generalizing first with
  | nil => simp
  | cons doc docs ih => rw [List.foldl_cons, ih, row_joined, List.append_assoc, List.flatMap_cons]

@[simp] theorem row_joinedAll (docs : List Doc) : (joinedAll docs).row = docs.flatMap row :=
  row_foldl_joined docs (.nil 0)

@[simp] theorem row_grouped (body : Doc) : body.grouped.row = body.row := by
  unfold grouped
  split <;> rfl

@[simp] theorem row_indented (body : Doc) : body.indented.row = body.row := by
  unfold indented
  split <;> rfl

@[simp] theorem row_suffixed (body : Doc) : body.suffixed.row = [] := by
  unfold suffixed
  split
  · rename_i h
    exact row_of_isNil h
  · rfl

theorem row_leaf [TextWidth] (origin : Origin) (content : Text) :
    (leaf origin content).row = if content.isEmpty then [] else [.text false] := by
  unfold leaf
  split
  · rfl
  · split <;> rfl

theorem row_spaced (h : separator.row = []) (docs : List Doc) :
    (spaced docs separator).row = docs.flatMap row := by
  cases docs with
  | nil => rfl
  | cons first docs =>
    have hfold : ∀ first : Doc,
        (docs.foldl (fun soFar doc => (soFar.joined separator).joined doc) first).row =
          first.row ++ docs.flatMap row := by
      induction docs with
      | nil => simp
      | cons doc docs ih =>
        intro first
        rw [List.foldl_cons, ih, row_joined, row_joined, h, List.append_nil, List.append_assoc,
          List.flatMap_cons]
    exact hfold first

theorem texts_spaced (h : texts separator.row = []) (docs : List Doc) :
    texts (spaced docs separator).row = docs.flatMap fun doc => texts doc.row := by
  cases docs with
  | nil => rfl
  | cons first docs =>
    have hfold : ∀ first : Doc,
        texts (docs.foldl (fun soFar doc => (soFar.joined separator).joined doc) first).row =
          texts first.row ++ docs.flatMap fun doc => texts doc.row := by
      induction docs with
      | nil => simp
      | cons doc docs ih =>
        intro first
        rw [List.foldl_cons, ih, row_joined, row_joined, texts_append, texts_append, h,
          List.append_nil, List.append_assoc, List.flatMap_cons]
    exact hfold first

theorem separated_spaced (h : separator.row = [.lineEnd]) (docs : List Doc) :
    Separated (spaced docs separator).row ↔ ∀ doc ∈ docs, Separated doc.row := by
  cases docs with
  | nil => exact iff_of_true .nil nofun
  | cons first docs =>
    have hfold : ∀ first : Doc, Separated
        (docs.foldl (fun soFar doc => (soFar.joined separator).joined doc) first).row ↔
          Separated first.row ∧ ∀ doc ∈ docs, Separated doc.row := by
      induction docs with
      | nil => simp
      | cons doc docs ih =>
        intro first
        rw [List.foldl_cons, ih, row_joined, row_joined, h, List.append_assoc, List.singleton_append,
          separated_append_lineEnd, List.forall_mem_cons, and_assoc]
    rw [List.forall_mem_cons]
    exact hfold first

theorem spaced_concat (hdocs : docs ≠ []) (last separator : Doc) :
    spaced (docs ++ [last]) separator = ((spaced docs separator).joined separator).joined last := by
  obtain ⟨first, docs, rfl⟩ := List.exists_cons_of_ne_nil hdocs
  change List.foldl _ _ (docs ++ [last]) = _
  rw [List.foldl_append]
  rfl

theorem exists_spaced_concat (docs : List Doc) (last separator : Doc) :
    ∃ before : Doc, spaced (docs ++ [last]) separator = before.joined last := by
  cases docs with
  | nil => exact ⟨.nil 0, rfl⟩
  | cons first docs => exact ⟨_, spaced_concat (List.cons_ne_nil _ _) last separator⟩

theorem settled_flatMap (h : ∀ doc ∈ docs, Settled doc.row) : Settled (docs.flatMap row) := by
  induction docs with
  | nil => nofun
  | cons doc docs ih =>
    rw [List.forall_mem_cons] at h
    rw [List.flatMap_cons]
    exact h.1.append (ih h.2)

theorem separated_flatMap (h : ∀ doc ∈ docs, Settled doc.row) :
    Separated (docs.flatMap row) ↔ ∀ doc ∈ docs, Separated doc.row := by
  induction docs with
  | nil => exact iff_of_true .nil nofun
  | cons doc docs ih =>
    rw [List.forall_mem_cons] at h
    rw [List.flatMap_cons, separated_append h.1, ih h.2, List.forall_mem_cons]

end Builders

mutual

theorem row_hardened : (doc : Doc) → doc.hardened.row = doc.row
  | .append _ left right => by
    rw [hardened, row_append, row_hardened left, row_hardened right, row_append]
  | .fill _ parts => piecesAll_hardenedAll parts
  | .group _ body | .indent _ body | .align _ _ body | .measured _ _ body => row_hardened body
  | .text _ _ _ | .nil _ | .line _ _ | .breakParent _ | .suffix _ _ | .cursor _ => rfl

theorem piecesAll_hardenedAll :
    (docs : List Doc) → piecesAll (· == 1) (hardenedAll docs) = piecesAll (· == 1) docs
  | [] => rfl
  | doc :: docs => by
    rw [piecesAll, ← piecesAll_hardenedAll docs]
    exact congrArg (· ++ _) (row_hardened doc)

end

section Trim

variable {doc left right body : Doc} {m : Bool}

theorem trimmed_of_isTrim [TextWidth] (h : doc.isTrim = true) : doc.trimmed = doc := by
  induction doc using inductionOn with
  | step doc ih =>
    cases doc with
    | append l left right =>
      have h : right.isTrim = true ∧ right.isNil = false := by simpa [isTrim] using h
      rw [trimmed, ih right (by simp [operands]) h.1, h.2, if_neg Bool.false_ne_true, if_pos h.1]
    | line l kind =>
      have h : kind.isForced = false := by simpa [isTrim] using h
      rw [trimmed, h, if_neg Bool.false_ne_true]
    | text l origin content =>
      cases origin with
      | owned =>
        rw [trimmed, if_neg]
        simpa [isTrim, bne] using h
      | fixed => rfl
    | group | indent | align => cases h
    | _ => rfl

/-- A sequence is trimmed at its last part if something of that is left. -/
theorem row_trimmed_append [TextWidth] (l : Label) (left right : Doc) :
    (Doc.append l left right).trimmed.row =
      if right.trimmed.isNil then left.trimmed.row else left.row ++ right.trimmed.row := by
  rw [trimmed]
  split
  · rfl
  · split
    · rename_i h
      rw [trimmed_of_isTrim h, row_append]
    · rw [row_joined]

theorem isNil_trimmed_append [TextWidth] (l : Label) (left right : Doc) :
    (Doc.append l left right).trimmed.isNil = (right.trimmed.isNil && left.trimmed.isNil) := by
  rw [trimmed]
  split
  · rename_i h
    rw [h, Bool.true_and]
  · rename_i h
    rw [Bool.not_eq_true] at h
    rw [h, Bool.false_and]
    split
    · rfl
    · unfold joined
      split
      · exact h
      · rw [h]
        rfl

theorem trimmed_hardened [TextWidth] (doc : Doc) : doc.hardened.trimmed.row = doc.trimmed.row ∧
    doc.hardened.trimmed.isNil = doc.trimmed.isNil := by
  induction doc using inductionOn with
  | step doc ih =>
    cases doc with
    | append l left right =>
      obtain ⟨hleft, hleft'⟩ := ih left (by simp [operands])
      obtain ⟨hright, hright'⟩ := ih right (by simp [operands])
      rw [hardened, row_trimmed_append, row_trimmed_append, isNil_trimmed_append,
        isNil_trimmed_append, hleft, hleft', hright, hright', row_hardened]
      exact ⟨rfl, rfl⟩
    | group l body | indent l body | align l shift body =>
      exact ⟨(ih body (by simp [operands])).1, rfl⟩
    | fill l parts => exact ⟨piecesAll_hardenedAll parts, rfl⟩
    | measured l width body => exact ⟨row_hardened body, rfl⟩
    | suffix l body => exact ⟨rfl, rfl⟩
    | nil | line | breakParent | cursor | text => exact ⟨rfl, rfl⟩

/-- Trimming takes only line ends from the row of a document. -/
def Neat [TextWidth] (doc : Doc) : Prop :=
  ∃ ends, doc.row = doc.trimmed.row ++ ends ∧ ∀ p ∈ ends, p = .lineEnd

theorem neat_of_isTrim [TextWidth] (h : doc.isTrim = true) : doc.Neat :=
  ⟨[], by rw [trimmed_of_isTrim h, List.append_nil], nofun⟩

theorem Neat.separated_trimmed [TextWidth] (h : doc.Neat) :
    Separated doc.trimmed.row ↔ Separated doc.row := by
  obtain ⟨ends, hrow, hends⟩ := h
  rw [hrow, separated_append_lineEnds hends]

theorem Neat.joined [TextWidth] (hleft : left.Neat) (hright : right.Neat) :
    (left.joined right).Neat := by
  unfold Doc.joined
  split
  · exact hright
  · split
    · exact hleft
    · obtain ⟨ends, hrow, hends⟩ := hleft
      obtain ⟨ends', hrow', hends'⟩ := hright
      unfold Neat
      rw [row_trimmed_append, row_append]
      split
      · rename_i hnil
        rw [row_of_isNil hnil, List.nil_append] at hrow'
        refine ⟨ends ++ ends', by rw [hrow, hrow', List.append_assoc], fun p hp => ?_⟩
        exact (List.mem_append.mp hp).elim (hends p) (hends' p)
      · exact ⟨ends', by rw [hrow', List.append_assoc], hends'⟩

/-- Trimming takes only line ends from a document, and there is a last text in it. -/
structure Closes [TextWidth] (m : Bool) (doc : Doc) : Prop where
  kept : doc.trimmed.isNil = false
  neat : doc.Neat
  last : (texts doc.row).getLast? = some m

namespace Closes

variable [TextWidth]

theorem texts_trimmed (h : Closes m doc) : (texts doc.trimmed.row).getLast? = some m := by
  obtain ⟨ends, hrow, hends⟩ := h.neat
  rw [← h.last, hrow, texts_append, texts_lineEnds hends, List.append_nil]

theorem settled (h : Closes false doc) : Settled doc.row := by
  refine settled_of_texts ?_
  rw [h.last]
  decide

theorem settled_trimmed (h : Closes false doc) : Settled doc.trimmed.row := by
  refine settled_of_texts ?_
  rw [h.texts_trimmed]
  decide

theorem of_isTrim (h : doc.isTrim = true) (hnil : doc.isNil = false)
    (hlast : (texts doc.row).getLast? = some m) : Closes m doc :=
  ⟨by rw [trimmed_of_isTrim h, hnil], neat_of_isTrim h, hlast⟩

theorem joined_right (h : Closes m right) (left : Doc) : Closes m (left.joined right) := by
  have hlast : (texts (left.row ++ right.row)).getLast? = some m := by
    rw [texts_append, List.getLast?_append, h.last]
    rfl
  unfold joined
  split
  · exact h
  · split
    · rename_i hnil
      have hempty := h.last
      rw [row_of_isNil hnil] at hempty
      cases hempty
    · obtain ⟨ends, hrow, hends⟩ := h.neat
      refine ⟨?_, ⟨ends, ?_, hends⟩, hlast⟩
      · rw [isNil_trimmed_append, h.kept, Bool.false_and]
      · rw [row_trimmed_append, h.kept, if_neg Bool.false_ne_true, row_append, hrow,
          List.append_assoc]

theorem joined_left (h : Closes m left) (hright : right.Neat)
    (htexts : ∀ m' ∈ texts right.row, m' = m) : Closes m (left.joined right) := by
  refine ⟨?_, h.neat.joined hright, ?_⟩
  · unfold joined
    split
    · rename_i hnil
      have hempty := h.last
      rw [row_of_isNil hnil] at hempty
      cases hempty
    · split
      · exact h.kept
      · rw [isNil_trimmed_append, h.kept, Bool.and_false]
  · rw [row_joined, texts_append, List.getLast?_append, h.last]
    cases hlast : (texts right.row).getLast? with
    | none => rfl
    | some m' => exact congrArg some (htexts m' (List.mem_of_getLast? hlast))

theorem grouped (h : Closes m body) : Closes m body.grouped := by
  unfold Doc.grouped
  split
  · exact h
  · exact ⟨rfl, h.neat, h.last⟩

theorem spaced {docs : List Doc} (hne : docs ≠ []) (h : ∀ doc ∈ docs, Closes m doc)
    (separator : Doc) : Closes m (spaced docs separator) := by
  obtain ⟨init, last, rfl⟩ := (List.eq_nil_or_concat' docs).resolve_left hne
  obtain ⟨before, heq⟩ := exists_spaced_concat init last separator
  rw [heq]
  exact (h last (by simp)).joined_right before

end Closes

theorem isTrim_leaf [TextWidth] {origin : Origin} {content : Text}
    (h : origin = .fixed ∨ content.getLast? ≠ some '\n') : (leaf origin content).isTrim = true := by
  unfold leaf
  split
  · rfl
  · split
    · rcases h with rfl | h
      · rfl
      · cases origin with
        | fixed => rfl
        | owned => simpa [isTrim, bne] using h
    · rfl

theorem closes_leaf [TextWidth] {origin : Origin} {content : Text} (hne : content ≠ [])
    (h : origin = .fixed ∨ content.getLast? ≠ some '\n') : Closes false (leaf origin content) := by
  have hempty : content.isEmpty = false := List.isEmpty_eq_false_iff.mpr hne
  refine .of_isTrim (isTrim_leaf h) ?_ ?_
  · rw [leaf, hempty, if_neg Bool.false_ne_true]
    split <;> rfl
  · rw [row_leaf, hempty, if_neg Bool.false_ne_true]
    rfl

/-- A document of nothing but texts without line feeds and forced lines. -/
inductive Strand : Doc → Prop
  | nil (l : Label) : Strand (.nil l)
  | line (l : Label) {kind : LineKind} (h : kind.isForced = true) : Strand (.line l kind)
  | text (l : Label) (origin : Origin) {content : Text} (h : content.getLast? ≠ some '\n') :
    Strand (.text l origin content)
  | measured (l width l' : Label) (origin : Origin) (content : Text) :
    Strand (.measured l width (.text l' origin content))
  | append (l : Label) {left right : Doc} (hleft : Strand left) (hright : Strand right) :
    Strand (.append l left right)

namespace Strand

theorem joined (hleft : left.Strand) (hright : right.Strand) : (left.joined right).Strand := by
  unfold Doc.joined
  split
  · exact hright
  · split
    · exact hleft
    · exact .append 0 hleft hright

theorem spaced {docs : List Doc} {separator : Doc} (hdocs : ∀ doc ∈ docs, doc.Strand)
    (hseparator : separator.Strand) : (spaced docs separator).Strand := by
  cases docs with
  | nil => exact .nil 0
  | cons first docs =>
    rw [List.forall_mem_cons] at hdocs
    have hfold : ∀ first : Doc, first.Strand →
        (docs.foldl (fun soFar doc => (soFar.joined separator).joined doc) first).Strand := by
      obtain ⟨-, hdocs⟩ := hdocs
      induction docs with
      | nil => exact fun _ => id
      | cons doc docs ih =>
        intro first hfirst
        rw [List.forall_mem_cons] at hdocs
        exact ih hdocs.2 _ ((hfirst.joined hseparator).joined hdocs.1)
    exact hfold first hdocs.1

variable [TextWidth]

/-- Trimming a strand takes all line ends from its end, and nothing else. -/
theorem row_trimmed (h : doc.Strand) :
    doc.trimmed.row = doc.row.rdropWhile (· == .lineEnd) ∧
      (doc.trimmed.isNil = true ↔ doc.trimmed.row = []) := by
  induction h with
  | nil l => exact ⟨rfl, iff_of_true rfl rfl⟩
  | @line l kind h =>
    have hrow : (Doc.line l kind).row = [Piece.lineEnd] := if_pos h
    rw [trimmed, if_pos h, hrow]
    exact ⟨rfl, iff_of_true rfl rfl⟩
  | @text l origin content h =>
    have htrim : (Doc.text l origin content).isTrim = true := by
      cases origin with
      | fixed => rfl
      | owned => simpa [isTrim, bne] using h
    rw [trimmed_of_isTrim htrim]
    exact ⟨rfl, iff_of_false Bool.false_ne_true (List.cons_ne_nil _ _)⟩
  | measured l width l' origin content =>
    exact ⟨rfl, iff_of_false Bool.false_ne_true (List.cons_ne_nil _ _)⟩
  | @append l left right _ _ ihleft ihright =>
    rw [row_trimmed_append, isNil_trimmed_append, row_append]
    have hreverse : ∀ ps qs : List Piece, (ps ++ qs).rdropWhile (· == .lineEnd) =
        if (qs.rdropWhile (· == .lineEnd)).isEmpty then ps.rdropWhile (· == .lineEnd)
        else ps ++ qs.rdropWhile (· == .lineEnd) := by
      intro ps qs
      rw [List.rdropWhile, List.reverse_append, List.dropWhile_append, List.rdropWhile,
        List.isEmpty_reverse]
      split
      · rfl
      · rw [List.reverse_append, List.reverse_reverse]
    rw [hreverse, ← ihright.1, ← ihleft.1]
    cases hnil : right.trimmed.isNil with
    | true =>
      rw [ihright.2.mp hnil, Bool.true_and]
      exact ⟨rfl, ihleft.2⟩
    | false =>
      have hne : right.trimmed.row ≠ [] := fun hrow => by
        rw [ihright.2.mpr hrow] at hnil
        cases hnil
      rw [List.isEmpty_eq_false_iff.mpr hne]
      exact ⟨rfl, iff_of_false Bool.false_ne_true fun hrow => hne (List.append_eq_nil_iff.mp hrow).2⟩

theorem neat (h : doc.Strand) : doc.Neat := by
  refine ⟨doc.row.rtakeWhile (· == .lineEnd), ?_, fun p hp => ?_⟩
  · rw [h.row_trimmed.1, List.rdropWhile_append_rtakeWhile]
  · exact beq_iff_eq.mp (List.mem_rtakeWhile_imp (p := (· == Piece.lineEnd)) hp)

theorem closes (h : doc.Strand) (hlast : (texts doc.row).getLast? = some m) : Closes m doc := by
  refine ⟨?_, h.neat, hlast⟩
  obtain ⟨ends, hrow, hends⟩ := h.neat
  rw [Bool.eq_false_iff]
  intro hnil
  rw [hrow, row_of_isNil hnil, List.nil_append, texts_lineEnds hends] at hlast
  cases hlast

theorem getLast?_trimmed (h : doc.Strand) (hlast : (texts doc.row).getLast? = some m) :
    doc.trimmed.row.getLast? = some (.text m) := by
  have htexts := (h.closes hlast).texts_trimmed
  rw [h.row_trimmed.1] at htexts ⊢
  have hne : doc.row.rdropWhile (· == .lineEnd) ≠ [] := by
    intro hempty
    rw [hempty] at htexts
    cases htexts
  have hend := List.rdropWhile_last_not (· == Piece.lineEnd) doc.row hne
  rw [List.getLast?_eq_some_getLast hne]
  generalize hp : (doc.row.rdropWhile (· == .lineEnd)).getLast hne = p at hend
  cases p with
  | lineEnd => simp at hend
  | text m' =>
    obtain ⟨init, hinit⟩ := List.getLast?_eq_some_iff.mp
      ((List.getLast?_eq_some_getLast hne).trans (congrArg some hp))
    rw [hinit, texts_append, List.getLast?_append] at htexts
    exact congrArg (fun b => some (Piece.text b)) (Option.some.inj htexts)

end Strand

end Trim

end Doc

end SourceLayout
