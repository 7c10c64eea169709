import Mathlib.Data.List.ModifyLast
import SourceLayout.Proofs.Doc.Pieces

/-! # What trimming takes away

The course of a document lists its leaves in order, with the layers around each of them, and also
the places where a layer begins. Trimming works on the course from its end: it drops forced lines
and line feeds of owned texts up to the first spot that is anything else. So it takes nothing else
away, and a second time it changes nothing. The beginning of a layer stops it as well, though, and
so does a fixed or measured text, and a break in front of these is left at the end of the document.
-/

namespace SourceLayout

/-- The documents that builders have made in a store, the latest first. In between, breaks may have
been spread through some of them. -/
inductive Built [TextWidth] : Store → List Doc → Prop
  | none : Built {} []
  | build {s : Store} {docs : List Doc} (c : Construction Doc) (hc : ∀ y ∈ c.operands, y ∈ docs)
    (h : Built s docs) : Built (c.build.run s).2 ((c.build.run s).1 :: docs)
  | spread {s : Store} {docs : List Doc} {doc : Doc} (hdoc : doc ∈ docs) (h : Built s docs) :
    Built ((spreadBreaks doc).run s).2 docs

/-- A document of a store without its labels, each group with its flag. -/
def Store.shape (s : Store) (doc : Doc) : Doc := doc.bare (s.flags fun _ => false)

namespace Built

variable {s s' : Store} {docs : List Doc} {doc trimmed : Doc}

variable [TextWidth]

theorem exists_issued (h : Built s docs) :
    ∃ known, Issued known s ∧ ∀ doc ∈ docs, known doc := by
  induction h with
  | none => exact ⟨fun _ => False, .none _, nofun⟩
  | build c hc h ih =>
    obtain ⟨known, hissued, hdocs⟩ := ih
    obtain ⟨known', hgrows, hissued', hdoc⟩ :=
      Construction.issues_build (fun y hy => hdocs y (hc y hy)) _ hissued
    refine ⟨known', hissued', ?_⟩
    rintro y (_ | ⟨_, hy⟩)
    · exact hdoc
    · exact hgrows y (hdocs y hy)
  | spread hdoc h ih =>
    obtain ⟨known, hissued, hdocs⟩ := ih
    obtain ⟨known', hgrows, hissued', -⟩ := issues_spreadBreaks (hdocs _ hdoc) _ hissued
    exact ⟨known', hissued', fun y hy => hgrows y (hdocs y hy)⟩

theorem isGraph (h : Built s docs) (hdoc : doc ∈ docs) : doc.IsGraph := by
  obtain ⟨known, hissued, hdocs⟩ := h.exists_issued
  exact hissued.isGraph (hdocs doc hdoc)

theorem has (h : Built s docs) (hdoc : doc ∈ docs) : s.Has doc := by
  obtain ⟨known, hissued, hdocs⟩ := h.exists_issued
  exact hissued.has (hdocs doc hdoc)

theorem clean (h : Built s docs) : s.Clean fun _ => false := by
  induction h with
  | none => rintro l (hl | hl) <;> cases hl
  | build c hc h ih =>
    apply Makes.clean
    exact Construction.makes_build ih fun y hy => ⟨h.has (hc y hy), h.isGraph (hc y hy)⟩
  | @spread s docs doc hdoc h ih =>
    have hgrows : Store.Grows {} s := ⟨Nat.zero_le _, fun l hl => absurd hl (Nat.not_lt_zero l)⟩
    exact (grows_spreadBreaks (h.isGraph hdoc) ih (h.has hdoc) hgrows fun _ _ _ => Nat.zero_le _).2

/-- Trimming a built document is a function of its shape. -/
theorem makes_trimEnd (h : Built s docs) (hdoc : doc ∈ docs) :
    Makes (fun _ => false) s (Build.trimEnd doc) (s.shape doc).trimmed :=
  (Build.trims_trimEnd h.clean (h.has hdoc) (h.isGraph hdoc)).makes

theorem shape_trimEnd (h : Built s docs) (hdoc : doc ∈ docs)
    (hrun : (Build.trimEnd doc).run s = (trimmed, s')) :
    s'.shape trimmed = (s.shape doc).trimmed := by
  have hlooks := (h.makes_trimEnd hdoc).looks
  rwa [hrun] at hlooks

theorem of_build (h : Built s docs) (c : Construction Doc) (hc : ∀ y ∈ c.operands, y ∈ docs)
    (hrun : c.build.run s = (doc, s')) : Built s' (doc :: docs) := by
  have hbuilt := h.build c hc
  rwa [hrun] at hbuilt

theorem trimEnd (h : Built s docs) (hdoc : doc ∈ docs)
    (hrun : (Build.trimEnd doc).run s = (trimmed, s')) : Built s' (trimmed :: docs) :=
  h.of_build (.trimEnd doc) (by simpa [Construction.operands] using hdoc) hrun

end Built

inductive Layer
  | group (broken : Bool)
  | indent
  | align (shift : Shift)
  deriving DecidableEq, Repr

/-- A spot in a document, with the layers around it from the outside in: a leaf, or none where the
innermost layer begins. -/
structure Spot where
  layers : List Layer
  doc? : Option Doc

namespace Spot

def within (layer : Layer) (x : Spot) : Spot := { x with layers := layer :: x.layers }

def layered (layer : Layer) (xs : List Spot) : List Spot := (⟨[], none⟩ :: xs).map (within layer)

end Spot

/-- A leaf and the layers around it, from the outside in. -/
structure Leaf where
  layers : List Layer
  doc : Doc

namespace Doc

/-- The spots of a document without labels, in order. Sequences and empty documents have none of
their own. -/
def course : Doc → List Spot
  | .nil _ => []
  | .append _ left right => left.course ++ right.course
  | .group l body => Spot.layered (.group (l == 1)) body.course
  | .indent _ body => Spot.layered .indent body.course
  | .align _ shift body => Spot.layered (.align shift) body.course
  | doc => [⟨[], some doc⟩]

def isLeaf : Doc → Bool
  | .nil _ | .append _ _ _ | .group _ _ | .indent _ _ | .align _ _ _ => false
  | _ => true

def core : Doc → Doc
  | .measured _ _ body => body
  | doc => doc

/-- Whether trimming removes a leaf: forced lines, and owned texts of line feeds only. -/
def clears : Doc → Bool
  | .line _ kind => kind.isForced
  | .text _ .owned content => !content.isEmpty && content.all (· == '\n')
  | _ => false

/-- Whether a leaf ends a line: a forced line, or a text that ends with a line feed. -/
def isBreak : Doc → Bool
  | .line _ kind => kind.isForced
  | .text _ _ content => content.getLast? == some '\n'
  | _ => false

/-- Whether a leaf is a text that trimming does not look into. -/
def isSealed : Doc → Bool
  | .text _ .fixed _ | .measured _ _ _ => true
  | _ => false

end Doc

namespace Spot

def clears (x : Spot) : Bool := x.doc?.any Doc.clears

def trimmed [TextWidth] (x : Spot) : Spot := { x with doc? := x.doc?.map Doc.trimmed }

def leaf? (x : Spot) : Option Leaf := x.doc?.map fun doc => ⟨x.layers, doc.core⟩

/-- The spots without those at the end that clear, and the last one that is left trimmed. -/
def trimAll [TextWidth] (xs : List Spot) : List Spot := (xs.rdropWhile clears).modifyLast trimmed

end Spot

def Doc.leaves (doc : Doc) : List Leaf := doc.course.filterMap Spot.leaf?

namespace Spot

variable {x : Spot}

variable [TextWidth]

theorem trimAll_concat_of_clears (xs : List Spot) (hx : x.clears = true) :
    trimAll (xs ++ [x]) = trimAll xs := by
  rw [trimAll, trimAll, List.rdropWhile_concat_pos clears xs x hx]

theorem trimAll_concat (xs : List Spot) (hx : x.clears = false) :
    trimAll (xs ++ [x]) = xs ++ [x.trimmed] := by
  rw [trimAll, List.rdropWhile_concat_neg clears xs x (by simp [hx]), List.modifyLast_concat]

theorem trimAll_append (xs ys : List Spot) :
    trimAll (xs ++ ys) = if trimAll ys = [] then trimAll xs else xs ++ trimAll ys := by
  induction ys using List.reverseRecOn with
  | nil =>
    have hnil : trimAll [] = [] := rfl
    rw [List.append_nil, if_pos hnil]
  | append_singleton ys y ih =>
    rw [← List.append_assoc]
    cases hy : y.clears with
    | true => rw [trimAll_concat_of_clears _ hy, trimAll_concat_of_clears _ hy, ih]
    | false =>
      rw [trimAll_concat _ hy, trimAll_concat _ hy, if_neg (by simp), List.append_assoc]

theorem trimAll_append_of_clears (xs : List Spot) {cut : List Spot}
    (hcut : ∀ y ∈ cut, y.clears = true) :
    trimAll (xs ++ cut) = trimAll xs := by
  have hnil : trimAll cut = [] := by
    rw [trimAll, List.rdropWhile_eq_nil_iff.mpr hcut]
    rfl
  rw [trimAll_append, if_pos hnil]

theorem trimAll_cases (xs : List Spot) :
    ((∀ x ∈ xs, x.clears = true) ∧ trimAll xs = []) ∨
      ∃ init x cut, xs = init ++ x :: cut ∧ x.clears = false ∧ (∀ y ∈ cut, y.clears = true) ∧
        trimAll xs = init ++ [x.trimmed] := by
  induction xs using List.reverseRecOn with
  | nil => exact .inl ⟨nofun, rfl⟩
  | append_singleton xs y ih =>
    cases hy : y.clears with
    | false => exact .inr ⟨xs, y, [], rfl, hy, nofun, trimAll_concat xs hy⟩
    | true =>
      rw [trimAll_concat_of_clears xs hy]
      obtain ⟨hxs, hnil⟩ | ⟨init, x, cut, rfl, hx, hcut, htrim⟩ := ih
      · exact .inl ⟨List.forall_mem_append.mpr ⟨hxs, by simpa using hy⟩, hnil⟩
      · refine .inr ⟨init, x, cut ++ [y], by simp, hx, ?_, htrim⟩
        exact List.forall_mem_append.mpr ⟨hcut, by simpa using hy⟩

theorem trimAll_layered (layer : Layer) (xs : List Spot) :
    trimAll (layered layer xs) = layered layer (trimAll xs) := by
  induction xs using List.reverseRecOn with
  | nil => exact trimAll_concat [] rfl
  | append_singleton xs x ih =>
    have hlayered : ∀ y, layered layer (xs ++ [y]) = layered layer xs ++ [y.within layer] := by
      simp [layered]
    have hclears : (x.within layer).clears = x.clears := rfl
    rw [hlayered]
    cases hx : x.clears with
    | true => rw [trimAll_concat_of_clears _ (hclears.trans hx), trimAll_concat_of_clears _ hx, ih]
    | false =>
      rw [trimAll_concat _ (hclears.trans hx), trimAll_concat _ hx, hlayered]
      rfl

end Spot

namespace Doc

variable {doc left right : Doc}

theorem course_of_isNil (h : doc.isNil = true) : doc.course = [] := by
  cases doc with
  | nil l => rfl
  | _ => cases h

theorem course_joined (left right : Doc) :
    (left.joined right).course = left.course ++ right.course := by
  unfold joined
  split
  · rename_i hleft
    rw [course_of_isNil hleft, List.nil_append]
  · split
    · rename_i hright
      rw [course_of_isNil hright, List.append_nil]
    · rfl

theorem course_leaf [TextWidth] (origin : Origin) (content : Text) :
    (leaf origin content).course =
      if content.isEmpty then [] else [⟨[], some (leaf origin content)⟩] := by
  unfold leaf
  split
  · rfl
  · split <;> rfl

theorem course_trimmed_append [TextWidth] (l : Label) (left right : Doc) :
    (Doc.append l left right).trimmed.course =
      if right.trimmed.isNil then left.trimmed.course else left.course ++ right.trimmed.course := by
  rw [trimmed]
  split
  · rfl
  · split
    · rename_i h
      rw [trimmed_of_isTrim h, course]
    · exact course_joined left right.trimmed

theorem course_trimmed_eq_nil_iff [TextWidth] (doc : Doc) :
    doc.trimmed.course = [] ↔ doc.trimmed.isNil = true := by
  induction doc using inductionOn with
  | step doc ih =>
    refine ⟨fun h => ?_, course_of_isNil⟩
    cases doc with
    | append l left right =>
      rw [course_trimmed_append] at h
      rw [isNil_trimmed_append]
      split at h
      · rename_i hright
        rw [hright, (ih left (by simp [operands])).mp h, Bool.and_self]
      · rename_i hright
        exact absurd ((ih right (by simp [operands])).mp (List.append_eq_nil_iff.mp h).2) hright
    | line l kind =>
      rw [trimmed] at h ⊢
      split at h
      · rw [if_pos ‹_›]
        rfl
      · cases h
    | text l origin content =>
      cases origin with
      | fixed => cases h
      | owned =>
        rw [trimmed] at h ⊢
        split at h
        · rw [course_leaf] at h
          rw [if_pos ‹_›, leaf]
          split at h
          · rw [if_pos ‹_›]
            rfl
          · cases h
        · cases h
    | nil => rfl
    | _ => cases h

/-- What becomes of a leaf: it is removed, or stays as it is, or loses line feeds at its end. -/
inductive TrimmedLeaf [TextWidth] : Doc → Doc → Prop
  | cleared {doc : Doc} (h : doc.clears = true) : TrimmedLeaf doc (.nil 0)
  | kept {doc : Doc} (h : doc.clears = false)
    (hbreak : doc.core.isBreak = true → doc.isSealed = true) : TrimmedLeaf doc doc
  | shortened {l : Label} {content feeds : Text} (hne : content ≠ [])
    (hlast : content.getLast? ≠ some '\n') (hfeeds : ∀ c ∈ feeds, c = '\n') :
    TrimmedLeaf (.text l .owned (content ++ feeds)) (leaf .owned content)

theorem trimmedLeaf_owned [TextWidth] (l : Label) (content : Text) :
    TrimmedLeaf (.text l .owned content) (Doc.text l .owned content).trimmed := by
  rw [trimmed]
  split
  · rename_i hend
    have hne : content ≠ [] := by
      rintro rfl
      cases hend
    have hsplit : content.dropEndWhile (· == '\n') ++ content.rtakeWhile (· == '\n') = content :=
      List.rdropWhile_append_rtakeWhile
    by_cases hkept : content.dropEndWhile (· == '\n') = []
    · rw [hkept]
      apply TrimmedLeaf.cleared
      have hall : ∀ c ∈ content, (c == '\n') = true := List.rdropWhile_eq_nil_iff.mp hkept
      simpa [clears, hne] using hall
    · have hshort : TrimmedLeaf (.text l .owned (content.dropEndWhile (· == '\n') ++
          content.rtakeWhile (· == '\n'))) (leaf .owned (content.dropEndWhile (· == '\n'))) := by
        apply TrimmedLeaf.shortened hkept
        · intro hlast
          rw [List.getLast?_eq_some_getLast hkept, Option.some_inj] at hlast
          exact List.rdropWhile_last_not _ _ hkept (beq_iff_eq.mpr hlast)
        · intro c hc
          exact beq_iff_eq.mp (List.mem_rtakeWhile_imp (p := (· == '\n')) hc)
      rwa [hsplit] at hshort
  · rename_i hend
    apply TrimmedLeaf.kept
    · rw [Bool.eq_false_iff]
      intro hclears
      simp only [clears, Bool.and_eq_true, Bool.not_eq_true', List.isEmpty_eq_false_iff,
        List.all_eq_true] at hclears
      apply hend
      rw [List.getLast?_eq_some_getLast hclears.1]
      exact hclears.2 _ (List.getLast_mem hclears.1)
    · intro hbreak
      exact absurd hbreak hend

theorem trimmedLeaf_trimmed [TextWidth] (h : doc.isLeaf = true) : TrimmedLeaf doc doc.trimmed := by
  cases doc with
  | line l kind =>
    rw [trimmed]
    cases hkind : kind.isForced with
    | true => exact .cleared hkind
    | false => exact .kept hkind fun hbreak => absurd (hkind.symm.trans hbreak) Bool.false_ne_true
  | text l origin content =>
    cases origin with
    | owned => exact trimmedLeaf_owned l content
    | fixed => exact .kept rfl fun _ => rfl
  | measured l width body => exact .kept rfl fun _ => rfl
  | fill | breakParent | suffix | cursor =>
    exact .kept rfl fun hbreak => absurd hbreak Bool.false_ne_true
  | nil | append | group | indent | align => cases h

theorem course_of_isLeaf (h : doc.isLeaf = true) : doc.course = [⟨[], some doc⟩] := by
  cases doc with
  | nil | append | group | indent | align => cases h
  | _ => rfl

theorem isLeaf_leaf [TextWidth] {origin : Origin} {content : Text} (h : content ≠ []) :
    (leaf origin content).isLeaf = true := by
  rw [leaf, if_neg (by simpa using h)]
  split <;> rfl

theorem core_leaf [TextWidth] {origin : Origin} {content : Text} (h : content ≠ []) :
    (leaf origin content).core = .text 0 origin content := by
  rw [leaf, if_neg (by simpa using h)]
  split <;> rfl

theorem isLeaf_of_mem_course {x : Spot} (hx : x ∈ doc.course) {y : Doc} (hy : y ∈ x.doc?) :
    y.isLeaf = true := by
  induction doc using inductionOn generalizing x with
  | step doc ih =>
    have hlayered : ∀ layer body, body ∈ doc.operands → x ∈ Spot.layered layer body.course →
        y.isLeaf = true := by
      intro layer body hbody hx
      obtain ⟨z, hz, rfl⟩ := List.mem_map.mp hx
      rcases List.mem_cons.mp hz with rfl | hz
      · cases hy
      · exact ih body hbody hz hy
    cases doc with
    | append l left right =>
      rcases List.mem_append.mp hx with hx | hx
      · exact ih left (by simp [operands]) hx hy
      · exact ih right (by simp [operands]) hx hy
    | group l body | indent l body | align l shift body =>
      exact hlayered _ body (List.mem_singleton_self body) hx
    | nil => cases hx
    | _ =>
      obtain rfl := List.mem_singleton.mp hx
      obtain rfl := Option.some.inj hy
      rfl

theorem clears_shortened {l : Label} {content feeds : Text} (hne : content ≠ [])
    (hlast : content.getLast? ≠ some '\n') :
    (Doc.text l .owned (content ++ feeds)).clears = false := by
  rw [Bool.eq_false_iff]
  intro hclears
  simp only [clears, Bool.and_eq_true, List.all_eq_true] at hclears
  apply hlast
  rw [List.getLast?_eq_some_getLast hne]
  exact congrArg some (beq_iff_eq.mp (hclears.2 _ (List.mem_append_left _ (List.getLast_mem hne))))

variable [TextWidth]

theorem course_trimmed_of_isLeaf (h : doc.isLeaf = true) :
    doc.trimmed.course = Spot.trimAll doc.course := by
  have hcourse : doc.course = [] ++ [⟨[], some doc⟩] := course_of_isLeaf h
  have hclears : (Spot.mk [] (some doc)).clears = doc.clears := rfl
  have htrimmed : (Spot.mk [] (some doc)).trimmed = ⟨[], some doc.trimmed⟩ := rfl
  have hleaf := trimmedLeaf_trimmed h
  rw [hcourse]
  generalize doc.trimmed = result at hleaf htrimmed ⊢
  cases hleaf with
  | cleared hdoc =>
    rw [Spot.trimAll_concat_of_clears _ (hclears.trans hdoc)]
    rfl
  | kept hdoc hbreak =>
    rw [Spot.trimAll_concat _ (hclears.trans hdoc), htrimmed]
    exact course_of_isLeaf h
  | shortened hne hlast hfeeds =>
    rw [Spot.trimAll_concat _ (hclears.trans (clears_shortened hne hlast)), htrimmed]
    exact course_of_isLeaf (isLeaf_leaf hne)

/-- Trimming a document trims its course. -/
theorem course_trimmed (doc : Doc) : doc.trimmed.course = Spot.trimAll doc.course := by
  induction doc using inductionOn with
  | step doc ih =>
    cases doc with
    | append l left right =>
      have hleft := ih left (by simp [operands])
      have hright := ih right (by simp [operands])
      rw [course_trimmed_append, course, Spot.trimAll_append, ← hright, ← hleft]
      exact if_congr (course_trimmed_eq_nil_iff right).symm rfl rfl
    | group l body | indent l body | align l shift body =>
      have hbody := ih body (by simp [operands])
      rw [trimmed, course, course, Spot.trimAll_layered, hbody]
    | nil => rfl
    | _ => exact course_trimmed_of_isLeaf rfl

theorem trimmed_leaf {content : Text} (h : content.getLast? ≠ some '\n') :
    (leaf .owned content).trimmed = leaf .owned content :=
  trimmed_of_isTrim (isTrim_leaf (.inr h))

theorem trimmed_trimmed_of_isLeaf (h : doc.isLeaf = true) : doc.trimmed.trimmed = doc.trimmed := by
  have hleaf := trimmedLeaf_trimmed h
  generalize hresult : doc.trimmed = result at hleaf ⊢
  cases hleaf with
  | cleared hclears => rfl
  | kept hclears hbreak => exact hresult
  | shortened hne hlast hfeeds => exact trimmed_leaf hlast

/-- A document that was trimmed stays as it is when it is trimmed again. -/
theorem trimmed_trimmed (doc : Doc) : doc.trimmed.trimmed = doc.trimmed := by
  induction doc using inductionOn with
  | step doc ih =>
    cases doc with
    | append l left right =>
      have hleft := ih left (by simp [operands])
      have hright := ih right (by simp [operands])
      rw [trimmed]
      split
      · exact hleft
      · rename_i hnil
        split
        · rename_i htrim
          exact trimmed_of_isTrim (by simpa [isTrim, trimmed_of_isTrim htrim, htrim] using hnil)
        · by_cases hleft : left.isNil = true
          · rw [joined, if_pos hleft]
            exact hright
          · have hjoined : left.joined right.trimmed = .append 0 left right.trimmed := by
              rw [joined, if_neg hleft, if_neg hnil]
            rw [hjoined, trimmed, hright, if_neg hnil, hjoined, ite_self]
    | group l body | indent l body | align l shift body =>
      rw [trimmed, trimmed, ih body (by simp [operands])]
    | nil => rfl
    | _ => exact trimmed_trimmed_of_isLeaf rfl

end Doc

/-- Of the leaves, some at the end are cut off that trimming removes, and the last of the others may
lose line feeds if it is an owned text. -/
def CutOff (before after : List Leaf) : Prop :=
  ∃ kept cut, before = kept ++ cut ∧ (∀ x ∈ cut, x.doc.clears = true) ∧
    (after = kept ∨ ∃ init layers l l' content feeds,
      kept = init ++ [⟨layers, .text l .owned (content ++ feeds)⟩] ∧
      after = init ++ [⟨layers, .text l' .owned content⟩] ∧ content ≠ [] ∧ ∀ c ∈ feeds, c = '\n')

namespace Doc

variable {doc : Doc}

theorem core_of_clears (h : doc.clears = true) : doc.core = doc := by
  cases doc with
  | measured => cases h
  | _ => rfl

theorem clears_of_mem_leaves {cut : List Spot} (hcut : ∀ y ∈ cut, y.clears = true) :
    ∀ x ∈ cut.filterMap Spot.leaf?, x.doc.clears = true := by
  intro x hx
  obtain ⟨y, hy, hleaf⟩ := List.mem_filterMap.mp hx
  obtain ⟨d, hd, rfl⟩ := Option.map_eq_some_iff.mp hleaf
  have hclears := hcut y hy
  rw [Spot.clears, hd, Option.any_some] at hclears
  rwa [core_of_clears hclears]

/-- Trimming cuts leaves off at the end. -/
theorem cutOff_trimmed [TextWidth] (doc : Doc) : CutOff doc.leaves doc.trimmed.leaves := by
  rw [leaves, leaves, course_trimmed]
  obtain ⟨hclears, htrim⟩ | ⟨init, ⟨layers, doc?⟩, cut, hcourse, hx, hcut, htrim⟩ :=
    Spot.trimAll_cases doc.course
  · exact ⟨[], _, rfl, clears_of_mem_leaves hclears, .inl (by rw [htrim]; rfl)⟩
  · refine ⟨(init ++ [Spot.mk layers doc?]).filterMap Spot.leaf?, cut.filterMap Spot.leaf?, ?_,
      clears_of_mem_leaves hcut, ?_⟩
    · rw [hcourse, ← List.filterMap_append, List.append_assoc, List.singleton_append]
    · rw [htrim, List.filterMap_append, List.filterMap_append]
      cases doc? with
      | none => exact .inl rfl
      | some d =>
        have hspot : Spot.mk layers (some d) ∈ doc.course := by simp [hcourse]
        have hleaf := trimmedLeaf_trimmed (isLeaf_of_mem_course hspot rfl)
        have htrimmed : (Spot.mk layers (some d)).trimmed = ⟨layers, some d.trimmed⟩ := rfl
        rw [htrimmed]
        generalize d.trimmed = result at hleaf
        cases hleaf with
        | cleared h => exact absurd (hx.symm.trans h) Bool.false_ne_true
        | kept h hbreak => exact .inl rfl
        | @shortened l content feeds hne hlast hfeeds =>
          have hcore : (Spot.mk layers (some (leaf .owned content))).leaf? =
              some ⟨layers, .text 0 .owned content⟩ := by
            rw [Spot.leaf?, Option.map_some, core_leaf hne]
          refine .inr ⟨init.filterMap Spot.leaf?, layers, l, 0, content, feeds, rfl, ?_, hne, hfeeds⟩
          rw [List.filterMap_cons_some hcore, List.filterMap_nil]

/-- The last leaf ends a line. -/
def EndsInBreak (doc : Doc) : Prop := ∃ x ∈ doc.leaves.getLast?, x.doc.isBreak = true

/-- After a break come only spots that clear, apart from the beginnings of layers right behind the
break. If there are such, or if the break is a text that trimming does not look into, trimming stops
short of it. -/
def SparesBreak (doc : Doc) : Prop :=
  ∃ before x openings cut, doc.course = before ++ x :: (openings ++ cut) ∧
    (∀ y ∈ openings, y.doc? = none) ∧ (∀ y ∈ cut, y.clears = true) ∧
    ∃ d ∈ x.doc?, d.core.isBreak = true ∧ (openings = [] → d.isSealed = true)

theorem endsInBreak_iff :
    doc.EndsInBreak ↔ ∃ before x openings, doc.course = before ++ x :: openings ∧
    (∀ y ∈ openings, y.doc? = none) ∧ ∃ d ∈ x.doc?, d.core.isBreak = true := by
  have hnone : ∀ y : Spot, y.leaf? = none ↔ y.doc? = none := fun y => Option.map_eq_none_iff
  constructor
  · rintro ⟨leaf, hlast, hbreak⟩
    obtain ⟨init, hleaves⟩ := List.getLast?_eq_some_iff.mp hlast
    obtain ⟨before, rest, hcourse, -, hrest⟩ := List.filterMap_eq_append_iff.mp hleaves
    obtain ⟨between, x, openings, rfl, -, hx, hopenings⟩ := List.filterMap_eq_cons_iff.mp hrest
    obtain ⟨d, hd, rfl⟩ := Option.map_eq_some_iff.mp hx
    refine ⟨before ++ between, x, openings, by rw [hcourse, List.append_assoc], ?_, d, hd, hbreak⟩
    exact fun y hy => (hnone y).mp (List.filterMap_eq_nil_iff.mp hopenings y hy)
  · rintro ⟨before, x, openings, hcourse, hopenings, d, hd, hbreak⟩
    have hx : x.leaf? = some ⟨x.layers, d.core⟩ := Option.map_eq_some_iff.mpr ⟨d, hd, rfl⟩
    have hnil : openings.filterMap Spot.leaf? = [] :=
      List.filterMap_eq_nil_iff.mpr fun y hy => (hnone y).mpr (hopenings y hy)
    refine ⟨⟨x.layers, d.core⟩, List.getLast?_eq_some_iff.mpr ⟨before.filterMap Spot.leaf?, ?_⟩, hbreak⟩
    rw [leaves, hcourse, List.filterMap_append, List.filterMap_cons_some hx, hnil]

end Doc

theorem Spot.trimAll_concat_of_isSealed [TextWidth] (xs : List Spot) {x : Spot}
    (h : ∀ d ∈ x.doc?, d.isSealed = true) : trimAll (xs ++ [x]) = xs ++ [x] := by
  have hstop : x.clears = false ∧ x.trimmed = x := by
    obtain ⟨layers, doc?⟩ := x
    cases doc? with
    | none => exact ⟨rfl, rfl⟩
    | some d =>
      have hsealed := h d rfl
      cases d with
      | text l origin content =>
        cases origin with
        | owned => cases hsealed
        | fixed => exact ⟨rfl, rfl⟩
      | measured => exact ⟨rfl, rfl⟩
      | _ => cases hsealed
  rw [trimAll_concat xs hstop.1, hstop.2]

theorem Doc.TrimmedLeaf.isSealed [TextWidth] {doc result : Doc} (h : TrimmedLeaf doc result)
    (hclears : doc.clears = false) (hbreak : result.core.isBreak = true) :
    doc.isSealed = true ∧ result = doc := by
  cases h with
  | cleared h => exact absurd (hclears.symm.trans h) Bool.false_ne_true
  | kept _ hseal => exact ⟨hseal hbreak, rfl⟩
  | shortened hne hlast hfeeds =>
    rw [core_leaf hne] at hbreak
    exact absurd (beq_iff_eq.mp hbreak) hlast

/-- Trimming leaves a break at the end just where the document spares one. -/
theorem Doc.endsInBreak_trimmed_iff [TextWidth] (doc : Doc) :
    doc.trimmed.EndsInBreak ↔ doc.SparesBreak := by
  rw [endsInBreak_iff, course_trimmed]
  constructor
  · rintro ⟨before, x, openings, hcourse, hopenings, d, hd, hbreak⟩
    obtain ⟨-, htrim⟩ | ⟨init, y, cut, hsplit, hy, hcut, htrim⟩ := Spot.trimAll_cases doc.course
    · rw [htrim] at hcourse
      cases before <;> cases hcourse
    · rw [htrim] at hcourse
      rcases List.eq_nil_or_concat' openings with rfl | ⟨openings, z, rfl⟩
      · obtain ⟨rfl, rfl⟩ : init = before ∧ y.trimmed = x := by simpa using hcourse
        obtain ⟨d₀, hd₀, rfl⟩ := Option.map_eq_some_iff.mp hd
        have hspot : y ∈ doc.course := by simp [hsplit]
        have hclears : d₀.clears = false := by rwa [Spot.clears, hd₀, Option.any_some] at hy
        obtain ⟨hsealed, hsame⟩ :=
          (trimmedLeaf_trimmed (isLeaf_of_mem_course hspot hd₀)).isSealed hclears hbreak
        rw [hsame] at hbreak
        exact ⟨init, y, [], cut, hsplit, nofun, hcut, d₀, hd₀, hbreak, fun _ => hsealed⟩
      · rw [← List.cons_append, ← List.append_assoc] at hcourse
        obtain ⟨rfl, hz⟩ := List.append_inj' hcourse rfl
        obtain rfl := List.singleton_inj.mp hz
        have hnone : y.doc? = none := Option.map_eq_none_iff.mp (hopenings y.trimmed (by simp))
        have hsame : y.trimmed = y := by rw [Spot.trimmed, hnone, Option.map_none, ← hnone]
        rw [hsame] at hopenings
        exact ⟨before, x, openings ++ [y], cut, by simp [hsplit], hopenings, hcut, d, hd, hbreak, by simp⟩
  · rintro ⟨before, x, openings, cut, hcourse, hopenings, hcut, d, hd, hbreak, hsealed⟩
    refine ⟨before, x, openings, ?_, hopenings, d, hd, hbreak⟩
    rw [hcourse, ← List.cons_append, ← List.append_assoc, Spot.trimAll_append_of_clears _ hcut]
    rcases List.eq_nil_or_concat' openings with rfl | ⟨openings, z, rfl⟩
    · apply Spot.trimAll_concat_of_isSealed
      rintro _ hd'
      obtain rfl := Option.mem_unique hd hd'
      exact hsealed rfl
    · rw [← List.cons_append, ← List.append_assoc]
      apply Spot.trimAll_concat_of_isSealed
      simp [hopenings z (by simp)]

/-- A built document still ends a line after trimming if it has a break that is followed by
beginnings of layers, or that is a fixed or measured text, and then only by what trimming clears.
Otherwise it does not. -/
theorem Built.endsInBreak_trimEnd_iff [TextWidth] {s s' : Store} {docs : List Doc}
    {doc trimmed : Doc}
    (h : Built s docs) (hdoc : doc ∈ docs) (hrun : (Build.trimEnd doc).run s = (trimmed, s')) :
    (s'.shape trimmed).EndsInBreak ↔ (s.shape doc).SparesBreak := by
  rw [h.shape_trimEnd hdoc hrun]
  exact (s.shape doc).endsInBreak_trimmed_iff

/-- Trimming takes nothing away but breaks at the end: forced lines, texts of line feeds, and line
feeds at the end of a text. Each leaf that stays has the layers around it that it had. Trimming
again changes nothing, and the groups of the document itself keep their flags. -/
theorem Built.cutOff_trimEnd [TextWidth] {s s' s'' : Store} {docs : List Doc}
    {doc trimmed again : Doc}
    (h : Built s docs) (hdoc : doc ∈ docs) (htrim : (Build.trimEnd doc).run s = (trimmed, s'))
    (hagain : (Build.trimEnd trimmed).run s' = (again, s'')) :
    CutOff (s.shape doc).leaves (s'.shape trimmed).leaves ∧
      s''.shape again = s'.shape trimmed ∧
      ∀ l body, .group l body ∈ doc.parts → s'.isBroken l = s.isBroken l := by
  rw [(h.trimEnd hdoc htrim).shape_trimEnd (.head _) hagain, h.shape_trimEnd hdoc htrim]
  refine ⟨(s.shape doc).cutOff_trimmed, (s.shape doc).trimmed_trimmed, fun l body hpart => ?_⟩
  have hgrows := (h.makes_trimEnd hdoc).grows
  rw [htrim] at hgrows
  exact hgrows.kept l (h.has hdoc _ hpart)

section Sample

attribute [local instance] TextWidth.perCharacter

theorem Built.feed_group : Built { next := 4 } [
    .append 3 (.text 0 .owned ['a', '\n']) (.group 2 (.line 1 .hard)), .group 2 (.line 1 .hard),
    .line 1 .hard, .text 0 .owned ['a', '\n']] := by
  have htext : Built { next := 1 } _ := none.of_build (.text .owned ['a', '\n']) nofun rfl
  have hline : Built { next := 2 } _ := htext.of_build (.line .hard) nofun rfl
  have hgroup : Built { next := 3 } _ := hline.of_build (.group (.line 1 .hard))
    (by simp [Construction.operands]) rfl
  exact hgroup.of_build (.append (.text 0 .owned ['a', '\n']) (.group 2 (.line 1 .hard)))
    (by simp [Construction.operands]) rfl

theorem Built.endsInBreak_trimEnd_feed_group :
    (Store.shape { next := 7 }
      (.append 6 (.text 0 .owned ['a', '\n']) (.group 5 (.nil 4)))).EndsInBreak :=
  (feed_group.endsInBreak_trimEnd_iff (.head _) rfl).mpr
    ⟨[], _, [_], [_], rfl, List.forall_mem_singleton.mpr rfl, List.forall_mem_singleton.mpr rfl, _, rfl,
      rfl, nofun⟩

theorem Built.cutOff_trimEnd_feed_group :
    CutOff
      (Store.shape { next := 4 }
        (.append 3 (.text 0 .owned ['a', '\n']) (.group 2 (.line 1 .hard)))).leaves
      (Store.shape { next := 7 } (.append 6 (.text 0 .owned ['a', '\n']) (.group 5 (.nil 4)))).leaves :=
  (feed_group.cutOff_trimEnd (.head _) rfl rfl).1

end Sample

end SourceLayout
