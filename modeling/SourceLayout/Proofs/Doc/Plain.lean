import SourceLayout.Proofs.Doc.Bare

/-! # Builders without labels

What a builder makes depends on the labels of its operands only in that they tell documents apart.
So builders are functions on documents without labels, and so is the trimming of an end.
-/

namespace SourceLayout

namespace Doc

def leaf [TextWidth] (origin : Origin) (content : Text) : Doc :=
  if content.isEmpty then .nil 0
  else if content.isAscii then .text 0 origin content
  else .measured 0 (TextWidth.width content) (.text 0 origin content)

def joined (left right : Doc) : Doc :=
  if left.isNil then right else if right.isNil then left else .append 0 left right

def joinedAll (docs : List Doc) : Doc := docs.foldl joined (.nil 0)

def spaced (docs : List Doc) (separator : Doc) : Doc :=
  match docs with
  | [] => .nil 0
  | first :: rest => rest.foldl (fun soFar doc => (soFar.joined separator).joined doc) first

def linesOf [TextWidth] (content : Text) : Doc :=
  spaced (content.lines.map (leaf .owned)) (.line 0 .literal)

/-- Whether a group of the document would change nothing. -/
def isCompact : Doc → Bool
  | .group .. | .text .. | .measured .. | .nil _ => true
  | _ => false

def grouped (body : Doc) : Doc := if body.isCompact then body else .group 0 body

def indented (body : Doc) : Doc := if body.isNil then body else .indent 0 body

def aligned (columns : Int) (body : Doc) : Doc :=
  if body.isNil || columns == 0 then body else .align 0 (.columns columns) body

def suffixed (body : Doc) : Doc := if body.isNil then body else .suffix 0 body

def shifted (size tabWidth : Nat) (body : Doc) : Doc :=
  if size == 0 then body
  else .align 0 .toRoot (aligned (Build.signedColumns (size % max tabWidth 1))
    (indented^[size / max tabWidth 1] body))

def isTrim : Doc → Bool
  | .line _ kind => !kind.isForced
  | .append _ _ right => right.isTrim && !right.isNil
  | .group _ _ | .indent _ _ | .align _ _ _ => false
  | .text _ .owned content => content.getLast? != some '\n'
  | _ => true

theorem isTrim_bare (flags : Doc → Bool) (doc : Doc) :
    (doc.bare flags).isTrim = doc.isTrim := by
  induction doc using inductionOn with
  | step doc ih =>
    cases doc with
    | append l left right =>
      simp only [bare, isTrim, isNil_bare, ih right (by simp [operands])]
    | text l origin content => cases origin <;> rfl
    | _ => rfl

def trimmed [TextWidth] : Doc → Doc
  | .line l kind => if kind.isForced then .nil 0 else .line l kind
  | .append l left right =>
    if right.trimmed.isNil then left.trimmed
    else if right.isTrim then .append l left right
    else left.joined right.trimmed
  | .group l body => .group l body.trimmed
  | .indent l body => .indent l body.trimmed
  | .align l shift body => .align l shift body.trimmed
  | .text l .owned content =>
    if content.getLast? == some '\n' then leaf .owned (content.dropEndWhile (· == '\n'))
    else .text l .owned content
  | doc => doc

end Doc

namespace Construction

def map {δ ε : Type} (f : δ → ε) : Construction δ → Construction ε
  | .nil => .nil
  | .text origin content => .text origin content
  | .verbatim content => .verbatim content
  | .line kind => .line kind
  | .breakParent => .breakParent
  | .cursor => .cursor
  | .append left right => .append (f left) (f right)
  | .concat docs => .concat (docs.map f)
  | .intersperse docs separator => .intersperse (docs.map f) (f separator)
  | .fill parts => .fill (parts.map f)
  | .group body => .group (f body)
  | .expandedGroup body => .expandedGroup (f body)
  | .indent body => .indent (f body)
  | .align columns body => .align columns (f body)
  | .toRoot body => .toRoot (f body)
  | .suffix body => .suffix (f body)
  | .shiftRight size tabWidth body => .shiftRight size tabWidth (f body)
  | .trimEnd body => .trimEnd (f body)

theorem operands_map {δ ε : Type} (f : δ → ε) (c : Construction δ) :
    (c.map f).operands = c.operands.map f := by
  cases c <;> rfl

theorem map_map {δ ε ζ : Type} (f : δ → ε) (g : ε → ζ) (c : Construction δ) :
    (c.map f).map g = c.map fun x => g (f x) := by
  cases c <;> simp [map]

theorem map_congr {δ ε : Type} {f g : δ → ε} {c : Construction δ}
    (h : ∀ x ∈ c.operands, f x = g x) : c.map f = c.map g := by
  cases c with
  | concat docs | fill docs => exact congrArg _ (List.map_congr_left h)
  | intersperse docs separator =>
    rw [operands, List.forall_mem_cons] at h
    rw [map, map, List.map_congr_left h.2, h.1]
  | _ => simp_all [map, operands]

/-- What a construction makes of documents without labels. -/
def plain [TextWidth] : Construction Doc → Doc
  | .nil => .nil 0
  | .text origin content => .leaf origin content
  | .verbatim content => .linesOf content
  | .line kind => .line 0 kind
  | .breakParent => .breakParent 0
  | .cursor => .cursor 0
  | .append left right => left.joined right
  | .concat docs => .joinedAll docs
  | .intersperse docs separator => .spaced docs separator
  | .fill parts => .fill 0 parts
  | .group body => body.grouped
  | .expandedGroup body => .group 1 body
  | .indent body => body.indented
  | .align columns body => body.aligned columns
  | .toRoot body => .align 0 .toRoot body
  | .suffix body => body.suffixed
  | .shiftRight size tabWidth body => body.shifted size tabWidth
  | .trimEnd body => body.trimmed

end Construction

/-- From a store a step makes a document that looks like `bare` without its labels. -/
structure Makes (marks : Label → Bool) (s : Store) (x : DocM Doc) (bare : Doc) : Prop where
  grows : s.Grows (x.run s).2
  clean : (x.run s).2.Clean marks
  has : (x.run s).2.Has (x.run s).1
  looks : (x.run s).1.bare ((x.run s).2.flags marks) = bare

namespace Makes

variable {marks : Label → Bool} {s : Store} {x : DocM Doc} {f : Doc → DocM Doc} {bare bare' : Doc}

theorem ofPure {doc : Doc} (hs : s.Clean marks) (hdoc : s.Has doc) :
    Makes marks s (pure doc) (doc.bare (s.flags marks)) :=
  ⟨.refl s, hs, hdoc, rfl⟩

theorem bind (hx : Makes marks s x bare)
    (hf : ∀ doc s', s.Grows s' → s'.Clean marks → s'.Has doc → doc.bare (s'.flags marks) = bare →
      Makes marks s' (f doc) bare') : Makes marks s (x >>= f) bare' := by
  have hrest := hf _ _ hx.grows hx.clean hx.has hx.looks
  exact ⟨hx.grows.trans hrest.grows, hrest.clean, hrest.has, hrest.looks⟩

theorem of_run {s' : Store} {y : DocM Doc} (hrun : x.run s = y.run s') (hgrows : s.Grows s')
    (hy : Makes marks s' y bare) : Makes marks s x bare := by
  constructor
  · rw [hrun]
    exact hgrows.trans hy.grows
  · rw [hrun]
    exact hy.clean
  · rw [hrun]
    exact hy.has
  · rw [hrun]
    exact hy.looks

theorem get_bind {f : Store → DocM Doc} (h : Makes marks s (f s) bare) :
    Makes marks s (get >>= f) bare :=
  ⟨h.grows, h.clean, h.has, h.looks⟩

theorem fresh {make : Label → Doc} (hs : s.Clean marks) (hlabel : ∀ l, (make l).label = l)
    (hoperands : ∀ y ∈ (make s.next).operands, s.Has y) :
    Makes marks s (return make (← freshLabel)) ((make s.next).bare (s.flags marks)) where
  grows := ⟨Nat.le_succ _, fun _ _ => rfl⟩
  clean l hl := Nat.lt_succ_of_lt (hs l hl)
  has := by
    rw [Store.has_iff]
    constructor
    · rw [show ((return make (← freshLabel) : DocM Doc).run s).1 = make s.next from rfl, hlabel]
      exact Nat.lt_succ_self _
    · intro y hy x hx
      exact Nat.lt_succ_of_lt (hoperands y hy x hx)
  looks := rfl

end Makes

namespace Build

variable {marks : Label → Bool} {s : Store} {left right body separator : Doc} {docs : List Doc}
  (hs : s.Clean marks)
include hs

theorem makes_nil : Makes marks s nil (.nil 0) := .fresh hs (fun _ => rfl) nofun

theorem makes_line (kind : LineKind) : Makes marks s (line kind) (.line 0 kind) :=
  .fresh hs (fun _ => rfl) nofun

theorem makes_text [TextWidth] (origin : Origin) (content : Text) :
    Makes marks s (text origin content) (.leaf origin content) := by
  unfold text Doc.leaf
  split
  · exact makes_nil hs
  · have hleaf : Makes marks s (return .text (← freshLabel) origin content)
        (.text 0 origin content) := by
      have hunmarked : marks s.next = false :=
        Bool.eq_false_iff.mpr fun hmarked => Nat.lt_irrefl _ (hs s.next (.inr hmarked))
      have htext : Makes marks s (return .text (← freshLabel) origin content)
          ((Doc.text s.next origin content).bare (s.flags marks)) :=
        .fresh hs (fun _ => rfl) nofun
      simpa only [Doc.bare, Store.flags, hunmarked, Bool.toNat_false] using htext
    refine hleaf.bind (f := fun leaf => if content.isAscii then pure leaf
        else return .measured (← freshLabel) (TextWidth.width content) leaf)
      fun leaf s' _ hs' hleaf hlooks => ?_
    rw [← hlooks]
    split
    · exact .ofPure hs' hleaf
    · refine .fresh hs' (fun _ => rfl) ?_
      simpa [Doc.operands] using hleaf

theorem makes_append (hleft : s.Has left) (hright : s.Has right) :
    Makes marks s (append left right)
      ((left.bare (s.flags marks)).joined (right.bare (s.flags marks))) := by
  unfold append Doc.joined
  rw [Doc.isNil_bare, Doc.isNil_bare]
  split
  · exact .ofPure hs hright
  · split
    · exact .ofPure hs hleft
    · exact .fresh hs (fun _ => rfl) (by simpa [Doc.operands] using ⟨hleft, hright⟩)

theorem makes_wrap {make : Label → Doc} {skip : Prop} [Decidable skip] (hbody : s.Has body)
    (hlabel : ∀ l, (make l).label = l) (hoperands : ∀ l, (make l).operands = [body]) :
    Makes marks s (if skip then pure body else return make (← freshLabel))
      (if skip then body.bare (s.flags marks) else (make s.next).bare (s.flags marks)) := by
  split
  · exact .ofPure hs hbody
  · refine .fresh hs hlabel ?_
    rw [hoperands, List.forall_mem_singleton]
    exact hbody

theorem makes_indent (hbody : s.Has body) :
    Makes marks s (indent body) (body.bare (s.flags marks)).indented := by
  unfold Doc.indented
  rw [Doc.isNil_bare]
  exact makes_wrap hs hbody (fun _ => rfl) fun _ => rfl

theorem makes_align (columns : Int) (hbody : s.Has body) :
    Makes marks s (align columns body) ((body.bare (s.flags marks)).aligned columns) := by
  unfold Doc.aligned
  rw [Doc.isNil_bare]
  exact makes_wrap hs hbody (fun _ => rfl) fun _ => rfl

theorem makes_suffix (hbody : s.Has body) :
    Makes marks s (suffix body) (body.bare (s.flags marks)).suffixed := by
  unfold Doc.suffixed
  rw [Doc.isNil_bare]
  exact makes_wrap hs hbody (fun _ => rfl) fun _ => rfl

theorem makes_toRoot (hbody : s.Has body) :
    Makes marks s (toRoot body) (.align 0 .toRoot (body.bare (s.flags marks))) :=
  .fresh hs (fun _ => rfl) (by simpa [Doc.operands] using hbody)

theorem makes_fresh_group (hbody : s.Has body) :
    Makes marks s (return .group (← freshLabel) body) (.group 0 (body.bare (s.flags marks))) := by
  have hflat : s.isBroken s.next = false :=
    Bool.eq_false_iff.mpr fun hbroken => Nat.lt_irrefl _ (hs s.next (.inl hbroken))
  have hgroup : Makes marks s (return .group (← freshLabel) body)
      ((Doc.group s.next body).bare (s.flags marks)) :=
    .fresh hs (fun _ => rfl) (by simpa [Doc.operands] using hbody)
  simpa only [Doc.bare, Store.flags, hflat, Bool.toNat_false] using hgroup

theorem makes_group (hbody : s.Has body) :
    Makes marks s (group body) (body.bare (s.flags marks)).grouped := by
  unfold Doc.grouped
  cases body with
  | group | text | measured | nil => exact .ofPure hs hbody
  | append | fill | indent | align | line | breakParent | suffix | cursor =>
    exact makes_fresh_group hs hbody

theorem makes_expandedGroup (hbody : s.Has body) :
    Makes marks s (expandedGroup body) (.group 1 (body.bare (s.flags marks))) := by
  have hgrows : s.Grows ((expandedGroup body).run s).2 := by
    refine ⟨Nat.le_succ _, fun l hl => ?_⟩
    rw [Bool.eq_iff_iff]
    change ({ s with next := s.next + 1 }.breakGroup s.next).isBroken l = true ↔ _
    rw [Store.isBroken_breakGroup]
    exact or_iff_right (Nat.ne_of_gt hl)
  have hbroken : ((expandedGroup body).run s).2.isBroken s.next = true :=
    Store.isBroken_breakGroup.mpr (.inl rfl)
  constructor
  · exact hgrows
  · rintro l (hl | hl)
    · rcases Store.isBroken_breakGroup.mp hl with rfl | hl
      · exact Nat.lt_succ_self _
      · exact Nat.lt_succ_of_lt (hs l (.inl hl))
    · exact Nat.lt_succ_of_lt (hs l (.inr hl))
  · refine Store.has_iff.mpr ⟨Nat.lt_succ_self _, ?_⟩
    exact List.forall_mem_singleton.mpr (hgrows.has hbody)
  · change Doc.group (((expandedGroup body).run s).2.isBroken s.next).toNat _ = _
    rw [hbroken, hgrows.bare_eq hbody]
    rfl

omit hs in
theorem map_bare_eq {s' : Store} (hgrows : s.Grows s') (hdocs : ∀ doc ∈ docs, s.Has doc) :
    docs.map (Doc.bare (s'.flags marks)) = docs.map (Doc.bare (s.flags marks)) :=
  List.map_congr_left fun d hd => hgrows.bare_eq (hdocs d hd)

theorem makes_foldlM {f : Doc → Doc → DocM Doc} {g : Doc → Doc → Doc}
    (hf : ∀ s' a b, s.Grows s' → s'.Clean marks → s'.Has a → s'.Has b →
      Makes marks s' (f a b) (g (a.bare (s'.flags marks)) (b.bare (s'.flags marks))))
    {first : Doc} (hfirst : s.Has first) (hdocs : ∀ doc ∈ docs, s.Has doc) :
    Makes marks s (docs.foldlM f first)
      ((docs.map (Doc.bare (s.flags marks))).foldl g (first.bare (s.flags marks))) := by
  induction docs generalizing s first with
  | nil => exact .ofPure hs hfirst
  | cons doc docs ih =>
    rw [List.forall_mem_cons] at hdocs
    rw [List.foldlM_cons, List.map_cons, List.foldl_cons]
    refine (hf s first doc (.refl s) hs hfirst hdocs.1).bind
      fun soFar s' hgrows hs' hsoFar hlooks => ?_
    have hrest := ih hs' (fun s'' a b hgrows' => hf s'' a b (hgrows.trans hgrows')) hsoFar
      fun d hd => hgrows.has (hdocs.2 d hd)
    rwa [hlooks, map_bare_eq hgrows hdocs.2] at hrest

theorem makes_concat (hdocs : ∀ doc ∈ docs, s.Has doc) :
    Makes marks s (concat docs) (.joinedAll (docs.map (Doc.bare (s.flags marks)))) := by
  refine (makes_nil hs).bind fun start s' hgrows hs' hstart hlooks => ?_
  have hfold := makes_foldlM hs' (fun _ _ _ _ => makes_append) hstart fun d hd =>
    hgrows.has (hdocs d hd)
  rwa [hlooks, map_bare_eq hgrows hdocs] at hfold

theorem makes_intersperse (hdocs : ∀ doc ∈ docs, s.Has doc) (hseparator : s.Has separator) :
    Makes marks s (intersperse docs separator)
      (.spaced (docs.map (Doc.bare (s.flags marks))) (separator.bare (s.flags marks))) := by
  refine (makes_nil hs).bind fun start s' hgrows hs' hstart hlooks => ?_
  cases docs with
  | nil =>
    rw [List.map_nil, Doc.spaced, ← hlooks]
    exact .ofPure hs' hstart
  | cons first rest =>
    rw [List.forall_mem_cons] at hdocs
    have hnil : start.isNil = true := by rw [← Doc.isNil_bare (s'.flags marks), hlooks]; rfl
    have hfirst : append start first = pure first := if_pos hnil
    have hstep : ∀ s'' a b, s'.Grows s'' → s''.Clean marks → s''.Has a → s''.Has b →
        Makes marks s'' (do append (← append a separator) b)
          (((a.bare (s''.flags marks)).joined (separator.bare (s.flags marks))).joined
            (b.bare (s''.flags marks))) := by
      intro s'' a b hgrows'' hs'' ha hb
      have hseparator'' := (hgrows.trans hgrows'').has hseparator
      rw [← (hgrows.trans hgrows'').bare_eq hseparator]
      refine (makes_append hs'' ha hseparator'').bind fun soFar s₁ hgrows₁ hs₁ hsoFar hlooks₁ => ?_
      rw [← hlooks₁, ← hgrows₁.bare_eq hb]
      exact makes_append hs₁ hsoFar (hgrows₁.has hb)
    dsimp only
    rw [hfirst, pure_bind, List.map_cons, Doc.spaced, ← hgrows.bare_eq hdocs.1,
      ← map_bare_eq hgrows hdocs.2]
    exact makes_foldlM hs' hstep (hgrows.has hdocs.1) fun d hd => hgrows.has (hdocs.2 d hd)

theorem makes_mapM {γ : Type} {f : γ → DocM Doc} {g : γ → Doc} {as : List γ}
    (hf : ∀ s a, Store.Clean marks s → Makes marks s (f a) (g a)) :
    s.Grows ((as.mapM f).run s).2 ∧ ((as.mapM f).run s).2.Clean marks ∧
      (∀ doc ∈ ((as.mapM f).run s).1, ((as.mapM f).run s).2.Has doc) ∧
      ((as.mapM f).run s).1.map (Doc.bare (((as.mapM f).run s).2.flags marks)) = as.map g := by
  induction as generalizing s with
  | nil => exact ⟨.refl s, hs, nofun, rfl⟩
  | cons a as ih =>
    rw [List.mapM_cons]
    have ha := hf s a hs
    obtain ⟨hgrows, hclean, hhas, hlooks⟩ := ih ha.clean
    refine ⟨ha.grows.trans hgrows, hclean, ?_, ?_⟩
    · exact List.forall_mem_cons.mpr ⟨hgrows.has ha.has, hhas⟩
    · change (_ :: _ : List Doc) = _
      rw [List.map_cons, ← hlooks, ← ha.looks, ← hgrows.bare_eq ha.has]
      rfl

theorem makes_verbatim [TextWidth] (content : Text) :
    Makes marks s (verbatim content) (.linesOf content) := by
  refine (makes_line hs .literal).bind fun separator s' _ hs' hseparator hlooks => ?_
  have htext :
      ∀ s line, Store.Clean marks s → Makes marks s (text .owned line) (.leaf .owned line) :=
    fun _ line hs => makes_text hs .owned line
  obtain ⟨hgrows, hclean, hhas, hmap⟩ := makes_mapM hs' htext
  have hjoined := makes_intersperse hclean hhas (hgrows.has hseparator)
  rw [hmap, hgrows.bare_eq hseparator, hlooks] at hjoined
  exact ⟨hgrows.trans hjoined.grows, hjoined.clean, hjoined.has, hjoined.looks⟩

theorem makes_fill (hdocs : ∀ doc ∈ docs, s.Has doc) :
    Makes marks s (fill docs) (.fill 0 (docs.map (Doc.bare (s.flags marks)))) := by
  have hfill : Makes marks s (fill docs) ((Doc.fill s.next docs).bare (s.flags marks)) :=
    .fresh hs (fun _ => rfl) hdocs
  rwa [Doc.bare, Doc.bareAll_eq_map] at hfill

theorem makes_indentTimes (n : Nat) (hbody : s.Has body) :
    Makes marks s (indentTimes n body) (Doc.indented^[n] (body.bare (s.flags marks))) := by
  induction n generalizing s body with
  | zero => exact .ofPure hs hbody
  | succ n ih =>
    refine (makes_indent hs hbody).bind fun doc s' _ hs' hdoc hlooks => ?_
    rw [Function.iterate_succ_apply, ← hlooks]
    exact ih hs' hdoc

theorem makes_shiftRight (size tabWidth : Nat) (hbody : s.Has body) :
    Makes marks s (shiftRight size tabWidth body)
      ((body.bare (s.flags marks)).shifted size tabWidth) := by
  unfold shiftRight Doc.shifted
  split
  · exact .ofPure hs hbody
  · refine (makes_indentTimes hs _ hbody).bind fun doc s₁ _ hs₁ hdoc hlooks => ?_
    refine (makes_align hs₁ _ hdoc).bind fun doc' s₂ _ hs₂ hdoc' hlooks' => ?_
    have hroot := makes_toRoot hs₂ hdoc'
    rwa [hlooks', hlooks] at hroot

/-- What trimming does to a document in a store. -/
structure Trims [TextWidth] (marks : Label → Bool) (s : Store) (doc : Doc) : Prop where
  makes : Makes marks s (trimEnd doc) (doc.bare (s.flags marks)).trimmed
  kept : doc.isTrim = true → (trimEnd doc).run s = (doc, s)
  changed : doc.isTrim = false → s.next ≤ ((trimEnd doc).run s).1.label ∨
    ∃ y ∈ doc.operands, ((trimEnd doc).run s).1 ∈ y.parts

theorem trims_line [TextWidth] (l : Label) (kind : LineKind) (hdoc : s.Has (.line l kind)) :
    Trims marks s (.line l kind) := by
  by_cases hforced : kind.isForced = true
  · have htrim : trimEnd (.line l kind) = nil := by rw [trimEnd, if_pos hforced]
    refine ⟨?_, fun h => ?_, fun _ => .inl ?_⟩
    · rw [htrim, Doc.bare, Doc.trimmed, if_pos hforced]
      exact makes_nil hs
    · simp [Doc.isTrim, hforced] at h
    · rw [htrim]
      exact Nat.le_refl _
  · have htrim : trimEnd (.line l kind) = pure (.line l kind) := by rw [trimEnd, if_neg hforced]
    refine ⟨?_, fun _ => by rw [htrim]; rfl, fun h => ?_⟩
    · rw [htrim, Doc.bare, Doc.trimmed, if_neg hforced]
      exact .ofPure hs hdoc
    · simp [Doc.isTrim, hforced] at h

omit hs in
theorem next_le_label_text [TextWidth] (origin : Origin) (content : Text) :
    s.next ≤ ((text origin content).run s).1.label := by
  unfold text
  split
  · exact Nat.le_refl _
  · by_cases hascii : content.isAscii = true
    · simp only [hascii, if_true]
      exact Nat.le_refl _
    · simp only [hascii]
      exact Nat.le_succ _

theorem trims_text [TextWidth] (l : Label) (origin : Origin) (content : Text)
    (hdoc : s.Has (.text l origin content)) : Trims marks s (.text l origin content) := by
  cases origin with
  | fixed => exact ⟨.ofPure hs hdoc, fun _ => rfl, nofun⟩
  | owned =>
    by_cases hend : (content.getLast? == some '\n') = true
    · have htrim : trimEnd (.text l .owned content) =
          text .owned (content.dropEndWhile (· == '\n')) := by rw [trimEnd, if_pos hend]
      refine ⟨?_, fun h => ?_, fun _ => .inl ?_⟩
      · rw [htrim, Doc.bare, Doc.trimmed, if_pos hend]
        exact makes_text hs _ _
      · simp [Doc.isTrim, bne, hend] at h
      · rw [htrim]
        exact next_le_label_text _ _
    · have htrim : trimEnd (.text l .owned content) = pure (.text l .owned content) := by
        rw [trimEnd, if_neg hend]
      refine ⟨?_, fun _ => by rw [htrim]; rfl, fun h => ?_⟩
      · rw [htrim, Doc.bare, Doc.trimmed, if_neg hend]
        exact .ofPure hs hdoc
      · simp [Doc.isTrim, bne, hend] at h

theorem makes_regroup (l : Label) (hbody : s.Has body) :
    Makes marks s (regroup l body) (.group (s.isBroken l).toNat (body.bare (s.flags marks))) := by
  apply Makes.get_bind
  split
  · rename_i hbroken
    rw [hbroken]
    exact makes_expandedGroup hs hbody
  · rename_i hflat
    rw [Bool.not_eq_true] at hflat
    rw [hflat]
    exact makes_fresh_group hs hbody

omit hs in
theorem next_le_label_regroup (l : Label) : s.next ≤ ((regroup l body).run s).1.label := by
  have hregroup : (regroup l body).run s = (if s.isBroken l then expandedGroup body
      else return .group (← freshLabel) body : DocM Doc).run s := rfl
  rw [hregroup]
  split
  · exact Nat.le_refl _
  · exact Nat.le_refl _

omit hs in
theorem Trims.label_ne [TextWidth] (h : Trims marks s body) (hbody : s.Has body)
    (hgraph : body.IsGraph)
    (hchanged : body.isTrim = false) : ((trimEnd body).run s).1.label ≠ body.label := by
  intro hlabel
  rcases h.changed hchanged with hnew | ⟨y, hy, hpart⟩
  · rw [hlabel] at hnew
    exact Nat.not_lt_of_le hnew (hbody body body.mem_parts_self)
  · have hsame := hgraph _ (Doc.mem_parts_of_operand hy hpart) body body.mem_parts_self hlabel
    rw [hsame] at hpart
    exact Nat.not_lt_of_le (Doc.sizeOf_le_of_mem_parts hpart) (Doc.sizeOf_lt_of_mem_operands hy)

section Append

variable {l : Label}
omit hs

theorem left_mem_operands : left ∈ (Doc.append l left right).operands := by simp [Doc.operands]

theorem right_mem_operands : right ∈ (Doc.append l left right).operands := by simp [Doc.operands]

variable [TextWidth] {trimmed : Doc} {s' : Store} (hdoc : s.Has (.append l left right))
  (hright : Trims marks s right)

theorem run_trimEnd_append (hrun : (trimEnd right).run s = (trimmed, s')) :
    (trimEnd (.append l left right)).run s =
      (if trimmed.isNil then trimEnd left
        else if trimmed.label == right.label then return .append l left right
        else append left trimmed : DocM Doc).run s' := by
  have htrimEnd : (trimEnd (.append l left right)).run s =
      (if ((trimEnd right).run s).1.isNil then trimEnd left
        else if ((trimEnd right).run s).1.label == right.label then return .append l left right
        else append left ((trimEnd right).run s).1 : DocM Doc).run ((trimEnd right).run s).2 := by
    rw [trimEnd]
    rfl
  rwa [hrun] at htrimEnd

include hright

theorem Trims.isNil_eq (hrun : (trimEnd right).run s = (trimmed, s')) :
    (right.bare (s.flags marks)).trimmed.isNil = trimmed.isNil := by
  rw [← hright.makes.looks, Doc.isNil_bare, hrun]

include hdoc

theorem trims_append_of_isNil (hrun : (trimEnd right).run s = (trimmed, s'))
    (hgone : trimmed.isNil = true) (hleft : Trims marks s' left) :
    Trims marks s (.append l left right) := by
  have hgrows : s.Grows s' := by simpa only [hrun] using hright.makes.grows
  have happend : (trimEnd (.append l left right)).run s = (trimEnd left).run s' := by
    rw [run_trimEnd_append hrun, if_pos hgone]
  have htrim : (Doc.append l left right).isTrim = false := by
    by_contra hsame
    have hsame : right.isTrim = true ∧ right.isNil = false := by simpa [Doc.isTrim] using hsame
    obtain ⟨rfl, -⟩ := Prod.mk.inj ((hright.kept hsame.1).symm.trans hrun)
    exact Bool.noConfusion (hsame.2.symm.trans hgone)
  refine ⟨?_, fun h => ?_, fun _ => ?_⟩
  · rw [Doc.bare, Doc.trimmed, hright.isNil_eq hrun, if_pos hgone,
      ← hgrows.bare_eq (hdoc.operand left_mem_operands)]
    exact .of_run happend hgrows hleft.makes
  · rw [htrim] at h
    cases h
  · rw [happend]
    cases hltrim : left.isTrim with
    | true =>
      rw [hleft.kept hltrim]
      exact .inr ⟨left, left_mem_operands, left.mem_parts_self⟩
    | false =>
      refine (hleft.changed hltrim).imp (Nat.le_trans hgrows.next) ?_
      rintro ⟨y, hy, hpart⟩
      exact ⟨left, left_mem_operands, Doc.mem_parts_of_operand hy hpart⟩

include hs in
theorem trims_append_of_isTrim (htrim : right.isTrim = true) (hnil : right.isNil = false) :
    Trims marks s (.append l left right) := by
  have hrun := hright.kept htrim
  have happend : (trimEnd (.append l left right)).run s = (.append l left right, s) := by
    rw [run_trimEnd_append hrun, hnil, if_neg Bool.false_ne_true, if_pos (beq_self_eq_true _)]
    rfl
  have hsame : (Doc.append l left right).isTrim = true := by simp [Doc.isTrim, htrim, hnil]
  refine ⟨?_, fun _ => happend, fun h => ?_⟩
  · rw [Doc.bare, Doc.trimmed, hright.isNil_eq hrun, hnil, if_neg Bool.false_ne_true,
      Doc.isTrim_bare, if_pos htrim]
    exact .of_run happend (.refl s) (.ofPure hs hdoc)
  · rw [hsame] at h
    cases h

theorem trims_append_of_changed (hgraph : right.IsGraph)
    (hrun : (trimEnd right).run s = (trimmed, s')) (hne : trimmed.isNil = false)
    (htrim : right.isTrim = false) : Trims marks s (.append l left right) := by
  obtain ⟨hgrows, hclean, hhas, hlooks⟩ := hright.makes
  have hlabel := hright.label_ne (hdoc.operand right_mem_operands) hgraph htrim
  have hchanged := hright.changed htrim
  rw [hrun] at hgrows hclean hhas hlooks hlabel hchanged
  have happend : (trimEnd (.append l left right)).run s = (append left trimmed).run s' := by
    rw [run_trimEnd_append hrun, hne, if_neg Bool.false_ne_true, if_neg (by simpa using hlabel)]
  refine ⟨?_, fun h => ?_, fun _ => ?_⟩
  · rw [Doc.bare, Doc.trimmed, hright.isNil_eq hrun, hne, if_neg Bool.false_ne_true,
      Doc.isTrim_bare, if_neg (by simp [htrim]), ← hlooks,
      ← hgrows.bare_eq (hdoc.operand left_mem_operands)]
    exact .of_run happend hgrows
      (makes_append hclean (hgrows.has (hdoc.operand left_mem_operands)) hhas)
  · simp [Doc.isTrim, htrim] at h
  · rw [happend, append, hne, if_neg Bool.false_ne_true]
    split
    · refine hchanged.imp id ?_
      rintro ⟨y, hy, hpart⟩
      exact ⟨right, right_mem_operands, Doc.mem_parts_of_operand hy hpart⟩
    · exact .inl hgrows.next

include hs in
theorem trims_append (hgraph : (Doc.append l left right).IsGraph)
    (hleft : ∀ s', s.Grows s' → s'.Clean marks → Trims marks s' left) :
    Trims marks s (.append l left right) := by
  have hgraph' : right.IsGraph := fun x hx z hz =>
    hgraph x (Doc.mem_parts_of_operand right_mem_operands hx) z
      (Doc.mem_parts_of_operand right_mem_operands hz)
  rcases hrun : (trimEnd right).run s with ⟨trimmed, s'⟩
  cases hgone : trimmed.isNil with
  | true =>
    have hmakes := hright.makes
    have hleft := hleft _ hmakes.grows hmakes.clean
    rw [hrun] at hleft
    exact trims_append_of_isNil hdoc hright hrun hgone hleft
  | false =>
    cases htrim : right.isTrim with
    | true =>
      obtain ⟨rfl, -⟩ := Prod.mk.inj ((hright.kept htrim).symm.trans hrun)
      exact trims_append_of_isTrim hs hdoc hright htrim hgone
    | false => exact trims_append_of_changed hdoc hright hgraph' hrun hgone htrim

end Append

theorem trims_trimEnd [TextWidth] (hdoc : s.Has body) (hgraph : body.IsGraph) :
    Trims marks s body := by
  induction body using Doc.inductionOn generalizing s with
  | step doc ih =>
    have htrims : ∀ y ∈ doc.operands, ∀ s', s.Grows s' → s'.Clean marks → Trims marks s' y := by
      intro y hy s' hgrows hs'
      refine ih y hy hs' (hgrows.has (hdoc.operand hy)) fun x hx z hz => ?_
      exact hgraph x (Doc.mem_parts_of_operand hy hx) z (Doc.mem_parts_of_operand hy hz)
    cases doc with
    | nil | fill | breakParent | suffix | cursor | measured =>
      exact ⟨.ofPure hs hdoc, fun _ => rfl, fun h => absurd h.symm Bool.false_ne_true⟩
    | line l kind => exact trims_line hs l kind hdoc
    | text l origin content => exact trims_text hs l origin content hdoc
    | append l left right =>
      exact trims_append hs hdoc (htrims right right_mem_operands s (.refl s) hs) hgraph
        (htrims left left_mem_operands)
    | group l body =>
      have hbody := htrims body (by simp [Doc.operands]) s (.refl s) hs
      have hgrows := hbody.makes.grows
      refine ⟨?_, fun h => absurd h Bool.false_ne_true, fun _ => .inl ?_⟩
      · rw [trimEnd, Doc.bare, Doc.trimmed]
        refine hbody.makes.bind fun trimmed s' hgrows hs' htrimmed hlooks => ?_
        rw [← hlooks, Store.flags, ← hgrows.kept l (hdoc _ (Doc.mem_parts_self _))]
        exact makes_regroup hs' l htrimmed
      · rw [trimEnd]
        exact Nat.le_trans hgrows.next (next_le_label_regroup l)
    | indent l body | align l shift body =>
      have hbody := htrims body (by simp [Doc.operands]) s (.refl s) hs
      refine ⟨?_, fun h => absurd h Bool.false_ne_true, fun _ => .inl hbody.makes.grows.next⟩
      rw [trimEnd, Doc.bare, Doc.trimmed]
      refine hbody.makes.bind fun trimmed s' _ hs' htrimmed hlooks => ?_
      rw [← hlooks]
      exact .fresh hs' (fun _ => rfl) (by simpa [Doc.operands] using htrimmed)

end Build

/-- Every builder makes what the function for documents without labels says. -/
theorem Construction.makes_build [TextWidth] {marks : Label → Bool} {s : Store}
    {c : Construction Doc} (hs : s.Clean marks) (h : ∀ y ∈ c.operands, s.Has y ∧ y.IsGraph) :
    Makes marks s c.build (c.map (Doc.bare (s.flags marks))).plain := by
  have hhas : ∀ y ∈ c.operands, s.Has y := fun y hy => (h y hy).1
  cases c with
  | nil => exact Build.makes_nil hs
  | text origin content => exact Build.makes_text hs origin content
  | verbatim content => exact Build.makes_verbatim hs content
  | line kind => exact Build.makes_line hs kind
  | breakParent => exact .fresh hs (fun _ => rfl) nofun
  | cursor => exact .fresh hs (fun _ => rfl) nofun
  | append left right =>
    exact Build.makes_append hs (hhas left (.head _)) (hhas right (.tail _ (.head _)))
  | concat docs => exact Build.makes_concat hs hhas
  | intersperse docs separator =>
    rw [operands, List.forall_mem_cons] at hhas
    exact Build.makes_intersperse hs hhas.2 hhas.1
  | fill docs => exact Build.makes_fill hs hhas
  | group body => exact Build.makes_group hs (hhas body (.head _))
  | expandedGroup body => exact Build.makes_expandedGroup hs (hhas body (.head _))
  | indent body => exact Build.makes_indent hs (hhas body (.head _))
  | align columns body => exact Build.makes_align hs columns (hhas body (.head _))
  | toRoot body => exact Build.makes_toRoot hs (hhas body (.head _))
  | suffix body => exact Build.makes_suffix hs (hhas body (.head _))
  | shiftRight size tabWidth body =>
    exact Build.makes_shiftRight hs size tabWidth (hhas body (.head _))
  | trimEnd body =>
    obtain ⟨hbody, hgraph⟩ := h body (.head _)
    exact (Build.trims_trimEnd hs hbody hgraph).makes

end SourceLayout
