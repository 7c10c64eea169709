import SourceLayout.Doc.Construction
import SourceLayout.Proofs.Doc.Spreading

/-! # Documents made by builders

A store issues each label once. So the documents that were made by builders, out of documents made
by builders, have labels of their own, and each of them is a graph. The set of the documents made
so far is not part of the store: it is carried along, and grows with each step.
-/

namespace SourceLayout

/-- The documents of a set were made with labels of the store, each with one of its own. -/
structure Issued (known : Doc → Prop) (s : Store) : Prop where
  closed : ∀ x, known x → ∀ y ∈ x.operands, known y
  below : ∀ x, known x → x.label < s.next
  unique : ∀ x y, known x → known y → x.label = y.label → x = y

namespace Issued

variable {known : Doc → Prop} {s s' : Store} {x y : Doc}

theorem none (s : Store) : Issued (fun _ => False) s where
  closed _ h := h.elim
  below _ h := h.elim
  unique _ _ h := h.elim

theorem of_next (h : Issued known s) (hnext : s'.next = s.next) : Issued known s' :=
  { h with below := fun x hx => hnext ▸ h.below x hx }

theorem parts (h : Issued known s) (hx : known x) : ∀ y ∈ x.parts, known y := by
  induction x using Doc.inductionOn with
  | step x ih =>
    intro y hy
    rcases Doc.mem_parts_iff.mp hy with rfl | ⟨z, hz, hy⟩
    · exact hx
    · exact ih z hz (h.closed x hx z hz) y hy

theorem isGraph (h : Issued known s) (hx : known x) : x.IsGraph := fun y hy z hz =>
  h.unique y z (h.parts hx y hy) (h.parts hx z hz)

theorem insert (h : Issued known s) (hlabel : x.label = s.next)
    (hoperands : ∀ y ∈ x.operands, known y) (hnext : s'.next = s.next + 1) :
    Issued (fun y => known y ∨ y = x) s' where
  closed := by
    rintro y (hy | rfl) z hz
    · exact .inl (h.closed y hy z hz)
    · exact .inl (hoperands z hz)
  below := by
    rintro y (hy | rfl)
    · exact hnext ▸ Nat.lt_succ_of_lt (h.below y hy)
    · exact hnext ▸ hlabel ▸ Nat.lt_succ_self s.next
  unique := by
    have hnew : ∀ y, known y → y.label ≠ x.label := fun y hy =>
      Nat.ne_of_lt (hlabel ▸ h.below y hy)
    rintro y z (hy | rfl) (hz | rfl) hyz
    · exact h.unique y z hy hz hyz
    · exact absurd hyz (hnew y hy)
    · exact absurd hyz.symm (hnew z hz)
    · rfl

end Issued

/-- A step extends the set of documents made, and ends with a result that `P` holds of. -/
def Issues {α : Type} (known : Doc → Prop) (x : DocM α) (P : (Doc → Prop) → α → Prop) : Prop :=
  ∀ s, Issued known s → ∃ known' : Doc → Prop, (∀ y, known y → known' y) ∧
    Issued known' (x.run s).2 ∧ P known' (x.run s).1

abbrev IssuesDoc (known : Doc → Prop) (x : DocM Doc) : Prop := Issues known x fun known' => known'

variable {α β : Type} {known : Doc → Prop} {x : DocM α} {f : α → DocM β}
  {P : (Doc → Prop) → α → Prop} {R : (Doc → Prop) → β → Prop} {body left right separator : Doc}
  {docs : List Doc}

namespace Issues

theorem ofPure {a : α} (h : P known a) : Issues known (pure a) P :=
  fun _ hs => ⟨known, fun _ h => h, hs, h⟩

theorem of_closed (h : (∀ x, known x → ∀ y ∈ x.operands, known y) → Issues known x P) :
    Issues known x P := fun s hs => h hs.closed s hs

theorem get_bind {f : Store → DocM α} (h : ∀ s, Issues known (f s) P) :
    Issues known (get >>= f) P := fun s hs => h s s hs

theorem bind (hx : Issues known x P)
    (hf : ∀ known' a, (∀ y, known y → known' y) → P known' a → Issues known' (f a) R) :
    Issues known (x >>= f) R := by
  intro s hs
  obtain ⟨known', hgrows, hs', ha⟩ := hx s hs
  obtain ⟨known'', hgrows', hs'', hb⟩ := hf known' _ hgrows ha _ hs'
  exact ⟨known'', fun y hy => hgrows' y (hgrows y hy), hs'', hb⟩

theorem foldlM {f : Doc → Doc → DocM Doc} {first : Doc} (hfirst : known first)
    (hdocs : ∀ y ∈ docs, known y)
    (hf : ∀ known', (∀ y, known y → known' y) → ∀ y z, known' y → known' z →
      IssuesDoc known' (f y z)) :
    IssuesDoc known (docs.foldlM f first) := by
  induction docs generalizing known first with
  | nil => exact ofPure hfirst
  | cons doc docs ih =>
    rw [List.forall_mem_cons] at hdocs
    rw [List.foldlM_cons]
    refine (hf known (fun _ => id) first doc hfirst hdocs.1).bind
      fun known' soFar hgrows hsoFar => ?_
    exact ih hsoFar (fun y hy => hgrows y (hdocs.2 y hy)) fun known'' hgrows' =>
      hf known'' fun y hy => hgrows' y (hgrows y hy)

theorem mapM {γ : Type} {f : γ → DocM Doc} {as : List γ}
    (hf : ∀ known' a, (∀ y, known y → known' y) → IssuesDoc known' (f a)) :
    Issues known (as.mapM f) fun known' docs => ∀ y ∈ docs, known' y := by
  induction as generalizing known with
  | nil => exact ofPure nofun
  | cons a as ih =>
    rw [List.mapM_cons]
    refine (hf known a fun _ => id).bind fun known' doc hgrows hdoc => ?_
    have hrest := ih fun known'' a hgrows' => hf known'' a fun y hy => hgrows' y (hgrows y hy)
    refine hrest.bind fun known'' docs hgrows' hdocs => ofPure ?_
    exact List.forall_mem_cons.mpr ⟨hgrows' doc hdoc, hdocs⟩

end Issues

namespace Build

theorem issues_fresh {make : Label → Doc} (hlabel : ∀ l, (make l).label = l)
    (hoperands : ∀ l, ∀ y ∈ (make l).operands, known y) :
    IssuesDoc known (return make (← freshLabel)) := fun s hs =>
  ⟨fun y => known y ∨ y = make s.next, fun _ => .inl,
    hs.insert (hlabel _) (hoperands _) rfl, .inr rfl⟩

theorem issues_nil : IssuesDoc known nil := issues_fresh (fun _ => rfl) nofun

theorem issues_line (kind : LineKind) : IssuesDoc known (line kind) :=
  issues_fresh (fun _ => rfl) nofun

theorem issues_text [TextWidth] (origin : Origin) (content : Text) :
    IssuesDoc known (text origin content) := by
  have hleaf : IssuesDoc known (return .text (← freshLabel) origin content) :=
    issues_fresh (fun _ => rfl) nofun
  unfold text
  split
  · exact issues_nil
  · refine Issues.bind (f := fun leaf => if content.isAscii then pure leaf
        else return .measured (← freshLabel) (TextWidth.width content) leaf)
      hleaf fun known' leaf _ h => ?_
    split
    · exact .ofPure h
    · exact issues_fresh (fun _ => rfl) fun _ => by simpa [Doc.operands] using h

theorem issues_wrap {make : Label → Doc} {skip : Prop} [Decidable skip] (hbody : known body)
    (hlabel : ∀ l, (make l).label = l) (hoperands : ∀ l, (make l).operands = [body]) :
    IssuesDoc known (if skip then pure body else return make (← freshLabel)) := by
  split
  · exact .ofPure hbody
  · refine issues_fresh hlabel fun l => ?_
    rw [hoperands, List.forall_mem_singleton]
    exact hbody

theorem issues_append (hleft : known left) (hright : known right) :
    IssuesDoc known (append left right) := by
  unfold append
  split
  · exact .ofPure hright
  · split
    · exact .ofPure hleft
    · exact issues_fresh (fun _ => rfl) fun _ => by simpa [Doc.operands] using ⟨hleft, hright⟩

theorem issues_concat (hdocs : ∀ y ∈ docs, known y) : IssuesDoc known (concat docs) := by
  refine issues_nil.bind fun known' start hgrows hstart => ?_
  refine .foldlM hstart (fun y hy => hgrows y (hdocs y hy))
    fun known'' _ soFar doc hsoFar hdoc => ?_
  exact issues_append hsoFar hdoc

theorem issues_intersperse (hdocs : ∀ y ∈ docs, known y) (hseparator : known separator) :
    IssuesDoc known (intersperse docs separator) := by
  refine issues_nil.bind fun known₁ start hgrows₁ hstart => ?_
  cases docs with
  | nil => exact .ofPure hstart
  | cons first rest =>
    rw [List.forall_mem_cons] at hdocs
    refine (issues_append hstart (hgrows₁ first hdocs.1)).bind fun known₂ soFar hgrows₂ hsoFar => ?_
    refine .foldlM hsoFar (fun y hy => hgrows₂ y (hgrows₁ y (hdocs.2 y hy))) ?_
    intro known₃ hgrows₃ soFar doc hsoFar hdoc
    have hseparator' := hgrows₃ separator (hgrows₂ separator (hgrows₁ separator hseparator))
    refine (issues_append hsoFar hseparator').bind fun known₄ joined hgrows₄ hjoined => ?_
    exact issues_append hjoined (hgrows₄ doc hdoc)

theorem issues_fill (hdocs : ∀ y ∈ docs, known y) : IssuesDoc known (fill docs) :=
  issues_fresh (fun _ => rfl) fun _ => hdocs

theorem issues_group (hbody : known body) : IssuesDoc known (group body) := by
  unfold group
  split
  · exact .ofPure hbody
  · exact .ofPure hbody
  · exact .ofPure hbody
  · exact .ofPure hbody
  · exact issues_fresh (fun _ => rfl) fun _ => by simpa [Doc.operands] using hbody

theorem issues_expandedGroup (hbody : known body) : IssuesDoc known (expandedGroup body) :=
  fun s hs => ⟨fun y => known y ∨ y = .group s.next body, fun _ => .inl,
    hs.insert rfl (by simpa [Doc.operands] using hbody) rfl, .inr rfl⟩

theorem issues_indent (hbody : known body) : IssuesDoc known (indent body) :=
  issues_wrap hbody (fun _ => rfl) fun _ => rfl

theorem issues_align (columns : Int) (hbody : known body) : IssuesDoc known (align columns body) :=
  issues_wrap hbody (fun _ => rfl) fun _ => rfl

theorem issues_toRoot (hbody : known body) : IssuesDoc known (toRoot body) :=
  issues_fresh (fun _ => rfl) fun _ => by simpa [Doc.operands] using hbody

theorem issues_suffix (hbody : known body) : IssuesDoc known (suffix body) :=
  issues_wrap hbody (fun _ => rfl) fun _ => rfl

theorem issues_indentTimes (n : Nat) (hbody : known body) :
    IssuesDoc known (indentTimes n body) := by
  induction n generalizing known body with
  | zero => exact .ofPure hbody
  | succ n ih => exact (issues_indent hbody).bind fun _ _ _ hbody' => ih hbody'

theorem issues_shiftRight (size tabWidth : Nat) (hbody : known body) :
    IssuesDoc known (shiftRight size tabWidth body) := by
  unfold shiftRight
  split
  · exact .ofPure hbody
  · refine (issues_indentTimes _ hbody).bind fun _ indented _ h => ?_
    exact (issues_align _ h).bind fun _ _ _ h => issues_toRoot h

theorem issues_verbatim [TextWidth] (content : Text) : IssuesDoc known (verbatim content) := by
  refine (issues_line .literal).bind fun known' separator _ hseparator => ?_
  have hlines : Issues known' (content.lines.mapM (text .owned)) fun known' docs =>
      ∀ y ∈ docs, known' y := .mapM fun _ line _ => issues_text .owned line
  exact hlines.bind fun known'' docs hgrows hdocs =>
    issues_intersperse hdocs (hgrows separator hseparator)

theorem issues_regroup (l : Label) (hbody : known body) : IssuesDoc known (regroup l body) := by
  refine Issues.get_bind fun s => ?_
  split
  · exact issues_expandedGroup hbody
  · exact issues_fresh (fun _ => rfl) fun _ => by simpa [Doc.operands] using hbody

theorem issues_trimEnd [TextWidth] (hbody : known body) : IssuesDoc known (trimEnd body) := by
  induction body using Doc.inductionOn generalizing known with
  | step body ih =>
    apply Issues.of_closed
    intro hclosed
    have hknown := hclosed body hbody
    cases body with
    | line l kind =>
      rw [trimEnd]
      split
      · exact issues_nil
      · exact .ofPure hbody
    | append l left right =>
      have hleft : known left := hknown left (by simp [Doc.operands])
      have hright : known right := hknown right (by simp [Doc.operands])
      rw [trimEnd]
      refine (ih right (by simp [Doc.operands]) hright).bind
        fun known' trimmed hgrows htrimmed => ?_
      split
      · exact ih left (by simp [Doc.operands]) (hgrows left hleft)
      · split
        · exact .ofPure (hgrows _ hbody)
        · exact issues_append (hgrows left hleft) htrimmed
    | group l body =>
      have h : body ∈ (Doc.group l body).operands := List.mem_singleton_self body
      rw [trimEnd]
      exact (ih body h (hknown body h)).bind fun _ trimmed _ htrimmed => issues_regroup l htrimmed
    | indent l body =>
      have h : body ∈ (Doc.indent l body).operands := List.mem_singleton_self body
      rw [trimEnd]
      refine (ih body h (hknown body h)).bind fun _ trimmed _ htrimmed => ?_
      exact issues_fresh (fun _ => rfl) fun _ => by simpa [Doc.operands] using htrimmed
    | align l shift body =>
      have h : body ∈ (Doc.align l shift body).operands := List.mem_singleton_self body
      rw [trimEnd]
      refine (ih body h (hknown body h)).bind fun _ trimmed _ htrimmed => ?_
      exact issues_fresh (fun _ => rfl) fun _ => by simpa [Doc.operands] using htrimmed
    | text l origin content =>
      cases origin with
      | owned =>
        rw [trimEnd]
        split
        · exact issues_text _ _
        · exact .ofPure hbody
      | fixed => exact .ofPure hbody
    | nil | fill | breakParent | suffix | cursor | measured => exact .ofPure hbody

end Build

namespace Construction

def operands {δ : Type} : Construction δ → List δ
  | .nil | .text _ _ | .verbatim _ | .line _ | .breakParent | .cursor => []
  | .append left right => [left, right]
  | .concat docs | .fill docs => docs
  | .intersperse docs separator => separator :: docs
  | .group body | .expandedGroup body | .indent body | .align _ body | .toRoot body | .suffix body
  | .shiftRight _ _ body | .trimEnd body => [body]

theorem issues_build [TextWidth] {c : Construction Doc} (h : ∀ y ∈ c.operands, known y) :
    IssuesDoc known c.build := by
  cases c with
  | nil => exact Build.issues_nil
  | text origin content => exact Build.issues_text origin content
  | verbatim content => exact Build.issues_verbatim content
  | line kind => exact Build.issues_line kind
  | breakParent => exact Build.issues_fresh (fun _ => rfl) nofun
  | cursor => exact Build.issues_fresh (fun _ => rfl) nofun
  | append left right => exact Build.issues_append (h left (.head _)) (h right (.tail _ (.head _)))
  | concat docs => exact Build.issues_concat h
  | intersperse docs separator =>
    rw [operands, List.forall_mem_cons] at h
    exact Build.issues_intersperse h.2 h.1
  | fill docs => exact Build.issues_fill h
  | group body => exact Build.issues_group (h body (.head _))
  | expandedGroup body => exact Build.issues_expandedGroup (h body (.head _))
  | indent body => exact Build.issues_indent (h body (.head _))
  | align columns body => exact Build.issues_align columns (h body (.head _))
  | toRoot body => exact Build.issues_toRoot (h body (.head _))
  | suffix body => exact Build.issues_suffix (h body (.head _))
  | shiftRight size tabWidth body => exact Build.issues_shiftRight size tabWidth (h body (.head _))
  | trimEnd body => exact Build.issues_trimEnd (h body (.head _))

end Construction

theorem issues_spreadBreaks {doc : Doc} (hdoc : known doc) :
    Issues known (spreadBreaks doc) fun _ _ => True := fun s hs =>
  ⟨known, fun _ => id, hs.of_next (next_spreadBreaks (hs.isGraph hdoc) s), trivial⟩

end SourceLayout
