import Mathlib.Tactic.SplitIfs
import SourceLayout.Doc.Build
import SourceLayout.Doc.Notation
import SourceLayout.Proofs.Text.Decoding

/-! # What the compact form tells

The compact form of a document shows all of it but its labels, the nesting of its sequences and
where its texts came from. An outline can be read back from its compact form, because each part
shows by its first character what it is and ends where a bracket or a comma follows.
-/

namespace SourceLayout

namespace Outline

mutual

/-- The names in an outline are words. -/
def Spelled : Outline → Prop
  | .quoted _ | .number _ => True
  | .list items => SpelledAll items
  | .named name parts => (name.toList ≠ [] ∧ ∀ c ∈ name.toList, c.isAlpha = true) ∧ SpelledAll parts

def SpelledAll : List Outline → Prop
  | [] => True
  | item :: items => item.Spelled ∧ SpelledAll items

end

def Leads : Outline → Char → Prop
  | .quoted _, c => c = '"'
  | .number _, c => c = '-' ∨ c.isDigit = true
  | .list _, c => c = '['
  | .named _ _, c => c.isAlpha = true

def Ending (rest : Text) : Prop := ∀ c ∈ rest.head?, c = ',' ∨ c = ')' ∨ c = ']'

theorem Ending.nil : Ending [] := nofun

theorem Ending.cons {c : Char} (rest : Text) (hc : c = ',' ∨ c = ')' ∨ c = ']') :
    Ending (c :: rest) := by
  simpa [Ending] using hc

theorem Ending.not_isDigit {rest : Text} (h : Ending rest) :
    ∀ c ∈ rest.head?, c.isDigit = false := by
  intro c hc
  rcases h c hc with rfl | rfl | rfl <;> rfl

theorem Ending.not_isAlpha {rest : Text} (h : Ending rest) :
    ∀ c ∈ rest.head?, c.isAlpha = false := by
  intro c hc
  rcases h c hc with rfl | rfl | rfl <;> rfl

theorem Leads.ne_ending {o : Outline} {c : Char} (h : o.Leads c) :
    ¬(c = ',' ∨ c = ')' ∨ c = ']') := by
  rintro (rfl | rfl | rfl) <;> cases o <;> simp [Leads] at h

theorem not_isAlpha_of_isDigit {c : Char} (h : c.isDigit = true) : c.isAlpha = false := by
  simp only [Char.isDigit, Bool.and_eq_true, decide_eq_true_eq, ge_iff_le, UInt32.le_iff_toNat_le] at h
  delta Char.isAlpha Char.isUpper Char.isLower
  simp only [ge_iff_le, UInt32.le_iff_toNat_le, Bool.or_eq_false_iff, Bool.and_eq_false_iff,
    decide_eq_false_iff_not]
  have h9 : '9'.val.toNat = 57 := rfl
  have hA : 'A'.val.toNat = 65 := rfl
  have ha : 'a'.val.toNat = 97 := rfl
  omega

def sort : Outline → Nat
  | .quoted _ => 0
  | .number _ => 1
  | .list _ => 2
  | .named _ _ => 3

theorem Leads.sort_eq {o o' : Outline} {c : Char} (h : o.Leads c) (h' : o'.Leads c) :
    o.sort = o'.sort := by
  have hdigit : c = '-' ∨ c.isDigit = true → c.isAlpha = false := by
    rintro (rfl | h)
    · rfl
    · exact not_isAlpha_of_isDigit h
  cases o <;> cases o' <;> simp only [Leads] at h h' <;> first
    | rfl
    | (subst h; simp at h')
    | (subst h'; simp at h)
    | simp [hdigit h] at h'
    | simp [hdigit h'] at h

theorem exists_compactOnto_eq_cons {o : Outline} (h : o.Spelled) (rest : Text) :
    ∃ c t, compactOnto rest o = c :: t ∧ o.Leads c := by
  cases o with
  | quoted content => exact ⟨'"', _, rfl, rfl⟩
  | number n =>
    obtain ⟨c, t, ht, hc⟩ := Text.exists_ofInt_eq_cons n
    exact ⟨c, t ++ rest, by rw [compactOnto, ht]; rfl, hc⟩
  | list items => exact ⟨'[', _, by rw [compactOnto], rfl⟩
  | named name parts =>
    rw [Spelled] at h
    obtain ⟨c, t, ht⟩ := List.exists_cons_of_ne_nil h.1.1
    have hc : c.isAlpha = true := h.1.2 c (by simp [ht])
    cases parts with
    | nil => exact ⟨c, t ++ rest, by rw [compactOnto, ht]; rfl, hc⟩
    | cons part parts => exact ⟨c, _, by rw [compactOnto, ht]; rfl, hc⟩

theorem sort_eq_of_compactOnto_eq {o o' : Outline} (h : o.Spelled) (h' : o'.Spelled)
    {rest rest' : Text} (heq : compactOnto rest o = compactOnto rest' o') : o.sort = o'.sort := by
  obtain ⟨c, t, ht, hc⟩ := exists_compactOnto_eq_cons h rest
  obtain ⟨c', t', ht', hc'⟩ := exists_compactOnto_eq_cons h' rest'
  rw [ht, ht', List.cons.injEq] at heq
  exact hc.sort_eq (heq.1 ▸ hc')

theorem name_append_inj {name name' : String} {rest rest' : Text}
    (h : ∀ c ∈ name.toList, c.isAlpha = true) (h' : ∀ c ∈ name'.toList, c.isAlpha = true)
    (hrest : ∀ c ∈ rest.head?, c.isAlpha = false) (hrest' : ∀ c ∈ rest'.head?, c.isAlpha = false)
    (heq : name.toList ++ rest = name'.toList ++ rest') : name = name' ∧ rest = rest' := by
  obtain ⟨hname, hrest⟩ := append_inj_of_class h h' hrest hrest' heq
  exact ⟨String.toList_inj.mp hname, hrest⟩

theorem compactAllOnto_cons (rest : Text) (item : Outline) (items : List Outline) :
    compactAllOnto rest (item :: items) = compactOnto (match items with
      | [] => rest
      | _ :: _ => ',' :: ' ' :: compactAllOnto rest items) item := by
  cases items <;> simp only [compactAllOnto]

mutual

/-- An outline can be told from what follows it. -/
theorem compactOnto_inj {rest rest' : Text} (hrest : Ending rest) (hrest' : Ending rest') :
    (o o' : Outline) → o.Spelled → o'.Spelled → compactOnto rest o = compactOnto rest' o' →
      o = o' ∧ rest = rest'
  | .quoted content, o', h, h', heq => by
    have hsort := sort_eq_of_compactOnto_eq h h' heq
    cases o' with
    | quoted content' =>
      rw [compactOnto, compactOnto] at heq
      obtain ⟨rfl, hrest⟩ := Text.quote_append_inj heq
      exact ⟨rfl, hrest⟩
    | number | list | named => simp [sort] at hsort
  | .number n, o', h, h', heq => by
    have hsort := sort_eq_of_compactOnto_eq h h' heq
    cases o' with
    | number n' =>
      rw [compactOnto, compactOnto] at heq
      obtain ⟨rfl, hrest⟩ := Text.ofInt_append_inj hrest.not_isDigit hrest'.not_isDigit heq
      exact ⟨rfl, hrest⟩
    | quoted | list | named => simp [sort] at hsort
  | .list items, o', h, h', heq => by
    have hsort := sort_eq_of_compactOnto_eq h h' heq
    cases o' with
    | list items' =>
      rw [compactOnto, compactOnto, List.cons.injEq] at heq
      rw [Spelled] at h h'
      obtain ⟨rfl, hrest⟩ := compactAllOnto_inj (.inr rfl) items items' h h' heq.2
      exact ⟨rfl, hrest⟩
    | quoted | number | named => simp [sort] at hsort
  | .named name [], o', h, h', heq => by
    have hsort := sort_eq_of_compactOnto_eq h h' heq
    cases o' with
    | named name' parts' =>
      rw [Spelled] at h h'
      cases parts' with
      | nil =>
        rw [compactOnto, compactOnto] at heq
        obtain ⟨rfl, hrest⟩ :=
          name_append_inj h.1.2 h'.1.2 hrest.not_isAlpha hrest'.not_isAlpha heq
        exact ⟨rfl, hrest⟩
      | cons part' parts' =>
        rw [compactOnto, compactOnto] at heq
        obtain ⟨-, rfl⟩ := name_append_inj h.1.2 h'.1.2 hrest.not_isAlpha (by simp) heq
        simp [Ending] at hrest
    | quoted | number | list => simp [sort] at hsort
  | .named name (part :: parts), o', h, h', heq => by
    have hsort := sort_eq_of_compactOnto_eq h h' heq
    cases o' with
    | named name' parts' =>
      rw [Spelled] at h h'
      cases parts' with
      | nil =>
        rw [compactOnto, compactOnto] at heq
        obtain ⟨-, rfl⟩ := name_append_inj h.1.2 h'.1.2 (by simp) hrest'.not_isAlpha heq
        simp [Ending] at hrest'
      | cons part' parts' =>
        rw [compactOnto, compactOnto] at heq
        obtain ⟨rfl, hbody⟩ := name_append_inj h.1.2 h'.1.2 (by simp) (by simp) heq
        rw [List.cons.injEq] at hbody
        obtain ⟨hparts, hrest⟩ :=
          compactAllOnto_inj (.inl rfl) (part :: parts) (part' :: parts') h.2 h'.2 hbody.2
        exact ⟨by rw [hparts], hrest⟩
    | quoted | number | list => simp [sort] at hsort

theorem compactAllOnto_inj {close : Char} {rest rest' : Text} (hclose : close = ')' ∨ close = ']') :
    (items items' : List Outline) → SpelledAll items → SpelledAll items' →
      compactAllOnto (close :: rest) items = compactAllOnto (close :: rest') items' →
      items = items' ∧ rest = rest'
  | [], [], _, _, heq => by
    rw [compactAllOnto, compactAllOnto, List.cons.injEq] at heq
    exact ⟨rfl, heq.2⟩
  | [], item' :: items', _, h', heq => by
    rw [SpelledAll] at h'
    rw [compactAllOnto, compactAllOnto_cons] at heq
    obtain ⟨c, t, ht, hc⟩ := exists_compactOnto_eq_cons h'.1 _
    rw [ht, List.cons.injEq] at heq
    exact absurd (.inr (heq.1 ▸ hclose)) hc.ne_ending
  | item :: items, [], h, _, heq => by
    rw [SpelledAll] at h
    rw [compactAllOnto, compactAllOnto_cons] at heq
    obtain ⟨c, t, ht, hc⟩ := exists_compactOnto_eq_cons h.1 _
    rw [ht, List.cons.injEq] at heq
    exact absurd (.inr (heq.1 ▸ hclose)) hc.ne_ending
  | item :: items, item' :: items', h, h', heq => by
    rw [SpelledAll] at h h'
    rw [compactAllOnto_cons, compactAllOnto_cons] at heq
    have hending : ∀ (items : List Outline) (rest : Text), Ending (match items with
        | [] => close :: rest
        | _ :: _ => ',' :: ' ' :: compactAllOnto (close :: rest) items) := by
      intro items rest
      cases items with
      | nil => exact .cons rest (.inr hclose)
      | cons => exact .cons _ (.inl rfl)
    have hcomma : close ≠ ',' := by rcases hclose with rfl | rfl <;> decide
    obtain ⟨rfl, htail⟩ := compactOnto_inj (hending items rest) (hending items' rest') item item'
      h.1 h'.1 heq
    cases items with
    | nil =>
      cases items' with
      | nil => exact ⟨rfl, (List.cons.inj htail).2⟩
      | cons => exact absurd (List.cons.inj htail).1 hcomma
    | cons next items =>
      cases items' with
      | nil => exact absurd (List.cons.inj htail).1.symm hcomma
      | cons next' items' =>
        simp only [List.cons.injEq, true_and] at htail
        obtain ⟨hitems, hrest⟩ :=
          compactAllOnto_inj hclose (next :: items) (next' :: items') h.2 h'.2 htail
        exact ⟨by rw [hitems], hrest⟩

end

theorem compact_inj {o o' : Outline} (h : o.Spelled) (h' : o'.Spelled)
    (heq : o.compact = o'.compact) : o = o' :=
  (compactOnto_inj .nil .nil o o' h h' heq).1

end Outline

/-- A document without its labels: a sequence is one list however it was put together, and a text
is a text wherever it came from and however wide it is. -/
inductive Form where
  | nil
  | sequence (parts : List Form)
  | group (broken : Bool) (body : Form)
  | fill (parts : List Form)
  | indent (body : Form)
  | align (shift : Shift) (body : Form)
  | line (kind : LineKind)
  | breakParent
  | suffix (body : Form)
  | cursor
  | text (content : Text)

namespace Form

def whole : List Form → Form
  | [form] => form
  | forms => .sequence forms

mutual

def outline : Form → Outline
  | .nil => .named "Nil" []
  | .sequence parts => .list (outlines parts)
  | .group broken body => .named (if broken then "BrokenGroup" else "Group") [outline body]
  | .fill parts => .named "Fill" [.list (outlines parts)]
  | .indent body => .named "Indent" [outline body]
  | .align shift body => .named "Align" [shift.outline, outline body]
  | .line kind => .named kind.name []
  | .breakParent => .named "BreakParent" []
  | .suffix body => .named "LineSuffix" [outline body]
  | .cursor => .named "Cursor" []
  | .text content => .quoted content

def outlines : List Form → List Outline
  | [] => []
  | form :: forms => outline form :: outlines forms

end

theorem outlines_append (forms forms' : List Form) :
    outlines (forms ++ forms') = outlines forms ++ outlines forms' := by
  induction forms with
  | nil => rfl
  | cons form forms ih => simp [outlines, ih]

theorem gather_outlines (forms : List Form) :
    Outline.gather (outlines forms) = (whole forms).outline := by
  match forms with
  | [] => rfl
  | [form] => rfl
  | form :: next :: forms => rfl

theorem spelled_shift (shift : Shift) : shift.outline.Spelled := by
  cases shift <;> simp [Shift.outline, Outline.Spelled, Outline.SpelledAll]

mutual

theorem spelled_outline : (form : Form) → form.outline.Spelled
  | .nil | .breakParent | .cursor => by simp [outline, Outline.Spelled, Outline.SpelledAll]
  | .text _ => by simp [outline, Outline.Spelled]
  | .sequence parts => by
    rw [outline, Outline.Spelled]
    exact spelled_outlines parts
  | .group broken body => by
    have hbody := spelled_outline body
    cases broken <;> simp [outline, Outline.Spelled, Outline.SpelledAll, hbody]
  | .fill parts => by
    have hparts := spelled_outlines parts
    simp [outline, Outline.Spelled, Outline.SpelledAll, hparts]
  | .indent body | .suffix body => by
    have hbody := spelled_outline body
    simp [outline, Outline.Spelled, Outline.SpelledAll, hbody]
  | .align shift body => by
    have hbody := spelled_outline body
    simp [outline, Outline.Spelled, Outline.SpelledAll, spelled_shift, hbody]
  | .line kind => by
    cases kind <;> simp [outline, LineKind.name, Outline.Spelled, Outline.SpelledAll]

theorem spelled_outlines : (forms : List Form) → Outline.SpelledAll (outlines forms)
  | [] => by simp [outlines, Outline.SpelledAll]
  | form :: forms => by
    rw [outlines, Outline.SpelledAll]
    exact ⟨spelled_outline form, spelled_outlines forms⟩

end

theorem shift_outline_inj {shift shift' : Shift} (h : shift.outline = shift'.outline) :
    shift = shift' := by
  cases shift <;> cases shift' <;> simp_all [Shift.outline]

mutual

/-- No two forms have one outline. -/
theorem outline_inj : (form form' : Form) → form.outline = form'.outline → form = form'
  | .nil, form', h | .breakParent, form', h | .cursor, form', h => by
    cases form' with
    | line kind => cases kind <;> simp [outline, LineKind.name] at h
    | _ => simp [outline] at h <;> rfl
  | .text content, form', h => by
    cases form' <;> simp [outline] at h
    rw [h]
  | .sequence parts, form', h => by
    cases form' <;> simp [outline] at h
    rw [outlines_inj _ _ h]
  | .group broken body, form', h => by
    cases form' with
    | group broken' body' =>
      simp only [outline, Outline.named.injEq, List.cons.injEq, and_true] at h
      rw [outline_inj body body' h.2]
      cases broken <;> cases broken' <;> simp_all
    | _ => cases broken <;> simp [outline] at h
  | .fill parts, form', h => by
    cases form' with
    | fill parts' =>
      simp only [outline, Outline.named.injEq, List.cons.injEq, Outline.list.injEq, and_true,
        true_and] at h
      rw [outlines_inj parts parts' h]
    | group broken body => cases broken <;> simp [outline] at h
    | _ => simp [outline] at h
  | .indent body, form', h | .suffix body, form', h => by
    cases form' with
    | group broken body => cases broken <;> simp [outline] at h
    | _ =>
      simp [outline] at h <;> rw [outline_inj _ _ h]
  | .align shift body, form', h => by
    cases form' <;> simp [outline] at h
    rw [shift_outline_inj h.1, outline_inj _ _ h.2]
  | .line kind, form', h => by
    cases form' with
    | line kind' =>
      simp only [outline, Outline.named.injEq, and_true] at h
      cases kind <;> cases kind' <;> simp_all [LineKind.name]
    | _ => cases kind <;> simp [outline, LineKind.name] at h

theorem outlines_inj : (forms forms' : List Form) → outlines forms = outlines forms' →
    forms = forms'
  | [], [], _ => rfl
  | [], _ :: _, h | _ :: _, [], h => by simp [outlines] at h
  | form :: forms, form' :: forms', h => by
    rw [outlines, outlines, List.cons.injEq] at h
    rw [outline_inj form form' h.1, outlines_inj forms forms' h.2]

end

end Form

namespace Doc

mutual

/-- What a document adds to the sequence it stands in; `breaks` tells which groups are broken. -/
def members (breaks : Label → Bool) : Doc → List Form
  | .nil _ => [.nil]
  | .append _ left right => members breaks left ++ members breaks right
  | .group l body => [.group (breaks l) (.whole (members breaks body))]
  | .fill _ parts => [.fill (forms breaks parts)]
  | .indent _ body => [.indent (.whole (members breaks body))]
  | .align _ shift body => [.align shift (.whole (members breaks body))]
  | .line _ kind => [.line kind]
  | .breakParent _ => [.breakParent]
  | .suffix _ body => [.suffix (.whole (members breaks body))]
  | .cursor _ => [.cursor]
  | .measured _ _ body => [.whole (members breaks body)]
  | .text _ _ content => [.text content]

def forms (breaks : Label → Bool) : List Doc → List Form
  | [] => []
  | doc :: docs => .whole (members breaks doc) :: forms breaks docs

end

/-- A document after nested sequences are made one and the origin of texts is forgotten. -/
def form (s : Store) (doc : Doc) : Form := .whole (doc.members s.isBroken)

mutual

theorem items_eq_outlines (s : Store) :
    (doc : Doc) → doc.items s = Form.outlines (doc.members s.isBroken)
  | .append l left right => by
    rw [items_append, items_eq_outlines s left, items_eq_outlines s right, members,
      Form.outlines_append]
  | .group l body | .indent l body | .align l _ body | .suffix l body | .measured l _ body => by
    have hbody := items_eq_outlines s body
    rw [items] at hbody
    simp [items, itemsOnto, members, Form.outlines, Form.outline, hbody, Form.gather_outlines]
  | .fill l parts => by
    simp [items, itemsOnto, members, Form.outlines, Form.outline, outlines_eq_outlines s parts]
  | .nil _ | .line _ _ | .breakParent _ | .cursor _ | .text _ _ _ => by
    simp [items, itemsOnto, members, Form.outlines, Form.outline]

theorem outlines_eq_outlines (s : Store) :
    (docs : List Doc) → outlines s docs = Form.outlines (forms s.isBroken docs)
  | [] => by simp [outlines, forms, Form.outlines]
  | doc :: docs => by
    have hdoc := items_eq_outlines s doc
    rw [items] at hdoc
    simp [outlines, forms, Form.outlines, hdoc, Form.gather_outlines, outlines_eq_outlines s docs]

end

theorem outline_eq (s : Store) (doc : Doc) : doc.outline s = (doc.form s).outline := by
  rw [outline, items_eq_outlines, Form.gather_outlines, form]

theorem form_eq_of_compact_eq {s s' : Store} {doc doc' : Doc}
    (h : doc.compact s = doc'.compact s') : doc.form s = doc'.form s' := by
  rw [compact, compact, outline_eq, outline_eq] at h
  apply Form.outline_inj
  exact Outline.compact_inj (Form.spelled_outline _) (Form.spelled_outline _) h

def content (breaks : Label → Bool) (doc : Doc) : List Form :=
  if doc.isNil then [] else doc.members breaks

theorem content_of_isNil {breaks : Label → Bool} {doc : Doc} (h : doc.isNil = true) :
    doc.content breaks = [] :=
  if_pos h

theorem members_ne_nil (breaks : Label → Bool) : (doc : Doc) → doc.members breaks ≠ []
  | .append _ left _ => by simp [members, members_ne_nil breaks left]
  | .nil _ | .group _ _ | .fill _ _ | .indent _ _ | .align _ _ _ | .line _ _ | .breakParent _
  | .suffix _ _ | .cursor _ | .measured _ _ _ | .text _ _ _ => by simp [members]

theorem form_eq_of_content_eq {s s' : Store} {doc doc' : Doc}
    (h : doc.content s.isBroken = doc'.content s'.isBroken) : doc.form s = doc'.form s' := by
  have hform : ∀ (s : Store) (doc : Doc), doc.form s =
      if (doc.content s.isBroken).isEmpty then .nil else .whole (doc.content s.isBroken) := by
    intro s doc
    by_cases hnil : doc.isNil = true
    · rw [content_of_isNil hnil]
      cases doc with
      | nil l => rfl
      | _ => simp [isNil] at hnil
    · have hmembers := members_ne_nil s.isBroken doc
      rw [content, if_neg hnil, if_neg (by simpa using hmembers), form]
  rw [hform s doc, hform s' doc', h]

end Doc

namespace Build

/-- A step leaves the groups as they are and ends with a document of the given parts. -/
def Shows (breaks : Label → Bool) (x : DocM Doc) (parts : List Form) : Prop :=
  ∀ s : Store, s.isBroken = breaks →
    (x.run s).2.isBroken = breaks ∧ (x.run s).1.content breaks = parts

variable {breaks : Label → Bool} {x : DocM Doc} {f : Doc → DocM Doc} {parts parts' : List Form}

theorem Shows.bind (hx : Shows breaks x parts)
    (hf : ∀ doc, doc.content breaks = parts → Shows breaks (f doc) parts') :
    Shows breaks (x >>= f) parts' := by
  intro s hs
  obtain ⟨hs', hdoc⟩ := hx s hs
  exact hf _ hdoc _ hs'

theorem shows_pure (doc : Doc) : Shows breaks (pure doc) (doc.content breaks) :=
  fun _ hs => ⟨hs, rfl⟩

theorem shows_nil : Shows breaks nil [] := fun _ hs => ⟨hs, rfl⟩

theorem shows_append (left right : Doc) :
    Shows breaks (append left right) (left.content breaks ++ right.content breaks) := by
  unfold append
  split_ifs with hleft hright
  · rw [Doc.content_of_isNil hleft]
    exact shows_pure right
  · rw [Doc.content_of_isNil hright, List.append_nil]
    exact shows_pure left
  · intro s hs
    refine ⟨hs, ?_⟩
    simp only [Doc.content, hleft, hright, Bool.false_eq_true, if_false]
    exact if_neg Bool.false_ne_true

theorem shows_foldlM_append (first : Doc) (docs : List Doc) :
    Shows breaks (docs.foldlM append first)
      (first.content breaks ++ docs.flatMap (Doc.content breaks)) := by
  induction docs generalizing first with
  | nil => simpa using shows_pure first
  | cons doc docs ih =>
    rw [List.foldlM_cons]
    apply (shows_append first doc).bind
    intro joined hjoined
    have hrest := ih joined
    rwa [hjoined, List.append_assoc, ← List.flatMap_cons] at hrest

theorem shows_concat (docs : List Doc) :
    Shows breaks (concat docs) (docs.flatMap (Doc.content breaks)) := by
  apply shows_nil.bind
  intro start hstart
  have hfold : Shows breaks (docs.foldlM append start)
      (start.content breaks ++ docs.flatMap (Doc.content breaks)) := shows_foldlM_append start docs
  rwa [hstart, List.nil_append] at hfold

theorem shows_intersperse (docs : List Doc) (separator : Doc) :
    Shows breaks (intersperse docs separator)
      ((docs.intersperse separator).flatMap (Doc.content breaks)) := by
  apply shows_nil.bind
  intro start hstart
  cases docs with
  | nil =>
    have hpure : Shows breaks (pure start) (start.content breaks) := shows_pure start
    rw [hstart] at hpure
    exact hpure
  | cons first rest =>
    apply (shows_append start first).bind
    rw [hstart, List.nil_append]
    intro soFar hsoFar
    have hrest : ∀ soFar, Shows breaks (rest.foldlM (fun soFar doc => do
        append (← append soFar separator) doc) soFar)
        (soFar.content breaks ++
          rest.flatMap fun doc => separator.content breaks ++ doc.content breaks) := by
      induction rest with
      | nil => intro soFar; simpa using shows_pure soFar
      | cons doc rest ih =>
        intro soFar
        rw [List.foldlM_cons]
        have hnext : Shows breaks (do append (← append soFar separator) doc)
            (soFar.content breaks ++ separator.content breaks ++ doc.content breaks) := by
          apply (shows_append soFar separator).bind
          intro joined hjoined
          rw [← hjoined]
          exact shows_append joined doc
        apply hnext.bind
        intro joined hjoined
        have htail := ih joined
        simpa [hjoined, List.append_assoc] using htail
    have hparts : ((first :: rest).intersperse separator).flatMap (Doc.content breaks) =
        soFar.content breaks ++
          rest.flatMap fun doc => separator.content breaks ++ doc.content breaks := by
      rw [hsoFar]
      clear hsoFar hrest
      induction rest generalizing first with
      | nil => simp
      | cons next rest ih => simp [ih, List.append_assoc]
    rw [hparts]
    exact hrest soFar

theorem Shows.compact_eq {y : DocM Doc} {s : Store} (hx : Shows s.isBroken x parts)
    (hy : Shows s.isBroken y parts) :
    (x.run s).1.compact (x.run s).2 = (y.run s).1.compact (y.run s).2 := by
  obtain ⟨hs, hdoc⟩ := hx s rfl
  obtain ⟨hs', hdoc'⟩ := hy s rfl
  have hform : (x.run s).1.form (x.run s).2 = (y.run s).1.form (y.run s).2 := by
    apply Doc.form_eq_of_content_eq
    rw [hs, hs', hdoc, hdoc']
  rw [Doc.compact, Doc.compact, Doc.outline_eq, Doc.outline_eq, hform]

end Build

/-- Two documents have one compact form if and only if they are the same once nested sequences are
made one and it is forgotten where texts came from. So it does not show how a sequence was put
together: piece by piece from either end, from two sequences, or with a separator in between. -/
theorem compact_eq_iff_form_eq :
    (∀ (s s' : Store) (doc doc' : Doc),
      doc.compact s = doc'.compact s' ↔ doc.form s = doc'.form s') ∧
    ∀ (s : Store),
      (∀ a b c : Doc,
        let left := (do Build.append (← Build.append a b) c : DocM Doc).run s
        let right := (do Build.append a (← Build.append b c) : DocM Doc).run s
        left.1.compact left.2 = right.1.compact right.2) ∧
      (∀ docs docs' : List Doc,
        let joined := (Build.concat (docs ++ docs')).run s
        let apart := (do Build.append (← Build.concat docs) (← Build.concat docs') : DocM Doc).run s
        joined.1.compact joined.2 = apart.1.compact apart.2) ∧
      ∀ (docs : List Doc) (separator : Doc),
        let parted := (Build.intersperse docs separator).run s
        let listed := (Build.concat (docs.intersperse separator)).run s
        parted.1.compact parted.2 = listed.1.compact listed.2 := by
  constructor
  · intro s s' doc doc'
    constructor
    · exact Doc.form_eq_of_compact_eq
    · intro h
      rw [Doc.compact, Doc.compact, Doc.outline_eq, Doc.outline_eq, h]
  · intro s
    refine ⟨fun a b c => ?_, fun docs docs' => ?_, fun docs separator => ?_⟩
    · have hleft : Build.Shows s.isBroken (do Build.append (← Build.append a b) c)
          (a.content s.isBroken ++ b.content s.isBroken ++ c.content s.isBroken) := by
        apply (Build.shows_append a b).bind
        intro joined hjoined
        rw [← hjoined]
        exact Build.shows_append joined c
      apply hleft.compact_eq
      apply (Build.shows_append b c).bind
      intro joined hjoined
      rw [List.append_assoc, ← hjoined]
      exact Build.shows_append a joined
    · apply Build.Shows.compact_eq (Build.shows_concat (docs ++ docs'))
      apply (Build.shows_concat docs).bind
      intro first hfirst
      apply (Build.shows_concat docs').bind
      intro second hsecond
      rw [List.flatMap_append, ← hfirst, ← hsecond]
      exact Build.shows_append first second
    · exact Build.Shows.compact_eq (Build.shows_intersperse docs separator)
        (Build.shows_concat (docs.intersperse separator))

end SourceLayout
