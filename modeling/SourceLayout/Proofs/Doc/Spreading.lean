import Std.Data.TreeMap.Lemmas
import Std.Data.TreeSet.Lemmas
import SourceLayout.Doc.Spread

/-! # Which groups break

A document is a graph: it may hold another one in several places, and a label stands for one
document wherever it occurs. In a graph the walk that spreads breaks, with its table of answers,
breaks the groups that hold a forced break and no others. The plain recursion through all places
of the document, which looks nothing up, breaks the same ones.
-/

namespace SourceLayout

namespace Doc

variable {x y z : Doc}

def operands : Doc → List Doc
  | .append _ left right => [left, right]
  | .fill _ parts => parts
  | .group _ body | .indent _ body | .align _ _ body | .suffix _ body | .measured _ _ body => [body]
  | .nil _ | .line _ _ | .breakParent _ | .cursor _ | .text _ _ _ => []

mutual

/-- A document and the documents in it, once for each place where they stand. -/
def parts : Doc → List Doc
  | .append l left right => .append l left right :: (parts left ++ parts right)
  | .group l body => .group l body :: parts body
  | .fill l docs => .fill l docs :: partsAll docs
  | .indent l body => .indent l body :: parts body
  | .align l shift body => .align l shift body :: parts body
  | .suffix l body => .suffix l body :: parts body
  | .measured l width body => .measured l width body :: parts body
  | .nil l => [.nil l]
  | .line l kind => [.line l kind]
  | .breakParent l => [.breakParent l]
  | .cursor l => [.cursor l]
  | .text l origin content => [.text l origin content]

def partsAll : List Doc → List Doc
  | [] => []
  | doc :: docs => parts doc ++ partsAll docs

end

/-- A label stands for one document, so the document is a graph. -/
def IsGraph (d : Doc) : Prop := ∀ x ∈ d.parts, ∀ y ∈ d.parts, x.label = y.label → x = y

theorem isGraph_of_find (h : ∀ y ∈ x.parts, x.parts.find? (·.label == y.label) = some y) :
    x.IsGraph := by
  intro y hy z hz hlabel
  have hfind := h y hy
  rw [hlabel, h z hz] at hfind
  exact (Option.some.inj hfind).symm

theorem sizeOf_lt_of_mem_operands (h : y ∈ x.operands) : sizeOf y < sizeOf x := by
  cases x with
  | append l left right =>
    simp only [operands, List.mem_cons, List.not_mem_nil, or_false] at h
    simp only [append.sizeOf_spec]
    rcases h with rfl | rfl <;> omega
  | fill l docs =>
    have hlt : sizeOf y < sizeOf docs := List.sizeOf_lt_of_mem h
    simp only [fill.sizeOf_spec]
    omega
  | group l body | indent l body | align l shift body | suffix l body | measured l width body =>
    obtain rfl := List.mem_singleton.mp h
    simp only [group.sizeOf_spec, indent.sizeOf_spec, align.sizeOf_spec, suffix.sizeOf_spec,
      measured.sizeOf_spec]
    omega
  | nil | line | breakParent | cursor | text => cases h

/-- What holds of a document whenever it holds of those it is made of, holds of all documents. -/
@[elab_as_elim]
theorem inductionOn {motive : Doc → Prop} (x : Doc)
    (step : ∀ x, (∀ y ∈ x.operands, motive y) → motive x) : motive x :=
  step x fun y _ => inductionOn y step
termination_by sizeOf x
decreasing_by exact sizeOf_lt_of_mem_operands ‹_›

@[simp] theorem mem_partsAll {docs : List Doc} : y ∈ partsAll docs ↔ ∃ x ∈ docs, y ∈ x.parts := by
  induction docs with
  | nil => simp [partsAll]
  | cons x docs ih => simp [partsAll, ih]

theorem mem_parts_iff : y ∈ x.parts ↔ y = x ∨ ∃ z ∈ x.operands, y ∈ z.parts := by
  cases x <;> simp [parts, operands]

theorem mem_parts_self (x : Doc) : x ∈ x.parts := mem_parts_iff.mpr (.inl rfl)

theorem mem_parts_of_operand (hy : y ∈ x.operands) (hz : z ∈ y.parts) : z ∈ x.parts :=
  mem_parts_iff.mpr (.inr ⟨y, hy, hz⟩)

theorem mem_parts_trans (hy : y ∈ x.parts) (hz : z ∈ y.parts) : z ∈ x.parts := by
  induction x using inductionOn with
  | step x ih =>
    rcases mem_parts_iff.mp hy with rfl | ⟨u, hu, hy⟩
    · exact hz
    · exact mem_parts_of_operand hu (ih u hu hy)

end Doc

namespace Store

variable {s : Store} {x y : Doc} {l : Label}

@[simp] theorem isBroken_breakGroup {k : Label} :
    (s.breakGroup k).isBroken l = true ↔ k = l ∨ s.isBroken l = true := by
  simp [isBroken, breakGroup, Std.TreeSet.contains_insert]

/-- Whether a document by itself breaks the groups around it. -/
def forces (s : Store) : Doc → Bool
  | .line _ kind => kind.isForced
  | .breakParent _ => true
  | .group l _ => s.isBroken l
  | _ => false

/-- A document holds a forced line, a request to break or a group that breaks. -/
def Forced (s : Store) (x : Doc) : Prop := ∃ y ∈ x.parts, s.forces y = true

theorem forced_iff : s.Forced x ↔ s.forces x = true ∨ ∃ y ∈ x.operands, s.Forced y := by
  constructor
  · rintro ⟨z, hz, hforces⟩
    rcases Doc.mem_parts_iff.mp hz with rfl | ⟨y, hy, hz⟩
    · exact .inl hforces
    · exact .inr ⟨y, hy, z, hz, hforces⟩
  · rintro (h | ⟨y, hy, z, hz, hforces⟩)
    · exact ⟨x, x.mem_parts_self, h⟩
    · exact ⟨z, Doc.mem_parts_of_operand hy hz, hforces⟩

theorem Forced.of_mem_parts (h : s.Forced y) (hy : y ∈ x.parts) : s.Forced x := by
  obtain ⟨z, hz, hforces⟩ := h
  exact ⟨z, Doc.mem_parts_trans hy hz, hforces⟩

end Store

namespace Spreading

variable {before : Store} {d x : Doc} {docs docs' : List Doc} {find : SpreadM Bool}
  {forced forced' : Prop} {σ : Spreading}

def Marked (before after : Store) (x : Doc) : Prop :=
  ∀ l body, .group l body ∈ x.parts → before.Forced body → after.isBroken l = true

theorem marked_iff {after : Store} : Marked before after x ↔
    (∀ l body, x = .group l body → before.Forced body → after.isBroken l = true) ∧
      ∀ y ∈ x.operands, Marked before after y := by
  constructor
  · intro h
    exact ⟨fun l body hx => h l body (hx ▸ x.mem_parts_self),
      fun y hy l body hbody => h l body (Doc.mem_parts_of_operand hy hbody)⟩
  · rintro ⟨hself, hrest⟩ l body hbody
    rcases Doc.mem_parts_iff.mp hbody with hx | ⟨y, hy, hbody⟩
    · exact hself l body hx.symm
    · exact hrest y hy l body hbody

/-- On the way through `d` only groups that hold a forced break have been broken, and the answers
in the table are right and belong to documents whose groups are dealt with. -/
structure Sound (before : Store) (d : Doc) (σ : Spreading) : Prop where
  next_eq : σ.store.next = before.next
  kept : ∀ l, before.isBroken l = true → σ.store.isBroken l = true
  broken : ∀ l, σ.store.isBroken l = true →
    before.isBroken l = true ∨ ∃ body, .group l body ∈ d.parts ∧ before.Forced body
  known : ∀ x ∈ d.parts, ∀ answer, σ.known[x.label]? = some answer →
    (answer = true ↔ before.Forced x) ∧ Marked before σ.store x

theorem sound_init (before : Store) (d : Doc) : Sound before d { store := before } where
  next_eq := rfl
  kept _ h := h
  broken _ h := .inl h
  known x _ answer h := by simp at h

/-- A walk tells whether something forces a break, and deals with the groups of `docs`. -/
def Answers (before : Store) (d : Doc) (find : SpreadM Bool) (forced : Prop) (docs : List Doc) :
    Prop :=
  ∀ σ, Sound before d σ → Sound before d (find.run σ).2 ∧
    (∀ l, σ.store.isBroken l = true → (find.run σ).2.store.isBroken l = true) ∧
    ((find.run σ).1 = true ↔ forced) ∧ ∀ x ∈ docs, Marked before (find.run σ).2.store x

namespace Answers

theorem ofPure (answer : Bool) : Answers before d (pure answer) (answer = true) [] :=
  fun _ hσ => ⟨hσ, fun _ h => h, Iff.rfl, fun _ hx => (nomatch hx)⟩

theorem mono (h : Answers before d find forced docs) (hforced : forced ↔ forced')
    (hdocs : ∀ σ, (∀ x ∈ docs, Marked before (find.run σ).2.store x) →
      ∀ x ∈ docs', Marked before (find.run σ).2.store x) :
    Answers before d find forced' docs' := by
  intro σ hσ
  obtain ⟨hsound, hgrows, hanswer, hmarked⟩ := h σ hσ
  exact ⟨hsound, hgrows, hanswer.trans hforced, hdocs σ hmarked⟩

theorem bind {next : Bool → SpreadM Bool} (h : Answers before d find forced docs)
    (hnext : ∀ answer, (answer = true ↔ forced) → Answers before d (next answer) forced' docs') :
    Answers before d (find >>= next) forced' (docs ++ docs') := by
  intro σ hσ
  obtain ⟨hsound, hgrows, hanswer, hmarked⟩ := h σ hσ
  obtain ⟨hsound', hgrows', hanswer', hmarked'⟩ := hnext _ hanswer _ hsound
  refine ⟨hsound', fun l hl => hgrows' l (hgrows l hl), hanswer', fun x hx => ?_⟩
  rcases List.mem_append.mp hx with hx | hx
  · exact fun l body hbody hforced => hgrows' l (hmarked x hx l body hbody hforced)
  · exact hmarked' x hx

theorem joined (h : Answers before d find forced docs) (spine : Option Bool) :
    Answers before d (Spreading.join spine find) (forced ∨ spine = some true) docs := by
  have hjoin : Answers before d (Spreading.join spine find) (forced ∨ spine = some true)
      (docs ++ []) := by
    refine h.bind fun answer hanswer => (Answers.ofPure _).mono ?_ fun _ h => h
    rcases spine with _ | _ | _ <;> simp [hanswer]
  rwa [List.append_nil] at hjoin

/-- An answer from the table is the one that the walk would give, because the label stands for one
document. -/
theorem memoised (hd : d.IsGraph) (hx : x ∈ d.parts)
    (h : Answers before d find (before.Forced x) [x]) :
    Answers before d (Spreading.memoised x.label find) (before.Forced x) [x] := by
  intro σ hσ
  cases hknown : σ.known[x.label]? with
  | some answer =>
    have hrun : (Spreading.memoised x.label find).run σ = (answer, σ) := by
      simp only [Spreading.memoised, StateT.run_bind, StateT.run_get, pure_bind, hknown]
      rfl
    obtain ⟨hanswer, hmarked⟩ := hσ.known x hx answer hknown
    rw [hrun]
    exact ⟨hσ, fun _ h => h, hanswer, by simpa using hmarked⟩
  | none =>
    obtain ⟨hsound, hgrows, hanswer, hmarked⟩ := h σ hσ
    have hrun : (Spreading.memoised x.label find).run σ = ((find.run σ).1,
        { (find.run σ).2 with known := (find.run σ).2.known.insert x.label (find.run σ).1 }) := by
      simp only [Spreading.memoised, StateT.run_bind, StateT.run_get, pure_bind, hknown]
      rfl
    rw [hrun]
    refine ⟨{ hsound with known := fun y hy answer hy' => ?_ }, hgrows, hanswer, hmarked⟩
    rw [Std.TreeMap.getElem?_insert] at hy'
    split at hy'
    · rename_i hlabel
      obtain rfl := hd x hx y hy (Std.LawfulEqCmp.eq_of_compare hlabel)
      obtain rfl := Option.some.inj hy'
      exact ⟨hanswer, hmarked x (List.mem_singleton_self x)⟩
    · exact hsound.known y hy answer hy'

end Answers

theorem forced_group {l : Label} {body : Doc} :
    before.Forced (.group l body) ↔ before.isBroken l = true ∨ before.Forced body := by
  rw [Store.forced_iff]
  simp [Store.forces, Doc.operands]

theorem Marked.breakGroup {after : Store} (h : Marked before after x) (l : Label) :
    Marked before (after.breakGroup l) x := fun k body hbody hforced =>
  Store.isBroken_breakGroup.mpr (.inr (h k body hbody hforced))

theorem Sound.breakGroup (h : Sound before d σ) {l : Label} {body : Doc}
    (hx : .group l body ∈ d.parts) (hforced : before.Forced body) :
    Sound before d { σ with store := σ.store.breakGroup l } where
  next_eq := h.next_eq
  kept k hk := Store.isBroken_breakGroup.mpr (.inr (h.kept k hk))
  broken k hk := by
    rcases Store.isBroken_breakGroup.mp hk with rfl | hk
    · exact .inr ⟨body, hx, hforced⟩
    · exact h.broken k hk
  known y hy answer hy' := (h.known y hy answer hy').imp id fun hm => hm.breakGroup l

theorem Sound.isBroken_group (hd : d.IsGraph) (h : Sound before d σ) {l : Label} {body : Doc}
    (hx : .group l body ∈ d.parts) (hmarked : before.Forced body → σ.store.isBroken l = true) :
    σ.store.isBroken l = true ↔ before.Forced (.group l body) := by
  rw [forced_group]
  constructor
  · intro hl
    apply (h.broken l hl).imp id
    rintro ⟨body', hbody, hforced⟩
    obtain ⟨-, rfl⟩ := Doc.group.inj (hd _ hbody _ hx rfl)
    exact hforced
  · rintro (hl | hforced)
    · exact h.kept l hl
    · exact hmarked hforced

theorem answers_settle (hd : d.IsGraph) {l : Label} {body : Doc} (hx : .group l body ∈ d.parts)
    (h : Answers before d find (before.Forced body) [body]) :
    Answers before d (find >>= settle l) (before.Forced (.group l body)) [.group l body] := by
  intro σ hσ
  obtain ⟨hsound, hgrows, hanswer, hmarked⟩ := h σ hσ
  rw [List.forall_mem_singleton] at hmarked
  have hgroup : ∀ after : Store, Marked before after body →
      (before.Forced body → after.isBroken l = true) → Marked before after (.group l body) := by
    intro after hbody hl
    rw [marked_iff]
    constructor
    · rintro k body' heq
      obtain ⟨rfl, rfl⟩ := Doc.group.inj heq
      exact hl
    · simpa [Doc.operands] using hbody
  rcases hrun : find.run σ with ⟨forced, σ'⟩
  rw [hrun] at hsound hgrows hanswer hmarked
  cases forced with
  | true =>
    have hforced := hanswer.mp rfl
    have hsound' := hsound.breakGroup hx hforced
    have hl : (σ'.store.breakGroup l).isBroken l = true := Store.isBroken_breakGroup.mpr (.inl rfl)
    have hsettle : (find >>= settle l).run σ =
        ((σ'.store.breakGroup l).isBroken l, { σ' with store := σ'.store.breakGroup l }) := by
      rw [StateT.run_bind, hrun]
      rfl
    rw [hsettle, List.forall_mem_singleton]
    exact ⟨hsound', fun k hk => Store.isBroken_breakGroup.mpr (.inr (hgrows k hk)),
      hsound'.isBroken_group hd hx fun _ => hl, hgroup _ (hmarked.breakGroup l) fun _ => hl⟩
  | false =>
    have hforced : ¬ before.Forced body := fun hf => Bool.false_ne_true (hanswer.mpr hf)
    have hsettle : (find >>= settle l).run σ = (σ'.store.isBroken l, σ') := by
      rw [StateT.run_bind, hrun]
      rfl
    rw [hsettle, List.forall_mem_singleton]
    exact ⟨hsound, hgrows, hsound.isBroken_group hd hx fun hf => absurd hf hforced,
      hgroup _ hmarked fun hf => absurd hf hforced⟩

theorem answers_walkAll {walkOne : Doc → SpreadM Bool} {walkMany : Bool → List Doc → SpreadM Bool}
    (hnil : ∀ forced, walkMany forced [] = pure forced)
    (hcons : ∀ forced x docs, walkMany forced (x :: docs) =
      walkOne x >>= fun inPart => walkMany (inPart || forced) docs)
    (h : ∀ x ∈ docs, Answers before d (walkOne x) (before.Forced x) [x]) (forced : Bool) :
    Answers before d (walkMany forced docs)
      (forced = true ∨ ∃ x ∈ docs, before.Forced x) docs := by
  induction docs generalizing forced with
  | nil =>
    rw [hnil]
    exact (Answers.ofPure forced).mono (by simp) fun _ h => h
  | cons x docs ih =>
    rw [List.forall_mem_cons] at h
    rw [hcons]
    refine h.1.bind fun inPart hpart => (ih h.2 _).mono ?_ fun _ h => h
    simp only [Bool.or_eq_true, hpart, List.mem_cons, exists_eq_or_imp]
    rw [← or_assoc, or_comm (a := before.Forced x)]

mutual

/-- The plain recursion: it goes through every place of a document and looks nothing up. -/
def plain : Doc → SpreadM Bool
  | .nil _ | .cursor _ | .text _ _ _ => pure false
  | .breakParent _ => pure true
  | .line _ kind => pure kind.isForced
  | .append _ left right => do
    let inLeft ← plain left
    let inRight ← plain right
    return inLeft || inRight
  | .group l body => do settle l (← plain body)
  | .fill _ parts => plainAll false parts
  | .indent _ body | .align _ _ body | .suffix _ body | .measured _ _ body => plain body

def plainAll (forced : Bool) : List Doc → SpreadM Bool
  | [] => pure forced
  | part :: parts => do
    let inPart ← plain part
    plainAll (inPart || forced) parts

end

theorem Answers.of_operands (hgroup : ∀ l body, x ≠ .group l body)
    (h : Answers before d find (before.forces x = true ∨ ∃ y ∈ x.operands, before.Forced y)
      x.operands) : Answers before d find (before.Forced x) [x] := by
  refine h.mono Store.forced_iff.symm fun σ hmarked => ?_
  rw [List.forall_mem_singleton, marked_iff]
  exact ⟨fun l body hx => absurd hx (hgroup l body), hmarked⟩

theorem Answers.of_body {body : Doc} (hgroup : ∀ l body, x ≠ .group l body)
    (hforces : before.forces x = false) (hx : x.operands = [body])
    (h : Answers before d find (before.Forced body) [body]) :
    Answers before d find (before.Forced x) [x] := by
  apply Answers.of_operands hgroup
  rw [hx]
  exact h.mono (by simp [hforces]) fun _ h => h

theorem Answers.of_leaf (answer : Bool) (hoperands : x.operands = [])
    (hgroup : ∀ l body, x ≠ .group l body) (hforces : before.forces x = answer) :
    Answers before d (pure answer) (before.Forced x) [x] := by
  apply Answers.of_operands hgroup
  rw [hoperands, hforces]
  exact (Answers.ofPure answer).mono (by simp) fun _ h => h

theorem forced_append {l : Label} {left right : Doc} :
    before.Forced (.append l left right) ↔ before.Forced left ∨ before.Forced right := by
  rw [Store.forced_iff]
  simp [Store.forces, Doc.operands]

theorem Answers.of_sides {l : Label} {left right : Doc} (hforced : docs.Perm [left, right])
    (h : Answers before d find forced docs) :
    Answers before d find forced [.append l left right] := by
  refine h.mono Iff.rfl fun σ hmarked => ?_
  rw [List.forall_mem_singleton, marked_iff]
  exact ⟨nofun, fun y hy => hmarked y (hforced.mem_iff.mpr hy)⟩

/-- The walk over a part of a graph, on its own or as the rest of a sequence. -/
theorem answers_walk (hd : d.IsGraph) (hx : x ∈ d.parts) (spine : Option Bool) :
    Answers before d (walk spine x) (before.Forced x ∨ spine = some true) [x] := by
  induction x using Doc.inductionOn generalizing spine with
  | step x ih =>
    have hpart : ∀ y ∈ x.operands, y ∈ d.parts := fun y hy =>
      Doc.mem_parts_trans hx (Doc.mem_parts_of_operand hy y.mem_parts_self)
    have hwalk : ∀ y ∈ x.operands, Answers before d (walk none y) (before.Forced y) [y] :=
      fun y hy => (ih y hy (hpart y hy) none).mono (by simp) fun _ h => h
    cases x with
    | nil l | cursor l | text l origin content | breakParent l | line l kind =>
      rw [walk]
      refine (Answers.memoised hd hx ?_).joined spine
      exact .of_leaf _ rfl nofun rfl
    | append l left right =>
      have hleft := ih left (by simp [Doc.operands]) (hpart left (by simp [Doc.operands]))
      have hright := hwalk right (by simp [Doc.operands])
      cases spine with
      | none =>
        rw [walk]
        refine (Answers.memoised hd hx ?_).mono (by simp) fun _ h => h
        refine .of_sides (.swap left right [])
          (hright.bind fun inRight hr => (hleft _).mono ?_ fun _ h => h)
        simp [forced_append, hr]
      | some forced =>
        rw [walk]
        refine .of_sides (.swap left right [])
          (hright.bind fun inRight hr => (hleft _).mono ?_ fun _ h => h)
        simp [forced_append, hr, or_assoc]
    | group l body =>
      rw [walk]
      exact ((answers_settle hd hx (hwalk body (List.mem_singleton_self _))).memoised hd hx).joined
        spine
    | fill l docs =>
      rw [walk]
      refine (Answers.memoised hd hx (.of_operands nofun ?_)).joined spine
      exact answers_walkAll (fun _ => by rw [walkAll]) (fun _ _ _ => by rw [walkAll]) hwalk false
    | indent l body | align l shift body | suffix l body | measured l width body =>
      rw [walk]
      refine (Answers.memoised hd hx ?_).joined spine
      exact .of_body nofun rfl rfl (hwalk body (List.mem_singleton_self _))

theorem answers_plain (hd : d.IsGraph) (hx : x ∈ d.parts) :
    Answers before d (plain x) (before.Forced x) [x] := by
  induction x using Doc.inductionOn with
  | step x ih =>
    have hplain : ∀ y ∈ x.operands, Answers before d (plain y) (before.Forced y) [y] :=
      fun y hy => ih y hy
        (Doc.mem_parts_trans hx (Doc.mem_parts_of_operand hy y.mem_parts_self))
    cases x with
    | nil l | cursor l | text l origin content | breakParent l | line l kind =>
      rw [plain]
      exact Answers.of_leaf _ rfl nofun rfl
    | append l left right =>
      have hleft := hplain left (by simp [Doc.operands])
      have hright := hplain right (by simp [Doc.operands])
      rw [plain]
      refine .of_sides (.refl _) (hleft.bind fun inLeft hl => hright.bind fun inRight hr =>
        (Answers.ofPure _).mono ?_ fun _ h => h)
      simp [forced_append, hl, hr]
    | group l body =>
      rw [plain]
      exact answers_settle hd hx (hplain body (List.mem_singleton_self _))
    | fill l docs =>
      rw [plain]
      refine .of_operands nofun ?_
      exact answers_walkAll (fun _ => by rw [plainAll]) (fun _ _ _ => by rw [plainAll]) hplain false
    | indent l body | align l shift body | suffix l body | measured l width body =>
      rw [plain]
      exact Answers.of_body nofun rfl rfl (hplain body (List.mem_singleton_self _))

theorem Answers.isBroken (h : Answers before d find forced [d]) {l : Label} :
    (find.run { store := before }).2.store.isBroken l = true ↔
      before.isBroken l = true ∨ ∃ body, .group l body ∈ d.parts ∧ before.Forced body := by
  obtain ⟨hsound, hgrows, -, hmarked⟩ := h _ (sound_init before d)
  constructor
  · exact hsound.broken l
  · rintro (hl | ⟨body, hbody, hforced⟩)
    · exact hgrows l hl
    · exact hmarked d (List.mem_singleton_self d) l body hbody hforced

end Spreading

/-- Breaks the same groups as `spreadBreaks`, without a table. -/
def spreadPlainly (doc : Doc) : DocM Unit :=
  modify fun store => ((Spreading.plain doc).run { store }).2.store

section Spread

variable {d body : Doc} {l : Label}

theorem isBroken_spreadBreaks (hd : d.IsGraph) (s : Store) (l : Label) :
    ((spreadBreaks d).run s).2.isBroken l = true ↔
      s.isBroken l = true ∨ ∃ body, .group l body ∈ d.parts ∧ s.Forced body :=
  ((Spreading.answers_walk hd d.mem_parts_self none)).isBroken

theorem isBroken_spreadPlainly (hd : d.IsGraph) (s : Store) (l : Label) :
    ((spreadPlainly d).run s).2.isBroken l = true ↔
      s.isBroken l = true ∨ ∃ body, .group l body ∈ d.parts ∧ s.Forced body :=
  ((Spreading.answers_plain hd d.mem_parts_self)).isBroken

theorem next_spreadBreaks (hd : d.IsGraph) (s : Store) :
    ((spreadBreaks d).run s).2.next = s.next :=
  ((Spreading.answers_walk hd d.mem_parts_self none) _ (Spreading.sound_init s d)).1.next_eq

/-- Spreading breaks the groups of a graph that hold a forced break and no others. -/
theorem isBroken_spreadBreaks_group (hd : d.IsGraph) (hbody : .group l body ∈ d.parts) (s : Store) :
    ((spreadBreaks d).run s).2.isBroken l = true ↔ s.isBroken l = true ∨ s.Forced body := by
  rw [isBroken_spreadBreaks hd]
  constructor
  · rintro (hl | ⟨body', hbody', hforced⟩)
    · exact .inl hl
    · obtain ⟨-, rfl⟩ := Doc.group.inj (hd _ hbody' _ hbody rfl)
      exact .inr hforced
  · exact Or.imp id fun hforced => ⟨body, hbody, hforced⟩

theorem isBroken_of_forced_spreadBreaks (hd : d.IsGraph) (hbody : .group l body ∈ d.parts)
    {s : Store} (h : ((spreadBreaks d).run s).2.Forced body) :
    ((spreadBreaks d).run s).2.isBroken l = true := by
  obtain ⟨y, hy, hforces⟩ := h
  rw [isBroken_spreadBreaks_group hd hbody]
  have hforced : s.Forced y → s.Forced body := fun h => h.of_mem_parts hy
  right
  cases y with
  | group k inner =>
    have hinner : .group k inner ∈ d.parts :=
      Doc.mem_parts_trans (Doc.mem_parts_trans hbody (Doc.mem_parts_of_operand
        (List.mem_singleton_self _) (Doc.mem_parts_self body))) hy
    apply hforced
    exact Spreading.forced_group.mpr ((isBroken_spreadBreaks_group hd hinner s).mp hforces)
  | _ => exact ⟨_, hy, hforces⟩

end Spread

end SourceLayout
