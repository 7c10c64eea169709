import SourceLayout.Proofs.Pass.Breaks
import SourceLayout.Ruleset.Grammar

/-! # Line comments around a node

What is printed around a node keeps line comments apart from everything else. In the sequence that
the node stands in, a leading one is followed by a hard line, and a trailing one is held back. Both
break all groups of the document of a pass in which the commented node stands. A rule that trims
what it was handed can take the hard line away again.
-/

namespace SourceLayout

namespace Doc

variable {x y : Doc}

def sequence : Doc → List Doc
  | .nil _ => []
  | .append _ left right => left.sequence ++ right.sequence
  | doc => [doc]

theorem sequence_of_isNil (h : x.isNil = true) : x.sequence = [] := by
  cases x with
  | nil l => rfl
  | _ => cases h

theorem mem_parts_of_mem_sequence (h : y ∈ x.sequence) : y ∈ x.parts := by
  induction x using inductionOn with
  | step x ih =>
    cases x with
    | nil => cases h
    | append l left right =>
      rcases List.mem_append.mp h with h | h
      · exact mem_parts_of_operand (by simp [operands]) (ih left (by simp [operands]) h)
      · exact mem_parts_of_operand (by simp [operands]) (ih right (by simp [operands]) h)
    | _ =>
      obtain rfl := List.mem_singleton.mp h
      exact mem_parts_self _

theorem infix_sequence {docs : List Doc} (hy : y.sequence = docs.flatMap sequence) (hx : x ∈ docs) :
    x.sequence <:+: y.sequence := by
  obtain ⟨front, back, rfl⟩ := List.append_of_mem hx
  rw [hy, List.flatMap_append, List.flatMap_cons, ← List.append_assoc]
  exact List.infix_append _ _ _

end Doc

namespace Build

variable {body : Doc}

theorem sequence_append (left right : Doc) (s : Store) :
    ((append left right).run s).1.sequence = left.sequence ++ right.sequence := by
  unfold append
  split
  · rename_i hleft
    rw [Doc.sequence_of_isNil hleft]
    rfl
  · split
    · rename_i hright
      rw [Doc.sequence_of_isNil hright, List.append_nil]
      rfl
    · rfl

theorem sequence_concat (docs : List Doc) (s : Store) :
    ((concat docs).run s).1.sequence = docs.flatMap Doc.sequence := by
  have hfold : ∀ (first : Doc) (s : Store), ((docs.foldlM append first).run s).1.sequence =
      first.sequence ++ docs.flatMap Doc.sequence := by
    induction docs with
    | nil => exact fun first s => (List.append_nil _).symm
    | cons doc docs ih =>
      intro first s
      rw [List.foldlM_cons, List.flatMap_cons, ← List.append_assoc, ← sequence_append first doc s]
      exact ih _ _
  exact hfold _ _

theorem exists_suffix (h : body.sequence ≠ []) (s : Store) :
    ∃ l, ((suffix body).run s).1 = .suffix l body := by
  unfold suffix
  split
  · rename_i hnil
    exact absurd (Doc.sequence_of_isNil hnil) h
  · exact ⟨_, rfl⟩

end Build

/-- A document breaks the groups it is in, whichever groups are broken already. -/
def Doc.Stirs (doc : Doc) : Prop := ∀ s : Store, s.Forced doc

theorem Doc.Stirs.of_mem_sequence {x y : Doc} (hy : y ∈ x.sequence) (h : y.Stirs) : x.Stirs :=
  fun s => (h s).of_mem_parts (mem_parts_of_mem_sequence hy)

theorem Doc.stirs_line {l : Label} {kind : LineKind} (h : kind.isForced = true) :
    (Doc.line l kind).Stirs :=
  fun _ => ⟨_, mem_parts_self _, h⟩

/-- A step of a pass succeeds, and `P` holds of the entries that it adds to the journal and of its
result. -/
def Adds {α : Type} (x : PassM α) (P : List Entry → α → Prop) : Prop :=
  ∀ s, Completes x s fun a s' => ∃ new, s'.session.journal = new ++ s.session.journal ∧ P new a

def Silent {α : Type} (x : PassM α) (P : α → Prop) : Prop := Adds x fun new a => new = [] ∧ P a

section Steps

variable {α β : Type} {x : PassM α} {f : α → PassM β} {P : List Entry → α → Prop} {Q : α → Prop}
  {R : List Entry → β → Prop}

theorem Adds.mono (hx : Adds x P) {P' : List Entry → α → Prop} (h : ∀ new a, P new a → P' new a) :
    Adds x P' :=
  fun s => (hx s).mono fun a _ ⟨new, hnew, ha⟩ => ⟨new, hnew, h new a ha⟩

theorem Adds.bind (hx : Adds x P)
    (hf : ∀ new a, P new a → Adds (f a) fun new' b => R (new' ++ new) b) : Adds (x >>= f) R := by
  intro s
  refine (hx s).bind fun a s' ⟨new, hnew, ha⟩ =>
    (hf new a ha s').mono fun b s'' ⟨new', hnew', hb⟩ => ?_
  exact ⟨new' ++ new, by rw [hnew', hnew, List.append_assoc], hb⟩

theorem Adds.ofPure {a : α} (h : P [] a) : Adds (pure a) P := fun _ => .ofPure ⟨[], rfl, h⟩

theorem Silent.adds (hx : Silent x Q) (h : ∀ a, Q a → P [] a) : Adds x P :=
  hx.mono fun _ a ⟨hnew, ha⟩ => hnew ▸ h a ha

theorem Silent.bind (hx : Silent x Q) (hf : ∀ a, Q a → Adds (f a) R) : Adds (x >>= f) R := by
  refine Adds.bind hx fun new a ⟨hnew, ha⟩ => ?_
  subst hnew
  simpa only [List.append_nil] using hf a ha

end Steps

namespace Pass

/-- A comment stands in the sequence of a document, and right behind it a hard line. -/
def EndsLine (contents doc : Doc) : Prop :=
  ∃ l, contents.sequence ++ [.line l .hard] <:+: doc.sequence

/-- A comment is held back in the sequence of a document, which breaks what it is in. -/
def HoldsBack (contents doc : Doc) : Prop :=
  (∃ l body, .suffix l body ∈ doc.sequence ∧ contents.sequence <:+ body.sequence) ∧
    ∃ y ∈ doc.sequence, y.Stirs

/-- An entry of the journal says that a comment was printed, and if it is a line comment, `Q` holds
of what was printed for it and of the document. -/
def Prints (job : Job) (Q : Doc → Doc → Prop) (c : CommentId) (new : List Entry) (doc : Doc) :
    Prop :=
  ∃ contents, ⟨job.language, .comment c contents⟩ ∈ new ∧
    (job.grammar.isBlock (job.scene.tree.comment c) = false → Q contents doc)

theorem EndsLine.mono {contents doc doc' : Doc} (h : EndsLine contents doc)
    (hdoc : doc.sequence <:+: doc'.sequence) : EndsLine contents doc' := by
  obtain ⟨l, hstands⟩ := h
  exact ⟨l, hstands.trans hdoc⟩

theorem HoldsBack.mono {contents doc doc' : Doc} (h : HoldsBack contents doc)
    (hdoc : doc.sequence <:+: doc'.sequence) : HoldsBack contents doc' := by
  obtain ⟨⟨l, body, hsuffix, hbody⟩, y, hy, hstirs⟩ := h
  exact ⟨⟨l, body, hdoc.mem hsuffix, hbody⟩, y, hdoc.mem hy, hstirs⟩

theorem Prints.mono {job : Job} {Q : Doc → Doc → Prop} {c : CommentId} {new new' : List Entry}
    {doc doc' : Doc} (h : Prints job Q c new doc) (hnew : ∀ e ∈ new, e ∈ new')
    (hdoc : ∀ contents, Q contents doc → Q contents doc') : Prints job Q c new' doc' := by
  obtain ⟨contents, hentry, hline⟩ := h
  exact ⟨contents, hnew _ hentry, fun h => hdoc contents (hline h)⟩

theorem holdsBack_suffix {contents blank body : Doc} {l l' : Label}
    (hbody : body.sequence = .line l .hard :: blank.sequence ++ contents.sequence) :
    HoldsBack contents (.suffix l' body) := by
  have hline : Doc.line l .hard ∈ body.sequence := by simp [hbody]
  have hstirs : body.Stirs := (Doc.stirs_line rfl).of_mem_sequence hline
  constructor
  · refine ⟨l', body, List.mem_singleton_self _, ?_⟩
    rw [hbody]
    exact List.suffix_append _ _
  · refine ⟨_, List.mem_singleton_self _, fun s => (hstirs s).of_mem_parts ?_⟩
    exact Doc.mem_parts_of_operand (List.mem_singleton_self _) body.mem_parts_self

theorem holdsBack_breakParent {contents space body doc : Doc} {l l' : Label}
    (hbody : body.sequence = space.sequence ++ contents.sequence)
    (hdoc : doc.sequence = [.suffix l body, .breakParent l']) : HoldsBack contents doc := by
  constructor
  · refine ⟨l, body, by simp [hdoc], ?_⟩
    rw [hbody]
    exact List.suffix_append _ _
  · exact ⟨.breakParent l', by simp [hdoc], fun _ => ⟨_, Doc.mem_parts_self _, rfl⟩⟩

theorem stirs_of_prints {job : Job} {c : CommentId} {new : List Entry} {doc : Doc}
    (hline : job.grammar.isBlock (job.scene.tree.comment c) = false)
    (h : Prints job EndsLine c new doc ∨ Prints job HoldsBack c new doc) : doc.Stirs := by
  rcases h with ⟨contents, -, hends⟩ | ⟨contents, -, hholds⟩
  · obtain ⟨l, hstands⟩ := hends hline
    have hmem : Doc.line l .hard ∈ doc.sequence := hstands.mem (by simp)
    exact (Doc.stirs_line rfl).of_mem_sequence hmem
  · obtain ⟨-, y, hy, hstirs⟩ := hholds hline
    exact hstirs.of_mem_sequence hy

section Line

variable [TextWidth] {nested : Text → Text → Options → SessionM Doc} {job : Job}
  {print : Cursor → Option Flags → PassM Doc} {α β : Type} {P : List Entry → α → Prop}
  {Q : α → Prop} {R : List Entry → β → Prop}

theorem adds_run_bind {x : Rule α} {f : α → Rule β} (hx : Adds (x.run (answer nested job print)) P)
    (hf : ∀ new a, P new a →
      Adds ((f a).run (answer nested job print)) fun new' b => R (new' ++ new) b) :
    Adds ((x >>= f).run (answer nested job print)) R := by
  rw [Program.run_bind]
  exact hx.bind hf

theorem silent_run_bind {x : Rule α} {f : α → Rule β}
    (hx : Silent (x.run (answer nested job print)) Q)
    (hf : ∀ a, Q a → Adds ((f a).run (answer nested job print)) R) :
    Adds ((x >>= f).run (answer nested job print)) R := by
  rw [Program.run_bind]
  exact hx.bind hf

theorem silent_build {c : Construction Doc} {Q : Doc → Prop} (h : ∀ s, Q (c.build.run s).1) :
    Silent ((Rule.build c).run (answer nested job print)) Q :=
  fun s => ⟨_, _, rfl, [], rfl, rfl, h s.session.store⟩

theorem silent_line (kind : LineKind) :
    Silent ((Rule.line kind).run (answer nested job print)) fun doc => ∃ l, doc = .line l kind :=
  silent_build fun _ => ⟨_, rfl⟩

theorem silent_concat (docs : List Doc) :
    Silent ((Rule.concat docs).run (answer nested job print))
      fun doc => doc.sequence = docs.flatMap Doc.sequence :=
  silent_build (Build.sequence_concat docs)

theorem silent_append (left right : Doc) :
    Silent ((Rule.build (.append left right)).run (answer nested job print))
      fun doc => doc.sequence = left.sequence ++ right.sequence :=
  silent_build (Build.sequence_append left right)

theorem adds_comment (c : CommentId) :
    Adds ((Rule.comment c).run (answer nested job print))
      fun new doc => new = [⟨job.language, .comment c doc⟩] :=
  fun _ => ⟨_, _, rfl, [_], rfl, rfl⟩

theorem silent_leadingSeparator (c : Comment) :
    Silent ((Rule.leadingSeparator job.grammar job.scene c).run (answer nested job print))
      fun separator => job.grammar.isBlock c = false → ∃ l, separator = .line l .hard := by
  unfold Rule.leadingSeparator
  split
  · exact (silent_line .hard).mono fun _ _ h => ⟨h.1, fun _ => h.2⟩
  · rename_i hblock
    have hsilent : ∀ construction : Construction Doc,
        Silent ((Rule.build construction).run (answer nested job print)) fun separator =>
          job.grammar.isBlock c = false → ∃ l, separator = .line l .hard :=
      fun _ => silent_build fun _ h => absurd h (by simpa using hblock)
    split
    · split
      · exact hsilent _
      · exact hsilent _
    · exact hsilent _

theorem adds_leadingComment (c : CommentId) :
    Adds ((Rule.leadingComment job.grammar job.scene c).run (answer nested job print))
      (Prints job EndsLine c) := by
  unfold Rule.leadingComment
  apply adds_run_bind (adds_comment c)
  rintro _ contents rfl
  apply silent_run_bind (silent_leadingSeparator _)
  intro separator hseparator
  apply silent_run_bind (silent_append contents separator)
  intro doc hdoc
  have hprints : ∀ doc' : Doc, doc.sequence <:+: doc'.sequence →
      Prints job EndsLine c [⟨job.language, .comment c contents⟩] doc' := by
    intro doc' hstands
    refine ⟨contents, List.mem_singleton_self _, fun hline => ?_⟩
    obtain ⟨l, rfl⟩ := hseparator hline
    rw [hdoc] at hstands
    exact ⟨l, hstands⟩
  split
  · apply silent_run_bind (silent_line .hard)
    intro line _
    apply (silent_append doc line).adds
    intro doc' hdoc'
    apply hprints
    rw [hdoc']
    exact (List.prefix_append _ _).isInfix
  · exact .ofPure (hprints doc List.infix_rfl)

theorem silent_suffix {body : Doc} (hbody : body.sequence ≠ []) :
    Silent ((Rule.build (.suffix body)).run (answer nested job print)) fun doc =>
      ∃ l, doc = .suffix l body :=
  silent_build (Build.exists_suffix hbody)

theorem silent_heldBack (blank contents : Doc) :
    Silent ((Rule.heldBack blank contents).run (answer nested job print)) (HoldsBack contents) := by
  unfold Rule.heldBack
  apply silent_run_bind (silent_line .hard)
  rintro _ ⟨l, rfl⟩
  apply silent_run_bind (silent_concat [.line l .hard, blank, contents])
  intro body hbody
  have hbody : body.sequence = .line l .hard :: blank.sequence ++ contents.sequence := by
    simpa [Doc.sequence] using hbody
  apply (silent_suffix (by simp [hbody])).mono
  rintro new doc ⟨hnew, l', rfl⟩
  exact ⟨hnew, holdsBack_suffix hbody⟩

theorem adds_trailingComment (c : CommentId) :
    Adds ((Rule.trailingComment job.grammar job.scene c).run (answer nested job print))
      (Prints job HoldsBack c) := by
  have hprints : ∀ contents doc : Doc,
      (job.grammar.isBlock (job.scene.tree.comment c) = false → HoldsBack contents doc) →
      Prints job HoldsBack c [⟨job.language, .comment c contents⟩] doc :=
    fun contents _ h => ⟨contents, List.mem_singleton_self _, h⟩
  unfold Rule.trailingComment
  apply adds_run_bind (adds_comment c)
  rintro _ contents rfl
  dsimp only
  split
  · have hheld : ∀ blank, Adds ((Rule.heldBack blank contents).run (answer nested job print))
        fun new doc => Prints job HoldsBack c (new ++ [⟨job.language, .comment c contents⟩]) doc :=
      fun blank => (silent_heldBack blank contents).adds
        fun doc h => hprints contents doc fun _ => h
    split
    · exact silent_run_bind (silent_line .hard) fun blank _ => hheld blank
    · exact silent_run_bind (Q := fun _ => True) (silent_build fun _ => trivial)
        fun blank _ => hheld blank
  · have hspace : Silent ((Rule.fixed [' ']).run (answer nested job print)) fun doc =>
        doc.sequence ≠ [] := silent_build fun _ => List.cons_ne_nil _ _
    apply silent_run_bind hspace
    intro space hspace
    apply silent_run_bind (silent_concat [space, contents])
    intro body hbody
    have hbody : body.sequence = space.sequence ++ contents.sequence := by simpa using hbody
    split
    · rename_i hblock
      exact .ofPure
        (hprints contents _ fun hline => absurd (hline.symm.trans hblock) Bool.false_ne_true)
    · apply silent_run_bind (silent_suffix (by simp [hbody, hspace]))
      rintro _ ⟨l, rfl⟩
      apply silent_run_bind (Q := fun doc => ∃ l, doc = .breakParent l) (silent_build fun _ => ⟨_, rfl⟩)
      rintro _ ⟨l', rfl⟩
      apply (silent_append (.suffix l body) (.breakParent l')).adds
      exact fun doc hdoc => hprints contents doc fun _ => holdsBack_breakParent hbody hdoc

theorem adds_mapM {rule : CommentId → Rule Doc} {Q : Doc → Doc → Prop}
    (h : ∀ c, Adds ((rule c).run (answer nested job print)) (Prints job Q c)) (cs : List CommentId) :
    Adds ((cs.mapM rule).run (answer nested job print))
      fun new docs => ∀ c ∈ cs, ∃ doc ∈ docs, Prints job Q c new doc := by
  induction cs with
  | nil => exact .ofPure nofun
  | cons c cs ih =>
    rw [List.mapM_cons]
    refine adds_run_bind (h c) fun new doc hdoc =>
      adds_run_bind ih fun new' docs hdocs => .ofPure ?_
    rw [List.forall_mem_cons]
    refine ⟨⟨doc, .head _, hdoc.mono (fun e he => by simp [he]) fun _ => id⟩, fun c' hc' => ?_⟩
    obtain ⟨doc', hdoc', hprints⟩ := hdocs c' hc'
    exact ⟨doc', .tail _ hdoc', hprints.mono (fun e he => by simp [he]) fun _ => id⟩

theorem adds_amidComments (n : NodeId) (content : Doc) :
    Adds ((Rule.amidComments job.grammar job.scene n content).run (answer nested job print))
      fun new doc =>
        (∀ c ∈ job.scene.attachments.placed n .leading, Prints job EndsLine c new doc) ∧
          ∀ c ∈ job.scene.attachments.placed n .trailing, Prints job HoldsBack c new doc := by
  unfold Rule.amidComments
  dsimp only
  split
  · rename_i hempty
    rw [Bool.and_eq_true, List.isEmpty_iff, List.isEmpty_iff] at hempty
    rw [hempty.1, hempty.2]
    exact .ofPure ⟨nofun, nofun⟩
  · apply adds_run_bind (adds_mapM adds_leadingComment _)
    intro new before hbefore
    apply adds_run_bind (adds_mapM adds_trailingComment _)
    intro new' after hafter
    apply (silent_concat (before ++ content :: after)).adds
    intro doc hdoc
    have hstands : ∀ y ∈ before ++ content :: after, y.sequence <:+: doc.sequence :=
      fun y hy => Doc.infix_sequence hdoc hy
    constructor
    · intro c hc
      obtain ⟨y, hy, hprints⟩ := hbefore c hc
      exact hprints.mono (fun e he => by simp [he]) fun _ h => h.mono (hstands y (by simp [hy]))
    · intro c hc
      obtain ⟨y, hy, hprints⟩ := hafter c hc
      exact hprints.mono (fun e he => by simp [he]) fun _ h => h.mono (hstands y (by simp [hy]))

theorem silent_markedIf (marked : Bool) (commented : Doc) :
    Silent ((Rule.markedIf marked commented).run (answer nested job print))
      fun doc => commented.sequence <:+: doc.sequence := by
  unfold Rule.markedIf
  split
  · apply silent_run_bind (Q := fun _ => True) (silent_build fun _ => trivial)
    intro first _
    apply silent_run_bind (Q := fun _ => True) (silent_build fun _ => trivial)
    intro last _
    apply (silent_concat [first, commented, last]).mono
    rintro new doc ⟨hnew, hdoc⟩
    exact ⟨hnew, Doc.infix_sequence hdoc (by simp)⟩
  · exact .ofPure ⟨rfl, List.infix_rfl⟩

/-- What is printed around a node keeps its line comments apart. -/
theorem adds_surround (n : NodeId) (content : Doc) :
    Adds ((Rule.surround job.grammar job.scene job.marked n content).run (answer nested job print))
      fun new doc =>
        (∀ c ∈ job.scene.attachments.placed n .leading, Prints job EndsLine c new doc) ∧
          ∀ c ∈ job.scene.attachments.placed n .trailing, Prints job HoldsBack c new doc := by
  rw [Rule.surround_eq]
  refine adds_run_bind (adds_amidComments n content) fun new commented ⟨hleading, htrailing⟩ => ?_
  refine (silent_markedIf _ commented).adds fun doc hdoc => ⟨fun c hc => ?_, fun c hc => ?_⟩
  · exact (hleading c hc).mono (fun e he => he) fun _ h => h.mono hdoc
  · exact (htrailing c hc).mono (fun e he => he) fun _ h => h.mono hdoc

/-- A group of the document of a pass breaks if it holds a document that breaks what it is in. -/
theorem isBroken_of_stirs {g : Grammar} {languages : Languages} {options : Options} {tree : Tree}
    {depth : Nat} {language : Option Text} {known : Doc → Prop} {session session' : Session}
    {doc body x : Doc} {l : Label} (hg : g.Honest) (hlanguages : ∀ l ∈ languages, l.grammar.Honest)
    (hmade : session.Made known)
    (hpass : (overTree (formatWithin languages depth) language g options tree).run.run session =
      (.ok doc, session'))
    (hbody : .group l body ∈ doc.parts) (hx : x ∈ body.parts) (hstirs : x.Stirs) :
    session'.store.isBroken l = true := by
  obtain ⟨known', -, hissued, hdoc⟩ :=
    grants_overTree (fun _ => grants_formatWithin hlanguages depth) hg
    language options tree session hmade
  rw [hpass] at hissued hdoc
  have hgraph : doc.IsGraph := Issued.isGraph hissued (hdoc doc rfl)
  obtain ⟨store, hstore⟩ := exists_spread_of_overTree hpass
  rw [hstore]
  exact isBroken_of_forced_spreadBreaks hgraph hbody ((hstirs _).of_mem_parts hx)

/-- A node is always surrounded with success. In the document that comes of it, each line comment
that is printed in front of the node is directly followed by a hard line, and each one printed behind
it stands in a suffix. If there is such a comment, all groups that hold this document break in the
document of any pass. -/
theorem line_comments_break {g : Grammar} {languages : Languages} {options : Options} {tree : Tree}
    {depth : Nat} {language : Option Text} {known : Doc → Prop} {session session' : Session}
    {doc : Doc} (hg : g.Honest) (hlanguages : ∀ l ∈ languages, l.grammar.Honest)
    (hmade : session.Made known)
    (hpass : (overTree (formatWithin languages depth) language g options tree).run.run session =
      (.ok doc, session'))
    (nested : Text → Text → Options → SessionM Doc) (job : Job)
    (print : Cursor → Option Flags → PassM Doc) (n : NodeId) (content : Doc) (s : PassState) :
    let leading := job.scene.attachments.placed n .leading
    let trailing := job.scene.attachments.placed n .trailing
    ∃ commented s' new,
      ((Rule.surround job.grammar job.scene job.marked n content).run
        (answer nested job print)).run.run s = (.ok commented, s') ∧
      s'.session.journal = new ++ s.session.journal ∧
      (∀ c ∈ leading, Prints job EndsLine c new commented) ∧
      (∀ c ∈ trailing, Prints job HoldsBack c new commented) ∧
      ((∃ c ∈ leading ++ trailing, job.grammar.isBlock (job.scene.tree.comment c) = false) →
        ∀ l body, .group l body ∈ doc.parts → commented ∈ body.parts →
          session'.store.isBroken l = true) := by
  have hadds : Adds ((Rule.surround job.grammar job.scene job.marked n content).run
      (answer nested job print)) _ := adds_surround n content
  dsimp only
  obtain ⟨commented, s', hrun, new, hnew, hleading, htrailing⟩ := hadds s
  refine ⟨commented, s', new, hrun, hnew, hleading, htrailing, ?_⟩
  rintro ⟨c, hc, hline⟩ l body hbody hcommented
  apply isBroken_of_stirs hg hlanguages hmade hpass hbody hcommented
  apply stirs_of_prints hline
  exact (List.mem_append.mp hc).imp (hleading c) (htrailing c)

end Line

section Sample

attribute [local instance] TextWidth.perCharacter

def plainJob (t : Tree) (a : Attachments) : Job where
  grammar := Toy.grammar false
  scene := { tree := t, options := {}, attachments := a }
  marked := none
  language := none

theorem line_comments_break_brokenList :
    ∃ t a events doc session, Toy.parse brokenList = .ok t ∧
      assignComments (Toy.grammar false).toCommentPolicy t = .ok (a, events) ∧
      layoutTree (Toy.grammar false) Toy.languages {} t = (.ok doc, session) ∧
      doc.parts.any session.store.breaks = true ∧
      ∃ commented s' new, ((Rule.surround (Toy.grammar false) (plainJob t a).scene none 0
          (.text 0 .owned ['a'])).run (answer (formatWithin Toy.languages 1) (plainJob t a)
            (printAt (formatWithin Toy.languages 1) (plainJob t a) 1))).run.run
          { session := { store := { next := 1 } } } = (.ok commented, s') ∧
        s'.session.journal = new ++ [] ∧
        (∃ contents, ⟨none, .comment 0 contents⟩ ∈ new ∧ HoldsBack contents commented) ∧
        ∀ l body, .group l body ∈ doc.parts → commented ∈ body.parts →
          session.store.isBroken l = true := by
  have hreport : ((Toy.parse brokenList).toOption.bind fun t =>
      (assignComments (Toy.grammar false).toCommentPolicy t).toOption.bind fun assigned =>
        let run := layoutTree (Toy.grammar false) Toy.languages {} t
        run.1.toOption.map fun doc => (assigned.1.placed 0 .trailing,
          (Toy.grammar false).isBlock (t.comment 0), doc.parts.any run.2.store.breaks)) =
      some ([0], false, true) := by
    decide +kernel
  obtain ⟨t, hparse, hreport⟩ := Option.bind_eq_some_iff.mp hreport
  obtain ⟨⟨a, events⟩, hassign, hreport⟩ := Option.bind_eq_some_iff.mp hreport
  obtain ⟨doc, hdoc, hreport⟩ := Option.map_eq_some_iff.mp hreport
  simp only [Prod.mk.injEq] at hreport
  obtain ⟨htrailing, hline, hbreaks⟩ := hreport
  obtain ⟨session, hlayout⟩ : ∃ session,
      layoutTree (Toy.grammar false) Toy.languages {} t = (.ok doc, session) :=
    ⟨_, Prod.ext (toOption_eq_some_iff.mp hdoc) rfl⟩
  have hmade : Session.Made (fun _ => False) {} := Issued.none _
  obtain ⟨commented, s', new, hrun, hnew, -, hheld, hgroups⟩ :=
    line_comments_break (Toy.honest_grammar false) Toy.honest_languages hmade hlayout
      (formatWithin Toy.languages 1) (plainJob t a) (printAt (formatWithin Toy.languages 1) (plainJob t a) 1)
      0 (.text 0 .owned ['a']) { session := { store := { next := 1 } } }
  have hmem : 0 ∈ (plainJob t a).scene.attachments.placed 0 .trailing := by
    change 0 ∈ a.placed 0 .trailing
    rw [htrailing]
    exact List.mem_singleton_self 0
  obtain ⟨contents, hentry, hholds⟩ := hheld 0 hmem
  refine ⟨t, a, events, doc, session, toOption_eq_some_iff.mp hparse, toOption_eq_some_iff.mp hassign,
    hlayout, ?_, commented, s', new, hrun, hnew, ⟨contents, hentry, hholds hline⟩, ?_⟩
  · have hstore : session.store = (layoutTree (Toy.grammar false) Toy.languages {} t).2.store := by
      rw [hlayout]
    rw [hstore]
    exact hbreaks
  · exact hgroups ⟨0, List.mem_append_right _ hmem, hline⟩

def trimming : Ruleset where
  rules := [
    ("Program", .group (.sequence [.fixed ['('], .trimEnd (.list "body" .nothing), .fixed [')']])),
    ("Ident", .nothing)]

def ledName : Text := "// c\na".toList

/-- Whether a document is a flat group of brackets around the text that a pass printed for its only
comment. -/
def bracketed (session : Session) : Doc → Bool
  | .group l (.append _ (.append _ (.text _ .fixed _) (.text k .owned content)) (.text _ .fixed _)) =>
    !session.store.isBroken l && session.journal.any fun
      | ⟨none, .comment 0 (.text k' .owned content')⟩ => k' == k && content' == content
      | _ => false
  | _ => false

theorem of_bracketed {session : Session} {doc : Doc} (h : bracketed session doc = true) :
    ∃ l body contents, doc = .group l body ∧ contents ∈ body.parts ∧ session.store.isBroken l = false ∧
      ⟨none, .comment 0 contents⟩ ∈ session.journal ∧ ∀ k kind, .line k kind ∉ doc.parts := by
  unfold bracketed at h
  split at h
  · rename_i l _ _ _ _ k content _ _
    rw [Bool.and_eq_true, Bool.not_eq_true', List.any_eq_true] at h
    obtain ⟨hflat, entry, hentry, hcontents⟩ := h
    refine ⟨l, _, .text k .owned content, rfl, by simp [Doc.parts], hflat, ?_, by simp [Doc.parts]⟩
    split at hcontents
    · simp only [Bool.and_eq_true, beq_iff_eq] at hcontents
      rwa [← hcontents.1, ← hcontents.2]
    · cases hcontents
  · cases h

theorem exists_trimmed_line_comment :
    ∃ t a events doc session, Toy.parse ledName = .ok t ∧
      assignComments (trimming.grammar (Toy.grammar false)).toCommentPolicy t = .ok (a, events) ∧
      layoutTree (trimming.grammar (Toy.grammar false)) Toy.languages {} t = (.ok doc, session) ∧
      a.placed 0 .leading = [0] ∧
      (trimming.grammar (Toy.grammar false)).isBlock (t.comment 0) = false ∧
      ∃ l body contents, doc = .group l body ∧ contents ∈ body.parts ∧ session.store.isBroken l = false ∧
        ⟨none, .comment 0 contents⟩ ∈ session.journal ∧ ∀ k kind, .line k kind ∉ doc.parts := by
  have hreport : ((Toy.parse ledName).toOption.bind fun t =>
      (assignComments (trimming.grammar (Toy.grammar false)).toCommentPolicy t).toOption.bind
        fun assigned =>
          let run := layoutTree (trimming.grammar (Toy.grammar false)) Toy.languages {} t
          run.1.toOption.map fun doc => (assigned.1.placed 0 .leading,
            (trimming.grammar (Toy.grammar false)).isBlock (t.comment 0), bracketed run.2 doc)) =
      some ([0], false, true) := by
    decide +kernel
  obtain ⟨t, hparse, hreport⟩ := Option.bind_eq_some_iff.mp hreport
  obtain ⟨⟨a, events⟩, hassign, hreport⟩ := Option.bind_eq_some_iff.mp hreport
  obtain ⟨doc, hdoc, hreport⟩ := Option.map_eq_some_iff.mp hreport
  simp only [Prod.mk.injEq] at hreport
  obtain ⟨hleading, hline, hbracketed⟩ := hreport
  exact ⟨t, a, events, doc, _, toOption_eq_some_iff.mp hparse, toOption_eq_some_iff.mp hassign,
    Prod.ext (toOption_eq_some_iff.mp hdoc) rfl, hleading, hline, of_bracketed hbracketed⟩

end Sample

end Pass

end SourceLayout
