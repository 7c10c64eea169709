import SourceLayout.Pass.Run
import SourceLayout.Proofs.Pass.Effects

/-! # The parts of a pass

Printing a tree in named parts, and what all of printing does to the state of a pass: a relation
between states that is kept by the few primitive steps is kept by whole rules, nodes and trees,
whether they succeed or not.
-/

namespace SourceLayout

/-- A rule asks for nothing but what `ok` allows, and ends in a value that `P` holds of. -/
def Rule.Asks {α : Type} (ok : Request → Prop) (P : α → Prop) : Rule α → Prop
  | .done a => P a
  | .ask q next => ok q ∧ ∀ doc, Rule.Asks ok P (next doc)

namespace Rule

variable {α β : Type} {ok : Request → Prop} {P : α → Prop} {R : β → Prop} {x : Rule α}
  {f : α → Rule β}

theorem Asks.bind (hx : x.Asks ok P) (hf : ∀ a, P a → (f a).Asks ok R) : (x >>= f).Asks ok R := by
  induction x with
  | done a => exact hf a hx
  | ask q next ih => exact ⟨hx.1, fun doc => ih doc (hx.2 doc)⟩

theorem asks_request {q : Request} (h : ok q) : (request q).Asks ok fun _ => True :=
  ⟨h, fun _ => trivial⟩

theorem asks_mapM {γ : Type} {rule : γ → Rule Doc} {xs : List γ}
    (h : ∀ x ∈ xs, (rule x).Asks ok fun _ => True) :
    (xs.mapM rule).Asks ok fun docs => docs.length = xs.length := by
  induction xs with
  | nil => exact rfl
  | cons x xs ih =>
    rw [List.forall_mem_cons] at h
    rw [List.mapM_cons]
    exact h.1.bind fun doc _ => (ih h.2).bind fun docs hdocs => congrArg (· + 1) hdocs

/-- What every answer to an allowed request keeps is kept by the rule. -/
theorem Asks.moves {S : PassState → PassState → Prop} (hx : x.Asks ok P) (refl : ∀ s, S s s)
    (trans : ∀ s s' s'', S s s' → S s' s'' → S s s'') {answer : Request → PassM Doc}
    (h : ∀ q, ok q → Moves S (answer q)) : Moves S (x.run answer) := by
  induction x with
  | done a => exact .ofPure refl a
  | ask q next ih => exact (h q hx.1).bind trans fun doc => ih doc (hx.2 doc)

section Surround

variable (g : Grammar) (scene : Scene)

def heldBack (blank contents : Doc) : Rule Doc := do
  build (.suffix (← concat [← line .hard, blank, contents]))

def amidComments (n : NodeId) (doc : Doc) : Rule Doc := do
  let leading := scene.attachments.placed n .leading
  let trailing := scene.attachments.placed n .trailing
  if leading.isEmpty && trailing.isEmpty then return doc
  else
    let before ← leading.mapM (leadingComment g scene)
    let after ← trailing.mapM (trailingComment g scene)
    concat (before ++ doc :: after)

def markedIf (marked : Bool) (doc : Doc) : Rule Doc :=
  if marked then do concat [← build .cursor, doc, ← build .cursor] else return doc

theorem surround_eq (marked : Option NodeId) (n : NodeId) (doc : Doc) :
    surround g scene marked n doc =
      amidComments g scene n doc >>= markedIf (marked == some n) := by
  unfold surround amidComments
  dsimp only
  split
  · rfl
  · simp only [bind_assoc]
    rfl

end Surround

end Rule

theorem Tree.size_le_weight (t : Tree) : t.nodes.size ≤ t.weight := by
  have hfold : ∀ (ns : List Node) (sum : Nat), sum + ns.length ≤
      ns.foldl (fun sum n => sum + 1 + Value.sizeAll (n.fields.map (·.2))) sum := by
    intro ns
    induction ns with
    | nil => exact fun sum => Nat.le_refl _
    | cons n ns ih =>
      intro sum
      have hrest := ih (sum + 1 + Value.sizeAll (n.fields.map (·.2)))
      rw [List.length_cons, List.foldl_cons]
      omega
  have hnodes := hfold t.nodes.toList 0
  rw [Array.foldl_toList] at hnodes
  simpa [Tree.weight] using hnodes

namespace Pass

theorem add_three_le_depthLimit {t : Tree} {n : NodeId} (hn : n < t.nodes.size) :
    n + 3 ≤ depthLimit t := by
  have hweight := t.size_le_weight
  have hlimit : t.nodes.size + 2 ≤ depthLimit t := by
    unfold depthLimit
    omega
  exact Nat.le_trans (Nat.add_le_add_right hn 2) hlimit

def noteUnder (language : Option Text) (event : Event) : SessionM Unit :=
  modify fun s => { s with journal := ⟨language, event⟩ :: s.journal }

def noted (language : Option Text) (events : List Event) (session : Session) : Session :=
  { session with journal := (events.map (Entry.mk language)).reverse ++ session.journal }

theorem run_forM_noteUnder (language : Option Text) (events : List Event) (session : Session) :
    (events.forM (noteUnder language)).run.run session = (.ok (), noted language events session) := by
  induction events generalizing session with
  | nil => rfl
  | cons e events ih =>
    refine (ih { session with journal := ⟨language, e⟩ :: session.journal }).trans ?_
    simp [noted]

variable [TextWidth]

section Parts

variable (nested : Text → Text → Options → SessionM Doc) (job : Job)
  (print : Cursor → Option Flags → PassM Doc)

theorem runEmbed_eq (place : Cursor) :
    runEmbed nested job print place =
      if !job.scene.options.embedding then pure none
      else PassM.note job (.embedding place.node) >>= fun _ =>
        tryCatch ((job.grammar.embed job.scene place).run (answer nested job print))
          (fun failure => if job.scene.options.strict then throw failure else pure none) := by
  unfold runEmbed
  split
  · rfl
  · congr 1
    funext _
    generalize (job.grammar.embed job.scene place).run (answer nested job print) = x
    funext s
    cases hs : job.scene.options.strict <;> rcases h : x s with ⟨e | a, s'⟩ <;>
      simp only [tryCatch, tryCatchThe, MonadExceptOf.tryCatch, ExceptT.tryCatch, bind, ExceptT.bind,
        ExceptT.run, ExceptT.mk, StateT.bind, ExceptT.bindCont, h] <;>
      rfl

def printContent (place : Cursor) (n : NodeId) (flags : Option Flags) : PassM Doc :=
  if job.grammar.isIgnored job.scene.attachments place then reproduce job n
  else do
    match ← runEmbed nested job print place with
    | some doc => pure doc
    | none => runRule nested job print place flags

def printAround (place : Cursor) (n : NodeId) (doc : Doc) : PassM Doc :=
  if job.grammar.printsOwnComments place then pure doc
  else (Rule.surround job.grammar job.scene job.marked n doc).run (answer nested job print)

theorem printNode_eq (place : Cursor) (n : NodeId) (flags : Option Flags) :
    printNode nested job print place n flags = do
      let doc ← printContent nested job print place n flags
      let commented ← printAround nested job print place n doc
      PassM.note job (.printed n commented)
      return commented := by
  have haround : ∀ doc, (if job.grammar.printsOwnComments place then do
        let commented ← pure doc
        PassM.note job (.printed n commented)
        return commented
      else do
        let commented ←
          (Rule.surround job.grammar job.scene job.marked n doc).run (answer nested job print)
        PassM.note job (.printed n commented)
        return commented) = (do
      let commented ← printAround nested job print place n doc
      PassM.note job (.printed n commented)
      return commented) := by
    intro doc
    unfold printAround
    split <;> rfl
  unfold printNode printContent
  dsimp only
  simp only [haround]
  split
  · rfl
  · rw [bind_assoc]
    congr 1
    funext r
    cases r <;> rfl

def shifted (options : Options) (doc : Doc) : PassM Doc :=
  if options.shift > 0 then PassM.ofDoc do
    Build.shiftRight options.shift options.tabWidth (← Build.append (← Build.line .hard) doc)
  else pure doc

theorem printTree_eq :
    printTree nested job = do
      let doc ← printAt nested job (depthLimit job.scene.tree) (.atRoot job.scene.tree) none
      let doc ← shifted job.scene.options doc
      PassM.ofDoc (spreadBreaks doc)
      checkComments job
      return doc := by
  unfold printTree shifted
  dsimp only
  congr 1
  funext doc
  split <;> rfl

def overAssigned (language : Option Text) (g : Grammar) (options : Options) (tree : Tree) :
    SessionM Doc := do
  let (attachments, events) ← assignComments g.toCommentPolicy tree
  events.forM (noteUnder language)
  let job : Job :=
    { grammar := g, scene := { tree, options, attachments }
      marked := options.cursor.bind (g.nodeAt? tree), language }
  ExceptT.mk fun session =>
    let (result, s) := (printTree nested job).run.run { session }
    (result, s.session)

theorem overTree_eq (language : Option Text) (g : Grammar) (options : Options) (tree : Tree) :
    overTree nested language g options tree = match g.preprocess with
      | some replace => do
        noteUnder language (.preprocessed tree.nodes.size)
        overAssigned nested language g options (replace tree options)
      | none => overAssigned nested language g options tree := by
  unfold overTree
  cases g.preprocess <;> rfl

/-- The pass once the comments are attached and the questions about them are noted. -/
theorem run_overTree {language : Option Text} {g : Grammar} {options : Options} {tree : Tree}
    {attachments : Attachments} {events : List Event} {session : Session} {job : Job}
    (hjob : job = { grammar := g, scene := { tree, options, attachments }
                    marked := options.cursor.bind (g.nodeAt? tree), language })
    (hg : g.preprocess = none)
    (hassign : assignComments g.toCommentPolicy tree = .ok (attachments, events))
    {result : Except Failure Doc} {s : PassState}
    (hprint : (printTree nested job).run.run { session := noted language events session } =
      (result, s)) :
    (overTree nested language g options tree).run.run session = (result, s.session) := by
  have hlift : (liftM (assignComments g.toCommentPolicy tree) :
      SessionM (Attachments × List Event)).run.run session =
        (.ok (attachments, events), session) := by
    rw [hassign]
    rfl
  subst hjob
  rw [overTree_eq, hg]
  change (overAssigned nested language g options tree).run.run session = _
  rw [overAssigned, run_bind_eq, hlift]
  change (events.forM (noteUnder language) >>= _ : SessionM Doc).run.run session = _
  rw [run_bind_eq, run_forM_noteUnder]
  change (match (printTree nested _).run.run { session := noted language events session } with
    | (result, s) => (result, s.session) : Except Failure Doc × Session) = _
  rw [hprint]

end Parts

/-- A relation between an earlier and a later state of a pass that every primitive step keeps. -/
structure Steady (nested : Text → Text → Options → SessionM Doc) (job : Job)
    (R : PassState → PassState → Prop) : Prop where
  refl : ∀ s, R s s
  trans : ∀ s s' s'', R s s' → R s' s'' → R s s''
  ofDoc : ∀ {α : Type} (x : DocM α), Moves R (PassM.ofDoc x)
  nested : ∀ name source options, Moves R (PassM.ofSession (nested name source options))
  comment : ∀ c, Moves R (printComment job c)
  reproduce : ∀ n, Moves R (reproduce job n)
  rule : ∀ n isList flagged, Moves R (PassM.note job (.rule n isList flagged))
  embedding : ∀ n, Moves R (PassM.note job (.embedding n))
  printed : ∀ n doc, Moves R (PassM.note job (.printed n doc))
  remember : ∀ n doc, Moves R (PassM.remember n doc)

namespace Steady

variable {nested : Text → Text → Options → SessionM Doc} {job : Job}
  {R : PassState → PassState → Prop} (h : Steady nested job R)
include h

section Print

variable {print : Cursor → Option Flags → PassM Doc}
  (hprint : ∀ place flags, Moves R (print place flags))
include hprint

theorem answer (q : Request) : Moves R (answer nested job print q) := by
  cases q with
  | build c => exact h.ofDoc _
  | print place flags => exact hprint place flags
  | comment c => exact h.comment c
  | format name source options => exact h.nested name source options
  | refuse message => exact .ofThrow h.refl _

theorem run {α : Type} (x : Rule α) : Moves R (x.run (Pass.answer nested job print)) :=
  .program h.refl h.trans (h.answer hprint) x

theorem runRule (place : Cursor) (flags : Option Flags) :
    Moves R (runRule nested job print place flags) :=
  (h.rule _ _ _).bind h.trans fun _ => h.run hprint _

theorem runEmbed (place : Cursor) : Moves R (runEmbed nested job print place) := by
  rw [runEmbed_eq]
  split
  · exact .ofPure h.refl _
  · refine (h.embedding _).bind h.trans fun _ => .tryCatch h.trans (h.run hprint _) fun e => ?_
    split
    · exact .ofThrow h.refl _
    · exact .ofPure h.refl _

theorem printNode (place : Cursor) (n : NodeId) (flags : Option Flags) :
    Moves R (printNode nested job print place n flags) := by
  rw [printNode_eq]
  refine Moves.bind h.trans ?_ fun doc => Moves.bind h.trans ?_ fun _ =>
    (h.printed _ _).bind h.trans fun _ => .ofPure h.refl _
  · unfold printContent
    split
    · exact h.reproduce n
    · refine (h.runEmbed hprint place).bind h.trans fun doc => ?_
      split
      · exact .ofPure h.refl _
      · exact h.runRule hprint place flags
  · unfold printAround
    split
    · exact .ofPure h.refl _
    · exact h.run hprint _

end Print

theorem printAt (depth : Nat) (place : Cursor) (flags : Option Flags) :
    Moves R (printAt nested job depth place flags) := by
  induction depth generalizing place flags with
  | zero => exact .ofThrow h.refl _
  | succ depth ih =>
    unfold Pass.printAt
    split
    · exact h.ofDoc _
    · exact h.ofDoc _
    · exact h.runRule ih place flags
    · split
      · exact h.printNode ih place _ _
      · refine (Moves.ofGet h.refl).bind h.trans fun s => ?_
        split
        · exact .ofPure h.refl _
        · exact (h.printNode ih place _ _).bind h.trans fun _ =>
            (h.remember _ _).bind h.trans fun _ => .ofPure h.refl _

theorem printTree : Moves R (printTree nested job) := by
  have hcheck : Moves R (checkComments job) := by
    refine (Moves.ofGet h.refl).bind h.trans fun s => ?_
    dsimp only
    split
    · exact .ofThrow h.refl _
    · exact .ofPure h.refl _
  rw [printTree_eq]
  refine (h.printAt _ _ _).bind h.trans fun doc => Moves.bind h.trans ?_ fun _ =>
    (h.ofDoc _).bind h.trans fun _ => hcheck.bind h.trans fun _ => .ofPure h.refl _
  unfold shifted
  split
  · exact h.ofDoc _
  · exact .ofPure h.refl _

end Steady

end Pass

end SourceLayout
