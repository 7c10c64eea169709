import SourceLayout.Proofs.Outcomes
import SourceLayout.Proofs.Pass.Progress
import SourceLayout.Ruleset.Grammar
import SourceLayout.Toy.Grammar

/-! # What a failed attempt leaves behind

Where embedded code fails in a pass that is not strict, the pass goes on with the rule of the node
from the state in which the attempt stopped. The comments that the attempt has dealt with still
count as printed, though nothing of the attempt gets into the document, and the pass does not miss
them in the end.
-/

namespace SourceLayout.Pass

/-- Since the earlier state, just the comments that steps of the trail deal with have been added to
those that count as printed. -/
def Tracks (t : Tree) (s s' : PassState) : Prop :=
  ∃ steps, s'.trail = s.trail ++ steps ∧
    ∀ c, c ∈ s'.printed ↔ c ∈ s.printed ∨ ∃ step ∈ steps, step.Shows t c

variable {nested : Text → Text → Options → SessionM Doc} {job : Job} {t : Tree}
  {s s' s'' : PassState}

theorem Tracks.of_eq (htrail : s'.trail = s.trail) (hprinted : s'.printed = s.printed) :
    Tracks t s s' :=
  ⟨[], by rw [htrail, List.append_nil], by simp [hprinted]⟩

theorem Tracks.trans (h : Tracks t s s') (h' : Tracks t s' s'') : Tracks t s s'' := by
  obtain ⟨steps, htrail, hprinted⟩ := h
  obtain ⟨steps', htrail', hprinted'⟩ := h'
  refine ⟨steps ++ steps', by rw [htrail', htrail, List.append_assoc], fun c => ?_⟩
  rw [hprinted', hprinted]
  simp only [List.mem_append, or_and_right, exists_or, or_assoc]

theorem Tracks.of_step (step : Step) (cs : List CommentId)
    (htrail : s'.trail = s.trail ++ [step]) (hprinted : s'.printed = s.printed.insertMany cs)
    (hcs : ∀ c, c ∈ cs ↔ step.Shows t c) : Tracks t s s' := by
  refine ⟨[step], htrail, fun c => ?_⟩
  simp [hprinted, Std.TreeSet.mem_insertMany_list, hcs]

theorem tracks_note {event : Event} (h : Entry.step? ⟨job.language, event⟩ = none) :
    Moves (Tracks t) (PassM.note job event) := fun s => .of_eq (keeps_trail_note h s) rfl

section Attempt

variable [TextWidth]

theorem steady_tracks (hjob : job.language = none)
    (hnested : ∀ name source options, Keeps Session.trail (nested name source options)) :
    Steady nested job (Tracks job.scene.tree) where
  refl _ := .of_eq rfl rfl
  trans _ _ _ := Tracks.trans
  ofDoc _ _ := .of_eq rfl rfl
  nested name source options s := .of_eq (hnested name source options s.session) rfl
  comment c s := .of_step (.comment c) [c] (trail_printComment hjob c s) rfl
    fun b => List.mem_singleton
  reproduce n s := .of_step (.reproduced n) _ (trail_reproduce hjob n s) rfl
    fun b => List.mem_filter
  rule _ _ _ := tracks_note (by rw [hjob]; rfl)
  embedding _ := tracks_note (by rw [hjob]; rfl)
  printed _ _ := tracks_note (by rw [hjob]; rfl)
  remember _ _ _ := .of_eq rfl rfl

variable {print : Cursor → Option Flags → PassM Doc} {place : Cursor}

variable (nested job print place) in
/-- Printing a node as embedded code, up to where that fails. -/
def attempt : PassM (Option Doc) := do
  PassM.note job (.embedding place.node)
  (job.grammar.embed job.scene place).run (answer nested job print)

theorem Steady.attempt {R : PassState → PassState → Prop} (h : Steady nested job R)
    (hprint : ∀ place flags, Moves R (print place flags)) :
    Moves R (attempt nested job print place) :=
  (h.embedding _).bind h.trans fun _ => h.run hprint _

/-- A failed attempt is taken for a node without embedded code, in the state that it has reached. -/
theorem run_runEmbed_of_failed (hembedding : job.scene.options.embedding = true)
    (hstrict : job.scene.options.strict = false) {failure : Failure}
    (hfail : (attempt nested job print place).run.run s = (.error failure, s')) :
    (runEmbed nested job print place).run.run s = (.ok none, s') := by
  rw [runEmbed_eq, hembedding, if_neg (by decide), run_bind_eq]
  rw [attempt, run_bind_eq] at hfail
  rcases hnote : (PassM.note job (.embedding place.node)).run.run s with ⟨e | a, s₁⟩
  · cases hnote
  · rw [hnote] at hfail
    dsimp only at hfail ⊢
    rw [run_tryCatch_eq, hfail]
    dsimp only
    rw [hstrict, if_neg (by decide)]
    rfl

/-- Without embedded code no comments count as printed that did not before. -/
theorem run_runEmbed_of_none (hembed : job.grammar.embed job.scene place = pure none) :
    ∃ s₀, (runEmbed nested job print place).run.run s = (.ok none, s₀) ∧
      s₀.printed = s.printed := by
  rw [runEmbed_eq, hembed]
  split
  · exact ⟨s, rfl, rfl⟩
  · exact ⟨_, rfl, rfl⟩

theorem exists_printTree_eq_ok_iff {doc : Doc}
    (hroot : (printAt nested job (depthLimit job.scene.tree) (.atRoot job.scene.tree) none).run.run s =
      (.ok doc, s')) :
    (∃ doc s'', (printTree nested job).run.run s = (.ok doc, s'')) ↔
      ∀ c ∈ job.scene.tree.commentIds, c ∈ s'.printed := by
  obtain ⟨doc', s₁, hshifted, hprinted⟩ : ∃ doc' s₁,
      (shifted job.scene.options doc).run.run s' = (.ok doc', s₁) ∧ s₁.printed = s'.printed := by
    unfold shifted
    split
    · exact ⟨_, _, rfl, rfl⟩
    · exact ⟨_, _, rfl, rfl⟩
  obtain ⟨s₂, hspread, hprinted'⟩ : ∃ s₂,
      (PassM.ofDoc (spreadBreaks doc')).run.run s₁ = (.ok (), s₂) ∧ s₂.printed = s₁.printed :=
    ⟨_, rfl, rfl⟩
  simp only [printTree_eq, run_bind_eq_ok_iff, hroot]
  constructor
  · rintro ⟨_, _, _, _, ⟨⟩, _, _, hshifted', _, _, hspread', _, _, hcheck, -⟩ c hc
    rw [hshifted, Prod.mk.injEq, Except.ok.injEq] at hshifted'
    obtain ⟨rfl, rfl⟩ := hshifted'
    rw [hspread, Prod.mk.injEq] at hspread'
    obtain ⟨-, rfl⟩ := hspread'
    rw [← hprinted, ← hprinted']
    exact (run_checkComments_eq_ok_iff.mp hcheck).2 c hc
  · intro hall
    rw [← hprinted, ← hprinted'] at hall
    exact ⟨doc', s₂, doc, s', rfl, doc', s₁, hshifted, (), s₂, hspread, (), s₂,
      run_checkComments_eq_ok_iff.mpr ⟨rfl, hall⟩, rfl⟩

section Fallback

variable {languages : Languages} {level depth : Nat}
    (hnested : nested = formatWithin languages level)
  (hlanguage : job.language = none)
include hnested hlanguage

theorem tracks_attempt (hprint : print = printAt nested job depth) (place : Cursor) :
    Moves (Tracks job.scene.tree) (attempt nested job print place) := by
  subst hnested hprint
  have hsteady := steady_tracks hlanguage (keeps_formatWithin languages level)
  exact hsteady.attempt (hsteady.printAt depth)

theorem tracks_printAt (depth : Nat) (place : Cursor) (flags : Option Flags) :
    Moves (Tracks job.scene.tree) (printAt nested job depth place flags) := by
  subst hnested
  exact (steady_tracks hlanguage (keeps_formatWithin languages level)).printAt depth place flags

/-- Where an attempt fails, the pass goes on with all comments counted as printed that the attempt
has dealt with. So they are the same as without embedded code only if these had been printed
before. A pass whose root is printed succeeds if each comment is dealt with somewhere, be it in a
failed attempt. -/
theorem failed_attempt_counts (hprint : print = printAt nested job depth)
    (hembedding : job.scene.options.embedding = true) (hstrict : job.scene.options.strict = false) :
    (∀ place s failure s', (attempt nested job print place).run.run s = (.error failure, s') →
      (runEmbed nested job print place).run.run s = (.ok none, s') ∧
      ∃ steps, s'.trail = s.trail ++ steps ∧
        (∀ c, c ∈ s'.printed ↔ c ∈ s.printed ∨ ∃ step ∈ steps, step.Shows job.scene.tree c) ∧
        ∀ g : Grammar, g.embed job.scene place = pure none →
          ∃ s₀, (runEmbed nested { job with grammar := g } print place).run.run s = (.ok none, s₀) ∧
            ((∀ c, c ∈ s'.printed ↔ c ∈ s₀.printed) ↔
              ∀ step ∈ steps, ∀ c, step.Shows job.scene.tree c → c ∈ s.printed)) ∧
    ∀ session doc s', (printAt nested job (depthLimit job.scene.tree) (.atRoot job.scene.tree)
        none).run.run { session } = (.ok doc, s') →
      ∃ steps, s'.trail = session.trail ++ steps ∧
        ((∃ doc s'', (printTree nested job).run.run { session } = (.ok doc, s'')) ↔
          ∀ c ∈ job.scene.tree.commentIds, ∃ step ∈ steps, step.Shows job.scene.tree c) := by
  constructor
  · intro place s failure s' hfail
    refine ⟨run_runEmbed_of_failed hembedding hstrict hfail, ?_⟩
    have htracks := tracks_attempt hnested hlanguage hprint place s
    rw [hfail] at htracks
    obtain ⟨steps, htrail, hprinted⟩ := htracks
    refine ⟨steps, htrail, hprinted, fun g hg => ?_⟩
    obtain ⟨s₀, hrun, hs₀⟩ : ∃ s₀,
        (runEmbed nested { job with grammar := g } print place).run.run s = (.ok none, s₀) ∧
          s₀.printed = s.printed := run_runEmbed_of_none hg
    refine ⟨s₀, hrun, ?_⟩
    simp only [hprinted, hs₀, or_iff_left_iff_imp]
    constructor
    · exact fun hsame step hstep c hc => hsame c ⟨step, hstep, hc⟩
    · rintro hbefore c ⟨step, hstep, hc⟩
      exact hbefore step hstep c hc
  · intro session doc s' hroot
    have htracks := tracks_printAt hnested hlanguage (depthLimit job.scene.tree)
      (.atRoot job.scene.tree) none { session }
    rw [hroot] at htracks
    obtain ⟨steps, htrail, hprinted⟩ := htracks
    refine ⟨steps, htrail, ?_⟩
    rw [exists_printTree_eq_ok_iff hroot]
    simp [hprinted]

end Fallback

end Attempt

section Sample

attribute [local instance] TextWidth.perCharacter

def hasty : Ruleset where
  embeds := [("List", some (.sequence [.dangling true .all, .refuse "no".toList]))]
  rules := [("List", .fixed "()".toList)]

def hastyPlain : Ruleset := { hasty with embeds := [("List", none)] }

def commentedList : Text := "( /*in*/ )".toList

def hastyJob (t : Tree) (a : Attachments) : Job where
  grammar := hasty.grammar (Toy.grammar false)
  scene := { tree := t, options := {}, attachments := a }
  marked := none
  language := none

def hastyAttempt (t : Tree) (a : Attachments) : Except Failure (Option Doc) × PassState :=
  let nested := formatWithin Toy.languages 1
  (attempt nested (hastyJob t a) (printAt nested (hastyJob t a) 1)
    (((Cursor.atRoot t).enter "body").enterAt 0)).run.run { session := {} }

def failure? {α : Type} : Except Failure α → Option Failure
  | .ok _ => none
  | .error e => some e

theorem failed_attempt_counts_commentedList :
    ∃ t a events, Toy.parse commentedList = .ok t ∧
      assignComments (hasty.grammar (Toy.grammar false)).toCommentPolicy t = .ok (a, events) ∧
      (∃ failure s', hastyAttempt t a = (.error failure, s') ∧ 0 ∈ s'.printed) ∧
      failure? (layoutTree (hasty.grammar (Toy.grammar false)) Toy.languages {} t).1 = none ∧
      failure? (layoutTree (hastyPlain.grammar (Toy.grammar false)) Toy.languages {} t).1 =
        some (.unprinted "/*in*/".toList ⟨2, 8⟩) := by
  have hreport : ((Toy.parse commentedList).toOption.bind fun t =>
      (assignComments (hasty.grammar (Toy.grammar false)).toCommentPolicy t).toOption.map
        fun assigned => (failure? (hastyAttempt t assigned.1).1,
          (hastyAttempt t assigned.1).2.trail,
          failure? (layoutTree (hasty.grammar (Toy.grammar false)) Toy.languages {} t).1,
          failure? (layoutTree (hastyPlain.grammar (Toy.grammar false)) Toy.languages {} t).1)) =
      some (some (.refused "no".toList), [.comment 0], none,
        some (.unprinted "/*in*/".toList ⟨2, 8⟩)) := by
    decide +kernel
  obtain ⟨t, hparse, hreport⟩ := Option.bind_eq_some_iff.mp hreport
  obtain ⟨⟨a, events⟩, hassign, hreport⟩ := Option.map_eq_some_iff.mp hreport
  simp only [Prod.mk.injEq] at hreport
  obtain ⟨hfail, htrail, hhasty, hplain⟩ := hreport
  refine ⟨t, a, events, toOption_eq_some_iff.mp hparse, toOption_eq_some_iff.mp hassign, ?_, hhasty,
    hplain⟩
  rcases hrun : hastyAttempt t a with ⟨failure | doc, s'⟩
  · rw [hrun] at htrail
    have hlanguage : (hastyJob t a).language = none := rfl
    obtain ⟨hcounts, -⟩ := failed_attempt_counts rfl hlanguage rfl rfl rfl
    obtain ⟨-, steps, hsteps, hprinted, -⟩ := hcounts _ _ _ _ hrun
    have hsteps : s'.trail = steps := hsteps
    refine ⟨failure, s', rfl, (hprinted 0).mpr (.inr ?_)⟩
    rw [← hsteps, htrail]
    exact ⟨.comment 0, List.mem_singleton_self _, rfl⟩
  · rw [hrun] at hfail
    cases hfail

end Sample

end SourceLayout.Pass
