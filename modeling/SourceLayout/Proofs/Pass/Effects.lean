import SourceLayout.Rule.Program

/-! # Effects of steps with a state

Statements about a step that reads and writes a state and may fail: it leads to a related state or
keeps a view of the state, whether it fails or not, and it succeeds with a result and a state of a
certain kind.
-/

namespace SourceLayout

variable {σ ε α β V : Type} {x : ExceptT ε (StateM σ) α} {f : α → ExceptT ε (StateM σ) β} {s : σ}

theorem run_bind_eq (x : ExceptT ε (StateM σ) α) (f : α → ExceptT ε (StateM σ) β) (s : σ) :
    (x >>= f).run.run s = match x.run.run s with
      | (.ok a, s') => (f a).run.run s'
      | (.error e, s') => (.error e, s') := by
  simp only [bind, ExceptT.bind, ExceptT.run, ExceptT.mk, ExceptT.bindCont, StateT.bind, StateT.run]
  rcases x s with ⟨e | a, s'⟩
  · rfl
  · rfl

theorem run_bind_eq_ok_iff {s s' : σ} {b : β} :
    (x >>= f).run.run s = (.ok b, s') ↔
      ∃ a s₁, x.run.run s = (.ok a, s₁) ∧ (f a).run.run s₁ = (.ok b, s') := by
  rw [run_bind_eq]
  rcases x.run.run s with ⟨e | a, s₁⟩
  · constructor
    · exact nofun
    · rintro ⟨_, _, ⟨⟩, _⟩
  · constructor
    · exact fun h => ⟨a, s₁, rfl, h⟩
    · rintro ⟨_, _, ⟨⟩, h⟩
      exact h

theorem run_tryCatch_eq (x : ExceptT ε (StateM σ) α) (f : ε → ExceptT ε (StateM σ) α) (s : σ) :
    (tryCatch x f).run.run s = match x.run.run s with
      | (.ok a, s') => (.ok a, s')
      | (.error e, s') => (f e).run.run s' := by
  simp only [tryCatch, tryCatchThe, MonadExceptOf.tryCatch, ExceptT.tryCatch, bind, ExceptT.run,
    ExceptT.mk, StateT.bind, StateT.run]
  rcases x s with ⟨e | a, s'⟩
  · rfl
  · rfl

/-- A step leads from a state to a related one, also where it fails. -/
def Moves (R : σ → σ → Prop) (x : ExceptT ε (StateM σ) α) : Prop := ∀ s, R s (x.run.run s).2

namespace Moves

variable {R R' : σ → σ → Prop}

theorem mono (h : Moves R x) (hR : ∀ s s', R s s' → R' s s') : Moves R' x := fun s => hR s _ (h s)

theorem ofPure (refl : ∀ s, R s s) (a : α) : Moves R (pure a : ExceptT ε (StateM σ) α) := refl

theorem ofThrow (refl : ∀ s, R s s) (e : ε) : Moves R (throw e : ExceptT ε (StateM σ) α) := refl

theorem ofGet (refl : ∀ s, R s s) : Moves R (get : ExceptT ε (StateM σ) σ) := refl

theorem bind (trans : ∀ s s' s'', R s s' → R s' s'' → R s s'') (hx : Moves R x)
    (hf : ∀ a, Moves R (f a)) : Moves R (x >>= f) := by
  intro s
  have hs := hx s
  rw [run_bind_eq]
  rcases h : x.run.run s with ⟨e | a, s'⟩
  · rw [h] at hs
    exact hs
  · rw [h] at hs
    exact trans _ _ _ hs (hf a s')

theorem tryCatch (trans : ∀ s s' s'', R s s' → R s' s'' → R s s'')
    {f : ε → ExceptT ε (StateM σ) α} (hx : Moves R x) (hf : ∀ e, Moves R (f e)) :
    Moves R (tryCatch x f) := by
  intro s
  have hs := hx s
  rw [run_tryCatch_eq]
  rcases h : x.run.run s with ⟨e | a, s'⟩
  · rw [h] at hs
    exact trans _ _ _ hs (hf e s')
  · rw [h] at hs
    exact hs

theorem program (refl : ∀ s, R s s) (trans : ∀ s s' s'', R s s' → R s' s'' → R s s'') {Q : Type}
    {answer : Q → ExceptT ε (StateM σ) Doc} (h : ∀ q, Moves R (answer q)) (x : Program Q α) :
    Moves R (x.run answer) := by
  induction x with
  | done a => exact ofPure refl a
  | ask q next ih => exact (h q).bind trans ih

end Moves

/-- A step keeps a view of the state, also where it fails. -/
def Keeps (view : σ → V) (x : ExceptT ε (StateM σ) α) : Prop :=
  ∀ s, view (x.run.run s).2 = view s

namespace Keeps

variable {view : σ → V}

theorem ofPure (a : α) : Keeps view (pure a : ExceptT ε (StateM σ) α) := fun _ => rfl

theorem ofThrow (e : ε) : Keeps view (throw e : ExceptT ε (StateM σ) α) := fun _ => rfl

theorem ofGet : Keeps view (get : ExceptT ε (StateM σ) σ) := fun _ => rfl

theorem bind (hx : Keeps view x) (hf : ∀ a, Keeps view (f a)) : Keeps view (x >>= f) :=
  Moves.bind (R := fun s s' => view s' = view s) (fun _ _ _ h h' => h'.trans h) hx hf

theorem tryCatch {f : ε → ExceptT ε (StateM σ) α} (hx : Keeps view x) (hf : ∀ e, Keeps view (f e)) :
    Keeps view (tryCatch x f) :=
  Moves.tryCatch (R := fun s s' => view s' = view s) (fun _ _ _ h h' => h'.trans h) hx hf

theorem forM {as : List α} {f : α → ExceptT ε (StateM σ) Unit} (h : ∀ a, Keeps view (f a)) :
    Keeps view (as.forM f) := by
  induction as with
  | nil => exact ofPure _
  | cons a as ih => exact (h a).bind fun _ => ih

end Keeps

/-- A step succeeds, with a result and a state that `P` holds of. -/
def Completes (x : ExceptT ε (StateM σ) α) (s : σ) (P : α → σ → Prop) : Prop :=
  ∃ a s', x.run.run s = (.ok a, s') ∧ P a s'

namespace Completes

variable {P : α → σ → Prop} {R : β → σ → Prop}

theorem ofPure {a : α} (h : P a s) : Completes (pure a : ExceptT ε (StateM σ) α) s P :=
  ⟨a, s, rfl, h⟩

theorem mono (h : Completes x s P) {P' : α → σ → Prop} (hP : ∀ a s', P a s' → P' a s') :
    Completes x s P' := by
  obtain ⟨a, s', hrun, ha⟩ := h
  exact ⟨a, s', hrun, hP a s' ha⟩

theorem bind (hx : Completes x s P) (hf : ∀ a s', P a s' → Completes (f a) s' R) :
    Completes (x >>= f) s R := by
  obtain ⟨a, s', hrun, ha⟩ := hx
  obtain ⟨b, s'', hrun', hb⟩ := hf a s' ha
  refine ⟨b, s'', ?_, hb⟩
  rw [run_bind_eq, hrun]
  exact hrun'

end Completes

end SourceLayout
