import SourceLayout.Doc.Construction

/-! # Programs that ask for documents

A program ends in a value or puts a question, whose answer is a document, and goes on from
there. Programs say what is wanted without saying who provides it, and can be reasoned about by
induction.
-/

namespace SourceLayout

inductive Program (Q α : Type) where
  | done (a : α)
  | ask (q : Q) (next : Doc → Program Q α)

namespace Program

variable {Q α β : Type}

def bind (f : α → Program Q β) : Program Q α → Program Q β
  | .done a => f a
  | .ask q next => .ask q fun answer => bind f (next answer)

instance : Monad (Program Q) where
  pure := .done
  bind x f := bind f x

@[simp] theorem done_bind (a : α) (f : α → Program Q β) : (Program.done a >>= f) = f a := rfl

@[simp] theorem ask_bind (q : Q) (next : Doc → Program Q α) (f : α → Program Q β) :
    (Program.ask q next >>= f) = .ask q fun answer => next answer >>= f := rfl

theorem bind_done (x : Program Q α) : bind .done x = x := by
  induction x with
  | done a => rfl
  | ask q next ih => simp only [bind, ih]

theorem bind_bind {γ : Type} (x : Program Q α) (f : α → Program Q β) (g : β → Program Q γ) :
    bind g (bind f x) = bind (fun a => bind g (f a)) x := by
  induction x with
  | done a => rfl
  | ask q next ih => simp only [bind, ih]

instance : LawfulMonad (Program Q) :=
  LawfulMonad.mk' _ bind_done (fun _ _ => rfl) bind_bind

def run {m : Type → Type} [Monad m] (answer : Q → m Doc) : Program Q α → m α
  | .done a => pure a
  | .ask q next => do run answer (next (← answer q))

@[simp] theorem run_done {m : Type → Type} [Monad m] (answer : Q → m Doc) (a : α) :
    (Program.done a : Program Q α).run answer = pure a := rfl

@[simp] theorem run_ask {m : Type → Type} [Monad m] (answer : Q → m Doc) (q : Q)
    (next : Doc → Program Q α) :
    (Program.ask q next).run answer = answer q >>= fun doc => (next doc).run answer := rfl

theorem run_bind {m : Type → Type} [Monad m] [LawfulMonad m] (answer : Q → m Doc)
    (x : Program Q α) (f : α → Program Q β) :
    (x >>= f).run answer = x.run answer >>= fun a => (f a).run answer := by
  induction x with
  | done a => simp
  | ask q next ih => simp [ih]

end Program

/-- A program that only builds documents. -/
abbrev Sketch := Program (Construction Doc)

def Sketch.build (c : Construction Doc) : Sketch Doc := .ask c .done

end SourceLayout
