import SourceLayout.Failure
import SourceLayout.Grammar
import SourceLayout.Journal

/-! # The state of a pass

A session is what a pass shares with the passes nested in it: the store of documents and the
journal. A pass also remembers which comments it has printed and the documents of the nodes it
has printed. A failure does not undo any of it.
-/

namespace SourceLayout

structure Session where
  store : Store := {}
  journal : List Entry := []
  deriving Inhabited

abbrev SessionM := ExceptT Failure (StateM Session)

structure PassState where
  session : Session
  printed : Std.TreeSet CommentId := ∅
  cache : Std.TreeMap NodeId Doc := ∅

abbrev PassM := ExceptT Failure (StateM PassState)

/-- What stays fixed during a pass. -/
structure Job where
  grammar : Grammar
  scene : Scene
  marked : Option NodeId
  language : Option Text

namespace PassM

def ofSession {α : Type} (x : SessionM α) : PassM α :=
  ExceptT.mk fun s =>
    let (result, session) := x.run.run s.session
    (result, { s with session })

def ofDoc {α : Type} (x : DocM α) : PassM α :=
  ExceptT.mk fun s =>
    let (a, store) := x.run s.session.store
    (.ok a, { s with session := { s.session with store } })

def note (job : Job) (event : Event) : PassM Unit :=
  modify fun s =>
    { s with session :=
      { s.session with journal := ⟨job.language, event⟩ :: s.session.journal } }

def markPrinted (cs : List CommentId) : PassM Unit :=
  modify fun s => { s with printed := s.printed.insertMany cs }

def remember (n : NodeId) (doc : Doc) : PassM Unit :=
  modify fun s => { s with cache := s.cache.insert n doc }

end PassM

end SourceLayout
