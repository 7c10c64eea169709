import SourceLayout.Doc.Basic
import Std.Data.TreeMap.Basic

/-! # Spreading forced breaks

A group that holds a forced line, a request to break or a broken group cannot stay flat. One walk
over a document breaks all such groups. What the walk has found out is kept by label, so a shared
document is walked once however often it occurs. A sequence is walked from its right end to its
left end in one go, and only the answer for the whole of it is kept.
-/

namespace SourceLayout

structure Spreading where
  store : Store
  known : Std.TreeMap Label Bool := ∅

namespace Spreading

abbrev SpreadM := StateM Spreading

/-- The answer known for a label, or else that of `find`, which is then known. -/
def memoised (label : Label) (find : SpreadM Bool) : SpreadM Bool := do
  match (← get).known[label]? with
  | some answer => return answer
  | none =>
    let answer ← find
    modify fun s => { s with known := s.known.insert label answer }
    return answer

/-- Breaks the group with the given label if its body forces it, and tells whether it breaks. -/
def settle (label : Label) (forced : Bool) : SpreadM Bool := do
  if forced then modify fun s => { s with store := s.store.breakGroup label }
  return (← get).store.isBroken label

def join (spine : Option Bool) (find : SpreadM Bool) : SpreadM Bool := do
  return (← find) || spine.getD false

mutual

/-- Breaks the groups of a document that must break, and tells whether what is around it must
break too. Inside a sequence, `spine` is the answer of the parts to the right of the document, and
the rest of the sequence is walked without a look at what is known about it. -/
def walk (spine : Option Bool) : Doc → SpreadM Bool
  | .nil l | .cursor l | .text l _ _ => join spine (memoised l (pure false))
  | .breakParent l => join spine (memoised l (pure true))
  | .line l kind => join spine (memoised l (pure kind.isForced))
  | .append l left right =>
    match spine with
    | none => memoised l do walk (some (← walk none right)) left
    | some forced => do walk (some ((← walk none right) || forced)) left
  | .group l body => join spine (memoised l do settle l (← walk none body))
  | .fill l parts => join spine (memoised l (walkAll false parts))
  | .indent l body | .align l _ body | .suffix l body | .measured l _ body =>
    join spine (memoised l (walk none body))

/-- Walks over documents in order; `forced` tells whether one before them forces a break. -/
def walkAll (forced : Bool) : List Doc → SpreadM Bool
  | [] => pure forced
  | part :: parts => do
    let inPart ← walk none part
    walkAll (inPart || forced) parts

end

end Spreading

/-- Breaks every group of a document that holds a forced break. -/
def spreadBreaks (doc : Doc) : DocM Unit :=
  modify fun store => ((Spreading.walk none doc).run { store }).2.store

end SourceLayout
