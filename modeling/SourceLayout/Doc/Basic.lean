import SourceLayout.Text.Basic
import Std.Data.TreeSet.Basic

/-! # Layout documents

A document describes text together with the places where it may break into lines. Documents are
shared, and it shows: every document carries a label of its own, and the store remembers by label
which groups have been made to break. Breaking a group therefore shows wherever the group occurs.
-/

namespace SourceLayout

/-- Broken, every line is a line break. In a flat group a normal line is a space and a soft one
nothing; a hard or literal line breaks all the same, and no indentation follows a literal one. -/
inductive LineKind
  | normal
  | soft
  | hard
  | literal
  deriving DecidableEq, Repr

def LineKind.isForced : LineKind → Bool
  | .hard | .literal => true
  | .normal | .soft => false

/-- A change of indentation by some columns, or back to the margin of the whole document. -/
inductive Shift
  | columns (n : Int)
  | toRoot
  deriving DecidableEq, Repr

/-- Whether the text of a leaf was taken from a source or is part of a rule. -/
inductive Origin
  | owned
  | fixed
  deriving DecidableEq, Repr

abbrev Label := Nat

inductive Doc where
  | nil (label : Label)
  | append (label : Label) (left right : Doc)
  | group (label : Label) (body : Doc)
  | fill (label : Label) (parts : List Doc)
  | indent (label : Label) (body : Doc)
  | align (label : Label) (shift : Shift) (body : Doc)
  | line (label : Label) (kind : LineKind)
  | breakParent (label : Label)
  | suffix (label : Label) (body : Doc)
  | cursor (label : Label)
  | measured (label : Label) (width : Nat) (body : Doc)
  | text (label : Label) (origin : Origin) (content : Text)
  deriving Repr, Inhabited

namespace Doc

def label : Doc → Label
  | nil l | append l _ _ | group l _ | fill l _ | indent l _ | align l _ _ | line l _
  | breakParent l | suffix l _ | cursor l | measured l _ _ | text l _ _ => l

def isNil : Doc → Bool
  | nil _ => true
  | _ => false

def content? : Doc → Option Text
  | text _ _ content => some content
  | measured _ _ body => body.content?
  | _ => none

def width? : Doc → Option Nat
  | measured _ width _ => some width
  | _ => none

end Doc

/-- The next unused label, and the labels of the groups that break. -/
structure Store where
  next : Label := 0
  broken : Std.TreeSet Label := ∅
  deriving Inhabited

namespace Store

def isBroken (s : Store) (l : Label) : Bool := s.broken.contains l

def breakGroup (s : Store) (l : Label) : Store := { s with broken := s.broken.insert l }

def breaks (s : Store) : Doc → Bool
  | .group l _ => s.isBroken l
  | _ => false

end Store

abbrev DocM := StateM Store

def freshLabel : DocM Label :=
  modifyGet fun s => (s.next, { s with next := s.next + 1 })

end SourceLayout
