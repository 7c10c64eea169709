import SourceLayout.StableSort
import SourceLayout.Text.Basic

/-! # Spans

A span is a range of byte offsets of a source. Nothing forces it to be valid: it may be inverted
or reach past the end of the text it speaks of.
-/

namespace SourceLayout

structure Span where
  start : Nat := 0
  stop : Nat := 0
  deriving DecidableEq, Repr, Inhabited

namespace Span

def size? (s : Span) : Option Nat := if s.start ≤ s.stop then some (s.stop - s.start) else none

def isEmpty (s : Span) : Bool := s.start == s.stop

def contains (s other : Span) : Bool := s.start ≤ other.start && other.stop ≤ s.stop

/-- Spans are ordered by their start and then by their end. -/
def order (s other : Span) : Ordering :=
  (compare s.start other.start).then (compare s.stop other.stop)

def le (s other : Span) : Bool := s.order other != .gt

theorem le_iff {s u : Span} :
    s.le u = true ↔ s.start < u.start ∨ s.start = u.start ∧ s.stop ≤ u.stop := by
  simp only [le, order, Nat.compare_eq_ite_lt, Ordering.then]
  grind

theorem le_trans (s u v : Span) : s.le u → u.le v → s.le v := by
  simp only [le_iff]
  omega

theorem le_total (s u : Span) : s.le u || u.le s := by
  simp only [Bool.or_eq_true, le_iff]
  omega

def render (s : Span) : Text := Text.ofNat s.start ++ ['.', '.'] ++ Text.ofNat s.stop

end Span

/-- Sorts by the span of each element; elements with equal spans keep their order. -/
def sortBySpan {α : Type} (key : α → Span) (as : List α) : List α :=
  stableSort (fun a b => (key a).le (key b)) as

end SourceLayout
