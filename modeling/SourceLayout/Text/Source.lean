import SourceLayout.Text.Basic

/-! # Sources

A source is a text that is looked at from many offsets. It keeps its parts on either side of every
offset, so that no question has to go through the text from its start. The main statement says
that this changes nothing: a source is cut as its text is.
-/

namespace SourceLayout

/-- The two sides of an offset: the characters before it, the nearest first, and those after it. -/
structure Cut where
  before : Text
  after : Text
  deriving DecidableEq, Repr

namespace Text

/-- Adds the cuts at all offsets of a text, given what comes before the text, the nearest
character first. There is no cut inside a character. -/
def addCuts (before : Text) : Text → Array (Option Cut) → Array (Option Cut)
  | [], cuts => cuts.push (some ⟨before, []⟩)
  | c :: t, cuts =>
    addCuts (c :: before) t
      (cuts.push (some ⟨before, c :: t⟩) ++ Array.replicate (c.utf8Size - 1) none)

def cuts (t : Text) : Array (Option Cut) := addCuts [] t #[]

def cutAt? (t : Text) (i : Nat) : Option Cut :=
  (t.cut? i).map fun (before, after) => ⟨before.reverse, after⟩

theorem getElem?_addCuts (before t : Text) (cuts : Array (Option Cut)) (i : Nat) :
    (addCuts before t cuts)[i]?.join =
      if i < cuts.size then cuts[i]?.join
      else (t.cut? (i - cuts.size)).map fun (a, b) => ⟨a.reverse ++ before, b⟩ := by
  induction t generalizing before cuts with
  | nil =>
    rw [addCuts, Array.getElem?_push]
    rcases Nat.lt_trichotomy i cuts.size with h | h | h
    · simp [h, Nat.ne_of_lt h]
    · simp [h, cut?]
    · obtain ⟨k, rfl⟩ := Nat.exists_eq_add_of_lt h
      simp [cut?, Nat.add_assoc]
  | cons c t ih =>
    have hc := c.utf8Size_pos
    rw [addCuts, ih, Array.size_append, Array.size_push, Array.size_replicate,
      Array.getElem?_append, Array.getElem?_push, Array.size_push, Array.getElem?_replicate]
    rcases Nat.lt_trichotomy i cuts.size with h | h | h
    · have hlt : i < cuts.size + 1 + (c.utf8Size - 1) := by omega
      simp [h, Nat.ne_of_lt h, Nat.lt_add_right _ h, hlt]
    · subst h
      simp [cut?, Nat.lt_add_right]
    · obtain ⟨k, rfl⟩ := Nat.exists_eq_add_of_lt h
      have hk : cuts.size + k + 1 - cuts.size = k + 1 := by omega
      by_cases hi : c.utf8Size ≤ k + 1
      · have hj : cuts.size + k + 1 - (cuts.size + 1 + (c.utf8Size - 1)) = k + 1 - c.utf8Size := by
          omega
        have hlt : ¬ cuts.size + k + 1 < cuts.size + 1 + (c.utf8Size - 1) := by omega
        have hge : ¬ cuts.size + k + 1 < cuts.size := by omega
        simp [hk, hj, hlt, hge, cut?, hi, Function.comp_def]
      · have hlt : cuts.size + k + 1 < cuts.size + 1 + (c.utf8Size - 1) := by omega
        have hge : ¬ cuts.size + k + 1 < cuts.size := by omega
        have hge' : ¬ cuts.size + k + 1 < cuts.size + 1 := by omega
        have hk' : k < c.utf8Size - 1 := by omega
        simp [hk, hlt, hge, hge', hk', cut?, hi]

end Text

structure Source where
  text : Text
  cuts : Array (Option Cut)
  cuts_eq : cuts = text.cuts

namespace Source

def ofText (t : Text) : Source where
  text := t
  cuts := t.cuts
  cuts_eq := rfl

instance : Inhabited Source := ⟨ofText []⟩

instance : Repr Source := ⟨fun s => reprPrec s.text⟩

@[simp] theorem text_ofText (t : Text) : (ofText t).text = t := rfl

def cut? (s : Source) (i : Nat) : Option Cut := s.cuts[i]?.join

theorem cut?_eq (s : Source) (i : Nat) : s.cut? i = s.text.cutAt? i := by
  simp [cut?, s.cuts_eq, Text.cuts, Text.getElem?_addCuts, Text.cutAt?]

def slice (s : Source) (i j : Nat) : Text :=
  if i ≤ j then ((s.cut? i).bind fun cut => Text.takeOnto? [] cut.after (j - i)).getD [] else []

theorem slice_eq (s : Source) (i j : Nat) : s.slice i j = s.text.slice i j := by
  simp only [slice, cut?_eq, Text.cutAt?, Text.slice, Text.between?, Text.after?,
    Text.takeOnto?_eq]
  split <;> cases s.text.cut? i <;> simp

end Source

end SourceLayout
