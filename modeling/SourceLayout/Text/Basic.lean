/-! # Texts and byte offsets

A text is a list of characters. Positions in a text count the bytes of its UTF-8 form, so an
offset is usable only where it falls between two characters.
-/

namespace SourceLayout

abbrev Text := List Char

namespace Text

def addBytes (n : Nat) : Text → Nat
  | [] => n
  | c :: t => addBytes (n + c.utf8Size) t

def byteSize (t : Text) : Nat := addBytes 0 t

theorem addBytes_eq (n : Nat) (t : Text) : addBytes n t = n + t.byteSize := by
  induction t generalizing n with
  | nil => rfl
  | cons c t ih => rw [byteSize, addBytes, addBytes, ih, ih (0 + _)]; omega

@[simp] theorem byteSize_nil : byteSize [] = 0 := rfl

@[simp] theorem byteSize_cons (c : Char) (t : Text) :
    byteSize (c :: t) = c.utf8Size + byteSize t := by
  rw [byteSize, addBytes, addBytes_eq]; omega

/-- The parts of a text on either side of a byte offset that falls between two characters. -/
def cut? : Text → Nat → Option (Text × Text)
  | t, 0 => some ([], t)
  | [], _ + 1 => none
  | c :: t, i + 1 =>
    if c.utf8Size ≤ i + 1 then
      (cut? t (i + 1 - c.utf8Size)).map fun (before, after) => (c :: before, after)
    else none

@[simp] theorem byteSize_append (a b : Text) : (a ++ b).byteSize = a.byteSize + b.byteSize := by
  induction a with
  | nil => simp
  | cons c a ih => simp only [List.cons_append, byteSize_cons, ih]; omega

@[simp] theorem byteSize_reverse (t : Text) : byteSize t.reverse = t.byteSize := by
  induction t with
  | nil => rfl
  | cons c t ih => simp [ih, Nat.add_comm]

/-- A text is cut at an offset into exactly the two parts of which the first has that size. -/
theorem cut?_eq_some_iff {t a b : Text} {i : Nat} :
    t.cut? i = some (a, b) ↔ t = a ++ b ∧ i = a.byteSize := by
  induction t generalizing i a with
  | nil =>
    cases i with
    | zero => cases a <;> simp [cut?, eq_comm]
    | succ i => cases a <;> simp [cut?]
  | cons c t ih =>
    have hc := c.utf8Size_pos
    cases i with
    | zero =>
      cases a with
      | nil => simp [cut?, eq_comm]
      | cons d a => have hd := d.utf8Size_pos; simp [cut?]; omega
    | succ i =>
      cases a with
      | nil => simp [cut?]
      | cons d a => simp [cut?]; grind

theorem cut?_append (a b : Text) : (a ++ b).cut? a.byteSize = some (a, b) :=
  cut?_eq_some_iff.mpr ⟨rfl, rfl⟩

def before? (t : Text) (i : Nat) : Option Text := (t.cut? i).map (·.1)

def after? (t : Text) (i : Nat) : Option Text := (t.cut? i).map (·.2)

def takeOnto? (done : Text) : Text → Nat → Option Text
  | _, 0 => some done.reverse
  | [], _ + 1 => none
  | c :: t, i + 1 =>
    if c.utf8Size ≤ i + 1 then takeOnto? (c :: done) t (i + 1 - c.utf8Size) else none

theorem takeOnto?_eq (done t : Text) (i : Nat) :
    takeOnto? done t i = (t.before? i).map (done.reverse ++ ·) := by
  fun_induction takeOnto? done t i with
  | case1 => simp [before?, cut?]
  | case2 => simp [before?, cut?]
  | case3 done c t i h ih => simp [ih, before?, cut?, h, Function.comp_def]
  | case4 done c t i h => simp [before?, cut?, h]

theorem before?_eq_some_iff {t a : Text} {i : Nat} :
    t.before? i = some a ↔ ∃ b, t = a ++ b ∧ i = a.byteSize := by
  simp [before?, cut?_eq_some_iff]

theorem after?_eq_some_iff {t b : Text} {i : Nat} :
    t.after? i = some b ↔ ∃ a, t = a ++ b ∧ i = a.byteSize := by
  simp [after?, cut?_eq_some_iff]

def between? (t : Text) (i j : Nat) : Option Text :=
  if i ≤ j then (t.after? i).bind (·.before? (j - i)) else none

/-- The text from byte `i` to byte `j`; a range that cannot be cut out reads as empty. -/
def slice (t : Text) (i j : Nat) : Text := (t.between? i j).getD []

theorem between?_eq_some_iff {t m : Text} {i j : Nat} :
    t.between? i j = some m ↔
      ∃ a b, t = a ++ m ++ b ∧ i = a.byteSize ∧ j = a.byteSize + m.byteSize := by
  unfold between?
  split
  · rename_i hij
    simp only [Option.bind_eq_some_iff, after?_eq_some_iff, before?_eq_some_iff]
    constructor
    · rintro ⟨_, ⟨a, rfl, rfl⟩, b, rfl, hj⟩
      exact ⟨a, b, by simp, rfl, by omega⟩
    · rintro ⟨a, b, rfl, rfl, rfl⟩
      exact ⟨m ++ b, ⟨a, by simp, rfl⟩, b, rfl, by omega⟩
  · simp only [reduceCtorEq, false_iff]
    rintro ⟨a, b, _, rfl, rfl⟩
    omega

def isAscii (t : Text) : Bool := t.all (·.toNat < 128)

def dropEndWhile (p : Char → Bool) (t : Text) : Text := (t.reverse.dropWhile p).reverse

def occursIn (part : Text) : Text → Bool
  | [] => part.isEmpty
  | c :: t => part.isPrefixOf (c :: t) || occursIn part t

def ofNat (n : Nat) : Text := Nat.toDigits 10 n

def ofInt : Int → Text
  | .ofNat n => ofNat n
  | .negSucc n => '-' :: ofNat (n + 1)

def join (separator : Text) : List Text → Text
  | [] => []
  | [t] => t
  | t :: u :: ts => t ++ separator ++ join separator (u :: ts)

end Text

/-- How many columns a text takes where it is shown. -/
class TextWidth where
  width : Text → Nat

/-- One column for each character, as letters of most scripts have it. -/
@[reducible] def TextWidth.perCharacter : TextWidth := ⟨List.length⟩

end SourceLayout
