import SourceLayout.Text.Source
import SourceLayout.Text.Space

/-! # Line breaks around an offset

Five sequences end a line. Forward questions look at what follows an offset, backward ones at
what precedes it; an offset inside a character or past the end has nothing on either side.
-/

namespace SourceLayout

namespace Text

/-- The sequences that end a line, in the order they are tried. -/
def lineBreaks : List Text := [['\r', '\n'], ['\n'], ['\r'], ['\u2028'], ['\u2029']]

def isLineBreak (c : Char) : Bool := c == '\n' || c == '\r' || c == '\u2028' || c == '\u2029'

def isBlank (c : Char) : Bool := c == ' ' || c == '\t'

/-- Whether a gap between two comments keeps them on one line. A carriage return does not part
them. -/
def joinsLine (gap : Text) : Bool :=
  gap.all fun c => isSpace c && c != '\n' && c != '\u2028' && c != '\u2029'

/-- The parts of a text between its line breaks, `done` being the reversed part read so far. -/
def linesFrom (done : Text) : Text → List Text
  | [] => [done.reverse]
  | '\r' :: '\n' :: t => done.reverse :: linesFrom [] t
  | c :: t =>
    if c == '\n' || c == '\r' || c == '\u2028' || c == '\u2029' then
      done.reverse :: linesFrom [] t
    else linesFrom (c :: done) t

def lines (t : Text) : List Text := linesFrom [] t

end Text

namespace Cut

open Text (isBlank lineBreaks)

def blanksAfter (c : Cut) : Nat := Text.byteSize (c.after.takeWhile isBlank)

def blanksBefore (c : Cut) : Nat := Text.byteSize (c.before.takeWhile isBlank)

def breakAfter? (c : Cut) : Option Text := lineBreaks.find? (·.isPrefixOf c.after)

def breakBefore? (c : Cut) : Option Text := lineBreaks.find? (·.reverse.isPrefixOf c.before)

end Cut

namespace Source

def blanksEnd (s : Source) (i : Nat) : Nat := i + ((s.cut? i).map Cut.blanksAfter).getD 0

def blanksStart (s : Source) (i : Nat) : Nat := i - ((s.cut? i).map Cut.blanksBefore).getD 0

def breakAt? (s : Source) (i : Nat) : Option Nat :=
  ((s.cut? i).bind Cut.breakAfter?).map Text.byteSize

def breakUpTo? (s : Source) (i : Nat) : Option Nat :=
  ((s.cut? i).bind Cut.breakBefore?).map Text.byteSize

/-- Whether only blanks stand between `i` and the end of its line. -/
def endsLine (s : Source) (i : Nat) : Bool := (s.breakAt? (s.blanksEnd i)).isSome

/-- Whether only blanks stand between the start of a line and `i`. The start of the text starts
no line. -/
def startsLine (s : Source) (i : Nat) : Bool := (s.breakUpTo? (s.blanksStart i)).isSome

/-- Whether the line after the one that `i` ends is blank. -/
def blankLineAfter (s : Source) (i : Nat) : Bool :=
  let lineEnd := s.blanksEnd i
  s.endsLine (lineEnd + (s.breakAt? lineEnd).getD 0)

/-- Whether the line before the one that `i` starts is blank. -/
def blankLineBefore (s : Source) (i : Nat) : Bool :=
  let lineStart := s.blanksStart i
  s.startsLine (lineStart - (s.breakUpTo? lineStart).getD 0)

end Source

end SourceLayout
