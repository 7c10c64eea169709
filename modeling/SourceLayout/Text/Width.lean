import SourceLayout.Text.Basic
import SourceLayout.Text.Columns

/-! # Width in a terminal

How many columns a text takes in a terminal, for running rule sets. Characters that are shown as
one sign count as one: a line break of two characters, an emoji with its selector, tone or flag, a
sequence of joined emoji, and the ligatures that some scripts require.

A text is measured from its end. Each character finds the context that the characters after it
leave, and the signs they may form with it.
-/

namespace SourceLayout

namespace Width

/-- Letters that form one sign with what stands before them. -/
inductive Letter
  | alef
  | lamed
  | khmer
  | ya
  | vocalYa
  | tifinagh
  | joinedTifinagh
  | lisu
  | orkhon
  deriving DecidableEq, Repr

/-- What comes next after a character. -/
inductive Next
  | other
  | lineFeed
  | letter (l : Letter)
  | vowelE
  | vowelAi
  | emoji
  | tone
  | region
  | regions
  | joiner
  | joinedKeycap
  | joinedRegion
  | joinedEven
  | joinedOdd
  | tagEnd
  | tagDigits (n : Nat)
  | tagLetters (n : Nat)
  deriving DecidableEq, Repr

/-- What a character finds behind it: what comes next, whether a joiner stands before that, and
which forms of a character the selectors before it ask for. -/
structure Context where
  next : Next := .other
  joined : Bool := false
  emojiForm : Bool := false
  textForm : Bool := false
  wideForm : Bool := false
  deriving DecidableEq, Repr

def isChar (code : Nat) (c : Char) : Bool := c.toNat == code

def isJoiner (c : Char) : Bool := isChar 0x200D c

def isEmojiSelector (c : Char) : Bool := isChar 0xFE0F c

def isTextSelector (c : Char) : Bool := isChar 0xFE0E c

def isWideSelector (c : Char) : Bool := isChar 0xFE01 c

def hasWideForm (c : Char) : Bool := inRanges [(0x2018, 0x2019), (0x201C, 0x201D)] c

def isIgnorableMark (c : Char) : Bool :=
  inRanges [(0x34F, 0x34F), (0x17B4, 0x17B5), (0x180B, 0x180D), (0x180F, 0x180F),
    (0xFE00, 0xFE0F), (0xE0100, 0xE01EF)] c

def isLam (c : Char) : Bool :=
  inRanges [(0x644, 0x644), (0x6B5, 0x6B8), (0x76A, 0x76A), (0x8A6, 0x8A6), (0x8C7, 0x8C7)] c

def isAlef (c : Char) : Bool :=
  inRanges [(0x622, 0x623), (0x625, 0x625), (0x627, 0x627), (0x671, 0x673), (0x675, 0x675),
    (0x773, 0x774), (0x870, 0x882)] c

def isKhmerConsonant (c : Char) : Bool :=
  inRanges [(0x1780, 0x1782), (0x1784, 0x1787), (0x1789, 0x178C), (0x178E, 0x1793),
    (0x1795, 0x1798), (0x179B, 0x179D), (0x17A0, 0x17A0), (0x17A2, 0x17A2), (0x17A7, 0x17A7),
    (0x17AB, 0x17AC), (0x17AF, 0x17AF)] c

def isTifinaghConsonant (c : Char) : Bool := inRanges [(0x2D31, 0x2D65), (0x2D6F, 0x2D6F)] c

def letter? (c : Char) : Option Letter :=
  if isAlef c then some .alef
  else if isChar 0x5DC c then some .lamed
  else if isKhmerConsonant c then some .khmer
  else if isChar 0x1A10 c then some .ya
  else if isTifinaghConsonant c then some .tifinagh
  else if inRanges [(0xA4FC, 0xA4FD)] c then some .lisu
  else if isChar 0x10C03 c then some .orkhon
  else none

/-- What a character is to the one before it. -/
def nextOf (c : Char) : Next :=
  match letter? c with
  | some l => .letter l
  | none =>
    if isChar 0x16D67 c then .vowelE
    else if isChar 0x16D68 c then .vowelAi
    else if isRegional c then .region
    else if isTone c then .tone
    else if isEmoji c then .emoji
    else .other

/-- The columns that a character adds before a letter it forms a sign with, and what that sign
is to the character before it. -/
def joinLetter (c : Char) (joined : Bool) : Letter → Option (Int × Next)
  | .alef =>
    if isLam c then some (0, .other)
    else if isTransparent c then some (0, .letter .alef)
    else none
  | .lamed => if joined && isChar 0x5D0 c then some (0, .other) else none
  | .khmer => if isChar 0x17D2 c then some (-1, .other) else none
  | .ya => if joined && isChar 0x1A17 c then some (0, .letter .vocalYa) else none
  | .vocalYa => if isChar 0x1A15 c then some (0, .other) else none
  | .tifinagh =>
    if isChar 0x2D7F c then some (1, .letter .joinedTifinagh)
    else if joined && isTifinaghConsonant c then some (0, .other)
    else none
  | .joinedTifinagh => if isTifinaghConsonant c then some (-1, .other) else none
  | .lisu => if inRanges [(0xA4F8, 0xA4FB)] c then some (0, .other) else none
  | .orkhon => if joined && isChar 0x10C32 c then some (0, .other) else none

/-- The columns that a character adds to the sign it forms with what comes next, and what that
sign is to the character before it. -/
def join (c : Char) (joined : Bool) : Next → Option (Int × Next)
  | .other | .lineFeed | .joinedKeycap => none
  | .letter l => joinLetter c joined l
  | .vowelE =>
    if inRanges [(0x16D63, 0x16D63), (0x16D69, 0x16D69)] c then some (0, .other)
    else if isChar 0x16D67 c then some (0, .vowelAi)
    else if isChar 0x16D68 c then some (1, .vowelE)
    else none
  | .vowelAi => if isChar 0x16D63 c then some (0, .other) else none
  | .emoji => if isJoiner c then some (0, .joiner) else none
  | .tone =>
    if isToned c then some (0, .emoji) else if isJoiner c then some (0, .joiner) else none
  | .region => if isRegional c then some (1, .regions) else none
  | .regions =>
    if isRegional c then some (1, .regions) else if isJoiner c then some (0, .joiner) else none
  | .joiner =>
    if isChar 0x20E3 c then some (0, .joinedKeycap)
    else if isRegional c then some (1, .joinedRegion)
    else if isTone c then some (0, .tone)
    else if isChar 0xE007F c then some (0, .tagEnd)
    else if isEmoji c then some (0, .emoji)
    else none
  | .joinedRegion => if isRegional c then some (-1, .joinedEven) else none
  | .joinedEven =>
    if isRegional c then some (3, .joinedOdd) else if isJoiner c then some (0, .joiner) else none
  | .joinedOdd =>
    if isRegional c then some (-1, .joinedEven) else if isJoiner c then some (0, .joiner) else none
  | .tagEnd =>
    if isTagLetter c then some (0, .tagLetters 1)
    else if isTagDigit c then some (0, .tagDigits 1)
    else none
  | .tagLetters n =>
    if isTagLetter c && n < 6 then some (0, .tagLetters (n + 1))
    else if isTagDigit c && n < 5 then some (0, .tagDigits 1)
    else if isChar 0x1F3F4 c && 3 ≤ n then some (0, .emoji)
    else none
  | .tagDigits n =>
    if isTagDigit c && n < 3 then some (0, .tagDigits (n + 1))
    else if isChar 0x1F3F4 c && n == 3 then some (0, .emoji)
    else none

namespace Context

/-- Whether marks may stand between what comes next and the characters that join it. -/
def admitsMarks (x : Context) : Bool :=
  match x.next with
  | .letter .alef => false
  | .letter _ => true
  | _ => false

/-- A selector before a letter leaves it in reach; before anything else it starts anew. -/
def underSelector (x : Context) : Context :=
  match x.next with
  | .letter _ => x
  | _ => {}

def underEmojiSelector (x : Context) : Context :=
  match x.next with
  | .letter _ | .joiner | .joinedKeycap => { x with emojiForm := true }
  | _ => { emojiForm := true }

def withoutEmojiForm (x : Context) : Context :=
  if x.emojiForm then { x.underSelector with emojiForm := false } else x

def continuesJoined (x : Context) : Bool :=
  match x.next with
  | .joiner | .joinedKeycap => true
  | _ => false

end Context

def stepNarrow (c : Char) (x : Context) : Int × Context :=
  if c == '\n' then (1, { next := .lineFeed })
  else if c == '\r' && x.next == .lineFeed then (0, {})
  else (1, {})

def stepPlain (c : Char) (x : Context) : Int × Context :=
  if x.admitsMarks && isJoiner c then (0, { x with joined := true })
  else if x.admitsMarks && isIgnorableMark c then (0, x)
  else
    match if x.wideForm then none else join c x.joined x.next with
    | some (added, next) => (added, { next })
    | none => (columns c, { next := nextOf c })

def stepSelected (c : Char) (x : Context) : Int × Context :=
  if isEmojiSelector c then (0, x.underEmojiSelector)
  else if isTextSelector c then (0, { x.underSelector with textForm := true })
  else if isWideSelector c then (0, { x.underSelector with wideForm := true })
  else if x.textForm then
    if hasTextForm c then (1, {}) else stepPlain c { x with textForm := false }
  else if x.wideForm then
    if hasWideForm c then (2, {}) else stepPlain c { x with wideForm := false }
  else stepPlain c x

/-- The columns that a character adds to what comes after it, and the context that it leaves. -/
def step (c : Char) (x : Context) : Int × Context :=
  if x.emojiForm && hasEmojiForm c then
    (if x.continuesJoined then 0 else 2, { next := .emoji })
  else if c.toNat ≤ 0xA0 then stepNarrow c x.withoutEmojiForm
  else stepSelected c x.withoutEmojiForm

/-- The columns of a text and the context at its start. -/
def measure (t : Text) : Int × Context :=
  t.foldr (fun c (total, x) => let (added, y) := step c x; (total + added, y)) (0, {})

end Width

instance TextWidth.terminal : TextWidth := ⟨fun t => (Width.measure t).1.toNat⟩

end SourceLayout
