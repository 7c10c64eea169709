import SourceLayout.Text.Basic
import SourceLayout.Text.Shape

/-! # Quoted texts

A quoted text stands between double quotes. Characters that would not show, or that would join
the character before them, are written as escapes.
-/

namespace SourceLayout

namespace Text

def escape (c : Char) : Text :=
  if c == '\x00' then ['\\', '0']
  else if c == '\t' then ['\\', 't']
  else if c == '\r' then ['\\', 'r']
  else if c == '\n' then ['\\', 'n']
  else if c == '"' then ['\\', '"']
  else if c == '\\' then ['\\', '\\']
  else if isShown c then [c]
  else ['\\', 'u', '\x7b'] ++ Nat.toDigits 16 c.toNat ++ ['\x7d']

def quote (t : Text) : Text := '"' :: t.flatMap escape ++ ['"']

end Text

end SourceLayout
