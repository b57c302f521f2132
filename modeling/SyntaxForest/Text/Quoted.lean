import SyntaxForest.Text.Extending
import SyntaxForest.Text.Glyphless

/-! # Quoted characters

A character between single quotes, written so that it can be read back: the quote, the backslash
and four controls have escapes of their own, and a character that cannot be seen by itself is
given by its code point.
-/

namespace SyntaxForest.Text

/-- A code point in lower-case hexadecimal without leading zeros. -/
def escapeCode (c : Char) : List Char :=
  ['\\', 'u', '\x7b'] ++ Nat.toDigits 16 c.toNat ++ ['\x7d']

/-- A character as it stands between quotes. -/
def escape (c : Char) : List Char :=
  if c = '\x00' then ['\\', '0']
  else if c = '\t' then ['\\', 't']
  else if c = '\r' then ['\\', 'r']
  else if c = '\n' then ['\\', 'n']
  else if c = '\'' || c = '\\' then ['\\', c]
  else if isExtending c || isGlyphless c then escapeCode c
  else [c]

def quote (c : Char) : String := String.ofList (['\''] ++ escape c ++ ['\''])

end SyntaxForest.Text
