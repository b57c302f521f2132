import SyntaxForest.Span

/-! # The lengths of a node

A node knows how much text it covers and how far its scanner read, and never where in the
document it lies. The lengths of an internal node are those of its children laid out in order,
which `Summary` gathers from left to right.
-/

namespace SyntaxForest

structure Lengths where
  /-- The white space and comments before the node's content. -/
  padding : Span
  /-- The content, without the padding. -/
  size : Span
  /-- How many bytes from the start of the padding were read to produce the node. -/
  scanned : Word
deriving DecidableEq, Repr

namespace Lengths

def zero : Lengths := ⟨.zero, .zero, 0⟩

instance : Inhabited Lengths := ⟨zero⟩

/-- Padding and content together. -/
def total? (lengths : Lengths) : Option Span :=
  lengths.padding.add? lengths.size

/-- The bytes of padding and content together. -/
def totalBytes? (lengths : Lengths) : Option Word :=
  lengths.padding.bytes.add? lengths.size.bytes

/-- A token whose scanner read nothing past its end. -/
def token? (padding size : Span) : Option Lengths :=
  (padding.bytes.add? size.bytes).map fun bytes => ⟨padding, size, bytes⟩

/-- The lengths of a token after its own text has changed: it was read at least to its end. -/
def cover? (lengths : Lengths) : Option Lengths :=
  lengths.totalBytes?.map fun bytes => { lengths with scanned := max lengths.scanned bytes }

end Lengths

/-- The lengths of the children met so far, as one piece of text. -/
structure Summary where
  lengths : Lengths
  /-- Padding and content of all children together. -/
  total : Span
deriving DecidableEq, Repr

namespace Summary

/-- The first child gives the padding. -/
def ofFirst? (child : Lengths) : Option Summary :=
  child.total?.map fun total => ⟨child, total⟩

/-- A later child is content from its padding on. -/
def extend? (summary : Summary) (child : Lengths) : Option Summary := do
  let reach ← summary.total.bytes.add? child.scanned
  let whole ← child.total?
  let size ← summary.lengths.size.add? whole
  let total ← summary.total.add? whole
  return ⟨⟨summary.lengths.padding, size, max summary.lengths.scanned reach⟩, total⟩

/-- The parent's lengths: it was read at least to the end of its last child. -/
def finish (summary : Summary) : Lengths :=
  { summary.lengths with scanned := max summary.lengths.scanned summary.total.bytes }

end Summary

end SyntaxForest
