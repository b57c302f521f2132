import SyntaxForest.Edit.Basic
import SyntaxForest.Lengths

/-! # The lengths of an edited node

An edit given in the coordinates of a node falls into its padding, into its content, or across
the border between the two. Where it crosses, what is left of the content stays content and the
inserted text becomes padding.
-/

namespace SyntaxForest.TextEdit

/-- Padding and content after the edit. -/
def resize? (edit : TextEdit) (padding size : Span) : Option (Span × Span) := do
  let oldEnd ← edit.oldEnd?
  let newEnd ← edit.newEnd?
  if edit.start.bytes < padding.bytes then
    if oldEnd.bytes ≤ padding.bytes then
      let padding ← newEnd.add? (padding - oldEnd)
      return (padding, size)
    else
      return (newEnd, size - (oldEnd - padding))
  else if edit.start.bytes = padding.bytes ∧ edit.removed.bytes = 0 then
    let padding ← padding.add? edit.added
    return (padding, size)
  else
    let total ← padding.add? size
    let whole ← newEnd.add? (total - oldEnd)
    return (padding, whole - padding)

end SyntaxForest.TextEdit
