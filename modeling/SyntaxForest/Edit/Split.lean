import SyntaxForest.Edit.Basic

/-! # Splitting an edit among children

The children of an edited node are met from left to right. The first one whose end is not before
the edit takes all of the inserted text and as much of the removal as it covers; the removal that
is left over goes to the children after it. A child that starts no later than the edit and takes
no part of it may still have been read up to it; every other child is out of reach.
-/

namespace SyntaxForest

/-- What an edit asks of one child. -/
inductive Share where
  /-- A part of the edit, in the coordinates of the child. -/
  | part (edit : TextEdit)
  /-- The edit starts at this byte of the child, or of the text after it. -/
  | glance (offset : Word)
deriving DecidableEq, Repr

/-- How far an edit has been handed out. -/
structure Split where
  /-- The end of the children met so far. -/
  edge : Span
  /-- The removal left over, once a child has taken the inserted text. -/
  owed : Option Span
deriving DecidableEq, Repr

namespace Split

def start : Split := ⟨.zero, none⟩

/-- The share of the next child, which covers `total` and ends at `right`; none when neither it
nor any child after it is in reach. -/
def next? (split : Split) (edit : TextEdit) (oldEnd total right : Span) :
    Option (Share × Split) :=
  match split.owed with
  | none =>
    if edit.start.bytes ≤ right.bytes then
      if right.bytes < oldEnd.bytes then
        some (.part ⟨edit.start - split.edge, right - edit.start, edit.added⟩,
          ⟨right, some (oldEnd - right)⟩)
      else
        some (.part ⟨edit.start - split.edge, edit.removed, edit.added⟩,
          ⟨right, some .zero⟩)
    else
      some (.glance (edit.start.bytes - split.edge.bytes), ⟨right, none⟩)
  | some owed =>
    if owed.isEmpty then
      if split.edge.bytes ≤ edit.start.bytes then
        some (.glance (edit.start.bytes - split.edge.bytes), ⟨right, some owed⟩)
      else
        none
    else
      let removed := owed.clip total
      some (.part (.removal removed), ⟨right, some (owed - removed)⟩)

end Split

end SyntaxForest
