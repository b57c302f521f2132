import SyntaxForest.Word

/-! # Rows and columns

An extent is what a piece of text does to a cursor: the number of line breaks in it, and the
column it ends in, counted from the last break or from its start where it has none. Laying one
extent after another therefore forgets the first column as soon as the second has a break.
-/

namespace SyntaxForest

structure Extent where
  row : Word
  column : Word
deriving DecidableEq, Repr

namespace Extent

/-- The extent of the empty text. -/
def zero : Extent := ⟨0, 0⟩

instance : Inhabited Extent := ⟨zero⟩

/-- The extent of one text followed by another, where both coordinates fit. -/
def add? (a b : Extent) : Option Extent :=
  if b.row = 0 then
    (a.column.add? b.column).map fun column => ⟨a.row, column⟩
  else
    (a.row.add? b.row).map fun row => ⟨row, b.column⟩

/-- What has to follow `b` to reach `a`; nothing where `b` is not before `a`. -/
protected def sub (a b : Extent) : Extent :=
  if b.row < a.row then ⟨a.row - b.row, a.column⟩
  else if a.row = b.row then ⟨0, a.column.monus b.column⟩
  else zero

instance : Sub Extent := ⟨Extent.sub⟩

/-- Rows decide, and columns on equal rows. -/
protected def lt (a b : Extent) : Prop :=
  a.row < b.row ∨ a.row = b.row ∧ a.column < b.column

instance : LT Extent := ⟨Extent.lt⟩
instance : LE Extent := ⟨fun a b => a < b ∨ a = b⟩

instance (a b : Extent) : Decidable (a < b) :=
  inferInstanceAs (Decidable (a.row < b.row ∨ a.row = b.row ∧ a.column < b.column))

instance (a b : Extent) : Decidable (a ≤ b) :=
  inferInstanceAs (Decidable (a < b ∨ a = b))

instance : Ord Extent := ⟨fun a b => compareOfLessAndEq a b⟩
instance : Min Extent := minOfLe
instance : Max Extent := maxOfLe

theorem add?_eq_some_iff {a b c : Extent} :
    a.add? b = some c ↔
      if b.row = 0 then c.row = a.row ∧ a.column.add? b.column = some c.column
      else a.row.add? b.row = some c.row ∧ c.column = b.column := by
  obtain ⟨row, column⟩ := c
  unfold add?
  split
  case isTrue =>
    cases a.column.add? b.column <;> simp [eq_comm]
  case isFalse =>
    cases a.row.add? b.row <;> simp [eq_comm]

@[simp]
theorem add?_zero (a : Extent) : a.add? zero = some a := by
  simp [add?, zero]

@[simp]
theorem zero_add? (a : Extent) : zero.add? a = some a := by
  rw [add?_eq_some_iff]
  split
  case isTrue flat => simp [zero, flat]
  case isFalse => simp [zero]

end Extent

end SyntaxForest
