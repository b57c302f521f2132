import Mathlib.Algebra.Group.Prod
import SyntaxForest.Span

/-! # Spans without bounds

Rows, columns and bytes that may grow without end form a monoid: pieces of text laid out in order
give one sum, however they are grouped. A sum of spans, where it has a value, is the sum in the
monoid, and a value is told from any other by what it is there. The words alone have no such
monoid, since one grouping may fit where another does not.
-/

namespace SyntaxForest

/-- A row and a column that are not bounded. -/
@[ext]
structure Advance where
  row : ℕ
  column : ℕ
deriving DecidableEq, Repr

namespace Advance

instance : Zero Advance := ⟨⟨0, 0⟩⟩

/-- As soon as the second has a break the first column is forgotten. -/
instance : Add Advance :=
  ⟨fun a b => if b.row = 0 then ⟨a.row, a.column + b.column⟩ else ⟨a.row + b.row, b.column⟩⟩

theorem add_def (a b : Advance) :
    a + b = if b.row = 0 then ⟨a.row, a.column + b.column⟩ else ⟨a.row + b.row, b.column⟩ := rfl

@[simp] theorem row_zero : (0 : Advance).row = 0 := rfl

@[simp] theorem column_zero : (0 : Advance).column = 0 := rfl

@[simp] theorem row_add (a b : Advance) : (a + b).row = a.row + b.row := by
  rw [add_def]
  split <;> simp [*]

theorem column_add (a b : Advance) :
    (a + b).column = if b.row = 0 then a.column + b.column else b.column := by
  rw [add_def]
  split <;> rfl

instance : AddMonoid Advance where
  add_assoc a b c := by
    ext
    · simp only [row_add, Nat.add_assoc]
    · -- A break in `c` forgets what `a` and `b` give, one in `b` what `a` gives.
      simp only [column_add, row_add]
      split_ifs <;> omega
  zero_add a := by
    ext
    · rw [row_add, row_zero, Nat.zero_add]
    · rw [column_add, column_zero, Nat.zero_add, ite_self]
  add_zero a := by
    ext
    · rw [row_add, row_zero, Nat.add_zero]
    · rw [column_add, row_zero, if_pos rfl, column_zero, Nat.add_zero]
  nsmul := nsmulRec

end Advance

namespace Extent

variable {a b c : Extent}

/-- The extent as a number of rows and a column. -/
def advance (extent : Extent) : Advance := ⟨extent.row.toNat, extent.column.toNat⟩

theorem advance_injective : Function.Injective advance := by
  rintro ⟨row, column⟩ ⟨row', column'⟩ same
  obtain ⟨sameRow, sameColumn⟩ := Advance.mk.inj same
  exact congrArg₂ Extent.mk (UInt32.toNat_inj.mp sameRow) (UInt32.toNat_inj.mp sameColumn)

theorem add?_eq_some_iff_advance : a.add? b = some c ↔ a.advance + b.advance = c.advance := by
  have flat_iff : b.row = 0 ↔ b.advance.row = 0 := UInt32.toNat_inj.symm
  rw [add?_eq_some_iff, Advance.add_def]
  simp only [flat_iff]
  split
  case isTrue =>
    rw [Word.add?_eq_some_iff, advance, advance, advance, Advance.mk.injEq, UInt32.toNat_inj,
      @eq_comm _ c.row]
  case isFalse =>
    rw [Word.add?_eq_some_iff, advance, advance, advance, Advance.mk.injEq, UInt32.toNat_inj,
      @eq_comm _ c.column]

end Extent

/-- A number of bytes beside a row and a column, none of them bounded. -/
abbrev Stretch := ℕ × Advance

namespace Span

variable {a b c : Span}

/-- The span without its bounds. -/
def stretch (span : Span) : Stretch := (span.bytes.toNat, span.extent.advance)

theorem stretch_injective : Function.Injective stretch := by
  rintro ⟨bytes, extent⟩ ⟨bytes', extent'⟩ same
  obtain ⟨sameBytes, sameExtent⟩ := Prod.mk.inj same
  exact congrArg₂ Span.mk (UInt32.toNat_inj.mp sameBytes) (Extent.advance_injective sameExtent)

theorem add?_eq_some_iff_stretch : a.add? b = some c ↔ a.stretch + b.stretch = c.stretch := by
  rw [add?_eq_some_iff, Word.add?_eq_some_iff, Extent.add?_eq_some_iff_advance]
  exact Prod.mk_inj.symm

end Span

end SyntaxForest
