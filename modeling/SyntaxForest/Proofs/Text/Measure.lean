import Mathlib.Data.List.TakeWhile
import SyntaxForest.Span

/-! # Spans of text

A text is a list of bytes, cut into rows by its line breaks. Spans that measure texts add up as the
texts do when they are laid out in order. A prefix is taken off a text by a difference, and of two
spans that measure the same text up to different bytes the clip measures the shorter.
-/

namespace SyntaxForest

/-- The bytes of a text. -/
abbrev Text := List UInt8

namespace Text

/-- The byte that ends a row. -/
def lineBreak : UInt8 := 10

/-- The number of line breaks. -/
def rows (text : Text) : Nat := text.count lineBreak

/-- The number of bytes after the last line break. -/
def lastColumn (text : Text) : Nat := (text.reverse.takeWhile (· ≠ lineBreak)).length

variable {x y : Text}

@[simp] theorem rows_append (x y : Text) : (x ++ y).rows = x.rows + y.rows := List.count_append ..

theorem rows_le_length (x : Text) : x.rows ≤ x.length := List.count_le_length ..

theorem lastColumn_le_length (x : Text) : x.lastColumn ≤ x.length :=
  Nat.le_trans (List.takeWhile_prefix _).length_le (Nat.le_of_eq List.length_reverse)

theorem lastColumn_append_of_flat (x : Text) (flat : y.rows = 0) :
    (x ++ y).lastColumn = x.lastColumn + y.length := by
  have within : ∀ byte ∈ y.reverse, decide (byte ≠ lineBreak) = true := by
    intro byte member
    refine decide_eq_true ?_
    rintro rfl
    exact List.count_eq_zero.mp flat (List.mem_reverse.mp member)
  rw [lastColumn, lastColumn, List.reverse_append, List.takeWhile_append_of_pos within,
    List.length_append, List.length_reverse, Nat.add_comm]

theorem lastColumn_append_of_broken (x : Text) (broken : y.rows ≠ 0) :
    (x ++ y).lastColumn = y.lastColumn := by
  have stops : (y.reverse.takeWhile (· ≠ lineBreak)).length ≠ y.reverse.length := by
    intro whole
    have all := List.takeWhile_eq_self_iff.mp ((List.takeWhile_prefix _).eq_of_length whole)
    refine broken (List.count_eq_zero.mpr fun member => ?_)
    exact of_decide_eq_true (all _ (List.mem_reverse.mpr member)) rfl
  rw [lastColumn, lastColumn, List.reverse_append, List.takeWhile_append, if_neg stops]

theorem lastColumn_of_flat (flat : y.rows = 0) : y.lastColumn = y.length := by
  rw [← List.nil_append y, lastColumn_append_of_flat [] flat]
  exact Nat.zero_add _

end Text

namespace Extent

/-- What the text does to a cursor. -/
structure Measures (extent : Extent) (text : Text) : Prop where
  row : extent.row.toNat = text.rows
  column : extent.column.toNat = text.lastColumn

namespace Measures

variable {a b c : Extent} {x y : Text}

theorem zero : Extent.zero.Measures [] := ⟨rfl, rfl⟩

theorem unique (first : a.Measures x) (second : b.Measures x) : a = b := by
  obtain ⟨row, column⟩ := a
  obtain ⟨row', column'⟩ := b
  obtain rfl : row = row' := UInt32.toNat_inj.mp (first.row.trans second.row.symm)
  obtain rfl : column = column' := UInt32.toNat_inj.mp (first.column.trans second.column.symm)
  rfl

theorem row_eq_zero_iff (measures : b.Measures y) : b.row = 0 ↔ y.rows = 0 := by
  rw [← measures.row, ← UInt32.toNat_inj]
  rfl

theorem add (first : a.Measures x) (second : b.Measures y) (sum : a.add? b = some c) :
    c.Measures (x ++ y) := by
  simp only [add?_eq_some_iff, second.row_eq_zero_iff] at sum
  split at sum
  case isTrue flat =>
    obtain ⟨row, column⟩ := sum
    refine ⟨?_, ?_⟩
    · rw [row, first.row, Text.rows_append, flat, Nat.add_zero]
    · rw [← Word.add?_eq_some_iff.mp column, first.column, second.column,
        Text.lastColumn_append_of_flat x flat, Text.lastColumn_of_flat flat]
  case isFalse broken =>
    obtain ⟨row, column⟩ := sum
    refine ⟨?_, ?_⟩
    · rw [← Word.add?_eq_some_iff.mp row, first.row, second.row, Text.rows_append]
    · rw [column, second.column, Text.lastColumn_append_of_broken x broken]

/-- Rows and columns can be numbered wherever bytes can. -/
theorem exists_add? (first : a.Measures x) (second : b.Measures y)
    (fits : (x ++ y).length < UInt32.size) : ∃ c, a.add? b = some c := by
  rw [List.length_append] at fits
  have left := Text.lastColumn_le_length x
  have right := Text.lastColumn_le_length y
  have above := Text.rows_le_length x
  have below := Text.rows_le_length y
  obtain ⟨row, rowSum⟩ := Word.exists_add? (a := a.row) (b := b.row)
    (by rw [first.row, second.row]; omega)
  obtain ⟨column, columnSum⟩ := Word.exists_add? (a := a.column) (b := b.column)
    (by rw [first.column, second.column]; omega)
  unfold Extent.add?
  split
  · exact ⟨_, by rw [columnSum]; rfl⟩
  · exact ⟨_, by rw [rowSum]; rfl⟩

/-- A prefix is taken off a text, though the sum has forgotten its last column. -/
theorem sub (whole : c.Measures (x ++ y)) (first : a.Measures x) : (c - a).Measures y := by
  have row := whole.row
  have column := whole.column
  rw [Text.rows_append, ← first.row] at row
  change (if a.row < c.row then ⟨c.row - a.row, c.column⟩
    else if c.row = a.row then ⟨0, c.column.monus a.column⟩ else Extent.zero).Measures y
  split
  case isTrue above =>
    have lt := UInt32.lt_iff_toNat_lt.mp above
    have broken : y.rows ≠ 0 := by omega
    refine ⟨?_, ?_⟩
    · rw [UInt32.toNat_sub_of_le _ _ (UInt32.le_iff_toNat_le.mpr (Nat.le_of_lt lt))]
      omega
    · rw [column, Text.lastColumn_append_of_broken x broken]
  case isFalse same =>
    have flat : y.rows = 0 := by
      have le := UInt32.le_iff_toNat_le.mp (UInt32.not_lt.mp same)
      omega
    rw [if_pos (UInt32.toNat_inj.mp (by omega))]
    refine ⟨flat.symm, ?_⟩
    rw [Word.toNat_monus, column, Text.lastColumn_append_of_flat x flat, first.column,
      Text.lastColumn_of_flat flat]
    omega

/-- A prefix of a text ends no later than the text. -/
theorem le (first : a.Measures x) (whole : c.Measures (x ++ y)) : a ≤ c := by
  have row := whole.row
  have column := whole.column
  rw [Text.rows_append, ← first.row] at row
  by_cases flat : y.rows = 0
  · rw [Text.lastColumn_append_of_flat x flat, ← first.column] at column
    have sameRow : a.row = c.row := UInt32.toNat_inj.mp (by omega)
    rcases Nat.eq_zero_or_pos y.length with empty | some
    · refine .inr ?_
      obtain rfl := List.length_eq_zero_iff.mp empty
      rw [List.append_nil] at whole
      exact first.unique whole
    · exact .inl (.inr ⟨sameRow, UInt32.lt_iff_toNat_lt.mpr (by omega)⟩)
  · exact .inl (.inl (UInt32.lt_iff_toNat_lt.mpr (by omega)))

theorem eq_of_le (first : a.Measures x) (whole : c.Measures (x ++ y)) (le : c ≤ a) : c = a := by
  have row := whole.row
  have column := whole.column
  rw [Text.rows_append, ← first.row] at row
  rcases le with (above | ⟨same, left⟩) | rfl
  · have lt := UInt32.lt_iff_toNat_lt.mp above
    omega
  · have lt := UInt32.lt_iff_toNat_lt.mp left
    have sameRow := congrArg UInt32.toNat same
    rw [Text.lastColumn_append_of_flat x (by omega), ← first.column] at column
    omega
  · rfl

end Measures

end Extent

namespace Span

/-- The span of the text, in bytes and as an extent. -/
structure Measures (span : Span) (text : Text) : Prop where
  bytes : span.bytes.toNat = text.length
  extent : span.extent.Measures text

namespace Measures

variable {a b c : Span} {x y : Text}

theorem zero : Span.zero.Measures [] := ⟨rfl, .zero⟩

theorem unique (first : a.Measures x) (second : b.Measures x) : a = b := by
  obtain ⟨bytes, extent⟩ := a
  obtain ⟨bytes', extent'⟩ := b
  obtain rfl : bytes = bytes' := UInt32.toNat_inj.mp (first.bytes.trans second.bytes.symm)
  obtain rfl : extent = extent' := first.extent.unique second.extent
  rfl

theorem add (first : a.Measures x) (second : b.Measures y) (sum : a.add? b = some c) :
    c.Measures (x ++ y) := by
  obtain ⟨bytes, extent⟩ := Span.add?_eq_some_iff.mp sum
  refine ⟨?_, first.extent.add second.extent extent⟩
  rw [← Word.add?_eq_some_iff.mp bytes, first.bytes, second.bytes, List.length_append]

theorem exists_add? (first : a.Measures x) (second : b.Measures y)
    (fits : (x ++ y).length < UInt32.size) : ∃ c, a.add? b = some c ∧ c.Measures (x ++ y) := by
  obtain ⟨extent, extentSum⟩ := first.extent.exists_add? second.extent fits
  obtain ⟨bytes, bytesSum⟩ := Word.exists_add? (a := a.bytes) (b := b.bytes)
    (by rwa [first.bytes, second.bytes, ← List.length_append])
  have sum : a.add? b = some ⟨bytes, extent⟩ := Span.add?_eq_some_iff.mpr ⟨bytesSum, extentSum⟩
  exact ⟨_, sum, first.add second sum⟩

theorem sub (whole : c.Measures (x ++ y)) (first : a.Measures x) : (c - a).Measures y := by
  refine ⟨?_, whole.extent.sub first.extent⟩
  rw [toNat_bytes_sub, whole.bytes, first.bytes, List.length_append]
  omega

/-- Of two spans of one text the clip is that of the shorter. -/
theorem clip_left (first : a.Measures x) (whole : c.Measures (x ++ y)) : (a.clip c).Measures x := by
  refine ⟨?_, ?_⟩
  · rw [toNat_bytes_clip, first.bytes, whole.bytes, List.length_append]
    omega
  · change (if a.extent ≤ c.extent then a.extent else c.extent).Measures x
    rw [if_pos (first.extent.le whole.extent)]
    exact first.extent

theorem clip_right (first : a.Measures x) (whole : c.Measures (x ++ y)) :
    (c.clip a).Measures x := by
  refine ⟨?_, ?_⟩
  · rw [toNat_bytes_clip, first.bytes, whole.bytes, List.length_append]
    omega
  · change (if c.extent ≤ a.extent then c.extent else a.extent).Measures x
    split
    case isTrue le => exact first.extent.eq_of_le whole.extent le ▸ first.extent
    case isFalse => exact first.extent

end Measures

end Span

end SyntaxForest
