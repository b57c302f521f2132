import SyntaxForest.Proofs.Text.Stretch

/-! # Differences of extents and of spans

A sum of extents may be missing and forgets a column at a break, and a difference stops at zero. The
two fit together all the same: the difference is the least extent that has to follow the second to
reach the first, and it is always there. Spans have this from their bytes and their extents, each
on its own.
-/

namespace SyntaxForest

/-- A sum that may be missing, an order that it keeps, and a difference that is its residual. -/
structure Residuated {α : Type} (add? : α → α → Option α) (zero : α) (sub : α → α → α)
    (le : α → α → Prop) : Prop where
  zero_add : ∀ a, add? zero a = some a
  add_zero : ∀ a, add? a zero = some a
  /-- What is added up from the left can be added up from the right, and not always the other way
  round. -/
  assoc : ∀ {a b c first whole}, add? a b = some first → add? first c = some whole →
    ∃ last, add? b c = some last ∧ add? a last = some whole
  le_refl : ∀ a, le a a
  le_trans : ∀ {a b c}, le a b → le b c → le a c
  le_antisymm : ∀ {a b}, le a b → le b a → a = b
  le_add : ∀ {a b whole}, add? a b = some whole → le a whole
  add_le_add : ∀ {a b a' b' whole whole'}, le a a' → le b b' → add? a b = some whole →
    add? a' b' = some whole' → le whole whole'
  sub_le_iff : ∀ {a b c whole}, add? a b = some whole → (le (sub c a) b ↔ le c whole)
  add_sub : ∀ {a b whole}, add? a b = some whole → sub whole a = b
  add_sub_of_le : ∀ {a c}, le a c → add? a (sub c a) = some c
  sub_eq_zero : ∀ {a c}, le c a → sub c a = zero
  /-- The difference can be added wherever it is taken, and reaches far enough. -/
  reaches : ∀ a c, ∃ whole, add? a (sub c a) = some whole ∧ le c whole

namespace Word

variable {a b c whole : Word}

theorem residuated : Residuated add? 0 monus (· ≤ ·) where
  zero_add := zero_add?
  add_zero := add?_zero
  assoc {a b c first whole} sum sum' := by
    rw [add?_eq_some_iff] at sum sum'
    have bound := whole.toNat_lt_size
    obtain ⟨last, rest⟩ := exists_add? (a := b) (b := c) (by omega)
    refine ⟨last, rest, ?_⟩
    rw [add?_eq_some_iff] at rest ⊢
    omega
  le_refl := UInt32.le_refl
  le_trans := UInt32.le_trans
  le_antisymm := UInt32.le_antisymm
  le_add sum := by
    rw [add?_eq_some_iff] at sum
    rw [UInt32.le_iff_toNat_le]
    omega
  add_le_add le le' sum sum' := by
    rw [add?_eq_some_iff] at sum sum'
    rw [UInt32.le_iff_toNat_le] at le le' ⊢
    omega
  sub_le_iff sum := by
    rw [add?_eq_some_iff] at sum
    rw [UInt32.le_iff_toNat_le, UInt32.le_iff_toNat_le, toNat_monus]
    omega
  add_sub sum := by
    rw [add?_eq_some_iff] at sum
    rw [← UInt32.toNat_inj, toNat_monus]
    omega
  add_sub_of_le le := by
    rw [UInt32.le_iff_toNat_le] at le
    rw [add?_eq_some_iff, toNat_monus]
    omega
  sub_eq_zero le := by
    rw [UInt32.le_iff_toNat_le] at le
    rw [← UInt32.toNat_inj, toNat_monus, UInt32.toNat_zero]
    omega
  reaches a c := by
    have bound := a.toNat_lt_size
    have bound' := c.toNat_lt_size
    obtain ⟨whole, sum⟩ := exists_add? (a := a) (b := c.monus a) (by rw [toNat_monus]; omega)
    refine ⟨whole, sum, ?_⟩
    rw [add?_eq_some_iff, toNat_monus] at sum
    rw [UInt32.le_iff_toNat_le]
    omega

end Word

namespace Extent

variable {a b c whole : Extent}

theorem ext_toNat (row : a.row.toNat = b.row.toNat) (column : a.column.toNat = b.column.toNat) :
    a = b :=
  advance_injective (Advance.ext row column)

/-- A sum without a break and with one. -/
theorem add?_eq_some_iff_toNat : a.add? b = some c ↔
    b.row.toNat = 0 ∧ c.row.toNat = a.row.toNat ∧
        c.column.toNat = a.column.toNat + b.column.toNat ∨
      0 < b.row.toNat ∧ c.row.toNat = a.row.toNat + b.row.toNat ∧
        c.column.toNat = b.column.toNat := by
  rw [add?_eq_some_iff]
  split
  case isTrue flat =>
    have flat' : b.row.toNat = 0 := congrArg UInt32.toNat flat
    rw [Word.add?_eq_some_iff, ← UInt32.toNat_inj]
    omega
  case isFalse broken =>
    have broken' : b.row.toNat ≠ 0 := mt (UInt32.toNat_inj (b := 0)).mp broken
    rw [Word.add?_eq_some_iff, ← UInt32.toNat_inj]
    omega

theorem exists_add?_of_toNat (rows : a.row.toNat + b.row.toNat < UInt32.size)
    (columns : b.row.toNat = 0 → a.column.toNat + b.column.toNat < UInt32.size) :
    ∃ c, a.add? b = some c := by
  obtain ⟨row, rowSum⟩ := Word.exists_add? rows
  unfold add?
  split
  case isTrue flat =>
    obtain ⟨column, columnSum⟩ := Word.exists_add? (columns (congrArg UInt32.toNat flat))
    exact ⟨⟨a.row, column⟩, by rw [columnSum]; rfl⟩
  case isFalse => exact ⟨⟨row, b.column⟩, by rw [rowSum]; rfl⟩

theorem le_iff_toNat : a ≤ b ↔ a.row.toNat < b.row.toNat ∨
    a.row.toNat = b.row.toNat ∧ a.column.toNat ≤ b.column.toNat := by
  have equal : a = b ↔ a.row.toNat = b.row.toNat ∧ a.column.toNat = b.column.toNat :=
    ⟨fun same => same ▸ ⟨rfl, rfl⟩, fun ⟨row, column⟩ => ext_toNat row column⟩
  change (a.row < b.row ∨ a.row = b.row ∧ a.column < b.column) ∨ a = b ↔ _
  rw [equal, UInt32.lt_iff_toNat_lt, UInt32.lt_iff_toNat_lt, ← UInt32.toNat_inj]
  omega

/-- A difference on a later row, on the same row, and of an extent that is not reached. No
coordinate is taken below zero. -/
theorem sub_cases (c a : Extent) :
    a.row.toNat < c.row.toNat ∧ (c - a).row.toNat = c.row.toNat - a.row.toNat ∧
        (c - a).column.toNat = c.column.toNat ∨
      a.row.toNat = c.row.toNat ∧ (c - a).row.toNat = 0 ∧
        (c - a).column.toNat = c.column.toNat - a.column.toNat ∨
      c.row.toNat < a.row.toNat ∧ (c - a).row.toNat = 0 ∧ (c - a).column.toNat = 0 := by
  have unfolded : c - a = if a.row < c.row then ⟨c.row - a.row, c.column⟩
      else if c.row = a.row then ⟨0, c.column.monus a.column⟩ else Extent.zero := rfl
  rw [unfolded]
  split
  case isTrue later =>
    have lt := UInt32.lt_iff_toNat_lt.mp later
    have le := UInt32.le_iff_toNat_le.mpr (Nat.le_of_lt lt)
    exact .inl ⟨lt, UInt32.toNat_sub_of_le _ _ le, rfl⟩
  case isFalse notLater =>
    have le := UInt32.le_iff_toNat_le.mp (UInt32.not_lt.mp notLater)
    split
    case isTrue same =>
      exact .inr (.inl ⟨congrArg UInt32.toNat same.symm, rfl, Word.toNat_monus ..⟩)
    case isFalse differ =>
      have lt := Nat.lt_of_le_of_ne le (mt UInt32.toNat_inj.mp differ)
      exact .inr (.inr ⟨lt, rfl, rfl⟩)

theorem residuated : Residuated add? zero (· - ·) (· ≤ ·) where
  zero_add := zero_add?
  add_zero := add?_zero
  assoc {a b c first whole} sum sum' := by
    rw [add?_eq_some_iff_toNat] at sum sum'
    have rows := whole.row.toNat_lt_size
    have columns := whole.column.toNat_lt_size
    obtain ⟨last, rest⟩ := exists_add?_of_toNat (a := b) (b := c) (by omega) (by omega)
    refine ⟨last, rest, ?_⟩
    rw [add?_eq_some_iff_toNat] at rest ⊢
    omega
  le_refl a := .inr rfl
  le_trans le le' := by
    rw [le_iff_toNat] at le le' ⊢
    omega
  le_antisymm le le' := by
    rw [le_iff_toNat] at le le'
    exact ext_toNat (by omega) (by omega)
  le_add sum := by
    rw [add?_eq_some_iff_toNat] at sum
    rw [le_iff_toNat]
    omega
  add_le_add le le' sum sum' := by
    rw [add?_eq_some_iff_toNat] at sum sum'
    rw [le_iff_toNat] at le le' ⊢
    omega
  sub_le_iff {a b c whole} sum := by
    have difference := sub_cases c a
    rw [add?_eq_some_iff_toNat] at sum
    rw [le_iff_toNat, le_iff_toNat]
    omega
  add_sub {a b whole} sum := by
    have difference := sub_cases whole a
    rw [add?_eq_some_iff_toNat] at sum
    exact ext_toNat (by omega) (by omega)
  add_sub_of_le {a c} le := by
    have difference := sub_cases c a
    rw [le_iff_toNat] at le
    rw [add?_eq_some_iff_toNat]
    omega
  sub_eq_zero {a c} le := by
    have difference := sub_cases c a
    rw [le_iff_toNat] at le
    exact ext_toNat (b := zero) (by change _ = 0; omega) (by change _ = 0; omega)
  reaches a c := by
    have difference := sub_cases c a
    have rows := a.row.toNat_lt_size
    have rows' := c.row.toNat_lt_size
    have columns := a.column.toNat_lt_size
    have columns' := c.column.toNat_lt_size
    obtain ⟨whole, sum⟩ := exists_add?_of_toNat (a := a) (b := c - a) (by omega) (by omega)
    refine ⟨whole, sum, ?_⟩
    rw [add?_eq_some_iff_toNat] at sum
    rw [le_iff_toNat]
    omega

-- Added up from the left a column may leave the range that a later break would have forgotten.
example : add? ⟨0, 4294967295⟩ ⟨0, 1⟩ = none ∧
    (add? ⟨0, 1⟩ ⟨1, 0⟩).bind (add? ⟨0, 4294967295⟩) = some ⟨1, 0⟩ := by decide

end Extent

namespace Span

/-- The first span reaches no further than the second, in bytes and as an extent. -/
structure Within (a b : Span) : Prop where
  bytes : a.bytes ≤ b.bytes
  extent : a.extent ≤ b.extent

theorem ext_parts {a b : Span} (bytes : a.bytes = b.bytes) (extent : a.extent = b.extent) :
    a = b := by
  obtain ⟨aBytes, aExtent⟩ := a
  obtain ⟨bBytes, bExtent⟩ := b
  exact congrArg₂ mk bytes extent

theorem residuated : Residuated add? zero (· - ·) Within where
  zero_add := zero_add?
  add_zero := add?_zero
  assoc {a b c first whole} sum sum' := by
    obtain ⟨bytes, extent⟩ := add?_eq_some_iff.mp sum
    obtain ⟨bytes', extent'⟩ := add?_eq_some_iff.mp sum'
    obtain ⟨lastBytes, bytesRest, bytesSum⟩ := Word.residuated.assoc bytes bytes'
    obtain ⟨lastExtent, extentRest, extentSum⟩ := Extent.residuated.assoc extent extent'
    exact ⟨⟨lastBytes, lastExtent⟩, add?_eq_some_iff.mpr ⟨bytesRest, extentRest⟩,
      add?_eq_some_iff.mpr ⟨bytesSum, extentSum⟩⟩
  le_refl a := ⟨Word.residuated.le_refl _, Extent.residuated.le_refl _⟩
  le_trans le le' := ⟨Word.residuated.le_trans le.bytes le'.bytes,
    Extent.residuated.le_trans le.extent le'.extent⟩
  le_antisymm le le' := ext_parts (Word.residuated.le_antisymm le.bytes le'.bytes)
    (Extent.residuated.le_antisymm le.extent le'.extent)
  le_add sum := by
    obtain ⟨bytes, extent⟩ := add?_eq_some_iff.mp sum
    exact ⟨Word.residuated.le_add bytes, Extent.residuated.le_add extent⟩
  add_le_add le le' sum sum' := by
    obtain ⟨bytes, extent⟩ := add?_eq_some_iff.mp sum
    obtain ⟨bytes', extent'⟩ := add?_eq_some_iff.mp sum'
    exact ⟨Word.residuated.add_le_add le.bytes le'.bytes bytes bytes',
      Extent.residuated.add_le_add le.extent le'.extent extent extent'⟩
  sub_le_iff {a b c whole} sum := by
    obtain ⟨bytes, extent⟩ := add?_eq_some_iff.mp sum
    have bytesIff : c.bytes.monus a.bytes ≤ b.bytes ↔ _ := Word.residuated.sub_le_iff bytes
    have extentIff : c.extent - a.extent ≤ b.extent ↔ _ := Extent.residuated.sub_le_iff extent
    exact ⟨fun within => ⟨bytesIff.mp within.bytes, extentIff.mp within.extent⟩,
      fun within => ⟨bytesIff.mpr within.bytes, extentIff.mpr within.extent⟩⟩
  add_sub sum := by
    obtain ⟨bytes, extent⟩ := add?_eq_some_iff.mp sum
    exact ext_parts (Word.residuated.add_sub bytes) (Extent.residuated.add_sub extent)
  add_sub_of_le within := add?_eq_some_iff.mpr
    ⟨Word.residuated.add_sub_of_le within.bytes, Extent.residuated.add_sub_of_le within.extent⟩
  sub_eq_zero within :=
    ext_parts (Word.residuated.sub_eq_zero within.bytes)
      (Extent.residuated.sub_eq_zero within.extent)
  reaches a c := by
    obtain ⟨bytes, bytesSum, bytesLe⟩ := Word.residuated.reaches a.bytes c.bytes
    obtain ⟨extent, extentSum, extentLe⟩ := Extent.residuated.reaches a.extent c.extent
    exact ⟨⟨bytes, extent⟩, add?_eq_some_iff.mpr ⟨bytesSum, extentSum⟩, bytesLe, extentLe⟩

end Span

/-- The difference of extents is the residual of their sum in the order that compares rows first,
and takes no coordinate below zero. Spans have the same from their bytes and their extents, which
are added, taken off and stopped at zero each on its own. -/
theorem Residuated.extent_and_span :
    Residuated Extent.add? Extent.zero (· - ·) (· ≤ ·) ∧
    (∀ a c : Extent,
      (a ≤ c ↔ a.row < c.row ∨ a.row = c.row ∧ a.column ≤ c.column) ∧
      (c - a).row.toNat = c.row.toNat - a.row.toNat ∧
      (c - a).column.toNat = if a.row < c.row then c.column.toNat
        else if a.row = c.row then c.column.toNat - a.column.toNat else 0) ∧
    Residuated Word.add? 0 Word.monus (· ≤ ·) ∧
    Residuated Span.add? Span.zero (· - ·) Span.Within ∧
    (∀ a b whole : Span, a.add? b = some whole ↔
      a.bytes.add? b.bytes = some whole.bytes ∧ a.extent.add? b.extent = some whole.extent) ∧
    ∀ a c : Span, (c - a).bytes = c.bytes.monus a.bytes ∧ (c - a).extent = c.extent - a.extent := by
  refine ⟨Extent.residuated, fun a c => ⟨?order, ?row, ?column⟩, Word.residuated, Span.residuated,
    fun _ _ _ => Span.add?_eq_some_iff, fun _ _ => ⟨rfl, rfl⟩⟩
  case order =>
    rw [Extent.le_iff_toNat, UInt32.lt_iff_toNat_lt, UInt32.le_iff_toNat_le, ← UInt32.toNat_inj]
  case row =>
    have difference := Extent.sub_cases c a
    omega
  case column =>
    have difference := Extent.sub_cases c a
    simp only [UInt32.lt_iff_toNat_lt, ← UInt32.toNat_inj]
    split <;> [skip; split] <;> omega

end SyntaxForest
