/-! # Measured quantities

Every byte count, row, column and child count of a syntax tree is a 32-bit word. Sums that leave
the range are not wrapped: `Word.add?` has no value for them, and `toNat_of_add?` says that the
sums it has are those of the natural numbers. Differences stop at zero.
-/

namespace SyntaxForest

/-- A byte count, a row, a column or a number of children. -/
abbrev Word := UInt32

namespace Word

/-- The sum, where it is a word. -/
def add? (a b : Word) : Option Word :=
  if a.toNat + b.toNat < UInt32.size then some (a + b) else none

/-- The difference, or zero where the subtrahend is larger. -/
def monus (a b : Word) : Word :=
  if b ≤ a then a - b else 0

theorem add?_eq_some_iff {a b c : Word} : add? a b = some c ↔ a.toNat + b.toNat = c.toNat := by
  unfold add?
  split
  case isTrue fits =>
    rw [Option.some.injEq, ← UInt32.toNat_inj, UInt32.toNat_add, Nat.mod_eq_of_lt fits]
  case isFalse large =>
    have bound := c.toNat_lt_size
    simp only [reduceCtorEq, false_iff]
    omega

theorem add?_eq_none_iff {a b : Word} : add? a b = none ↔ UInt32.size ≤ a.toNat + b.toNat := by
  unfold add?
  split <;> simp <;> omega

theorem exists_add? {a b : Word} (fits : a.toNat + b.toNat < UInt32.size) :
    ∃ c, add? a b = some c :=
  ⟨a + b, if_pos fits⟩

@[simp]
theorem add?_zero (a : Word) : add? a 0 = some a :=
  add?_eq_some_iff.mpr (Nat.add_zero _)

@[simp]
theorem zero_add? (a : Word) : add? 0 a = some a :=
  add?_eq_some_iff.mpr (Nat.zero_add _)

theorem toNat_monus (a b : Word) : (monus a b).toNat = a.toNat - b.toNat := by
  unfold monus
  split
  case isTrue le => exact UInt32.toNat_sub_of_le a b le
  case isFalse gt =>
    have : a.toNat < b.toNat := UInt32.lt_iff_toNat_lt.mp (UInt32.not_le.mp gt)
    simp only [UInt32.toNat_zero]
    omega

theorem toNat_sub_one {a : Word} (pos : 0 < a) : (a - 1).toNat + 1 = a.toNat := by
  have positive := UInt32.lt_iff_toNat_lt.mp pos
  rw [UInt32.toNat_zero] at positive
  have le : 1 ≤ a := UInt32.le_iff_toNat_le.mpr (by rwa [UInt32.toNat_one])
  rw [UInt32.toNat_sub_of_le _ _ le, UInt32.toNat_one]
  omega

theorem toNat_max (a b : Word) : (max a b).toNat = max a.toNat b.toNat := by
  change (if a ≤ b then b else a).toNat = _
  split
  case isTrue le => exact (Nat.max_eq_right (UInt32.le_iff_toNat_le.mp le)).symm
  case isFalse gt =>
    have lt := UInt32.lt_iff_toNat_lt.mp (UInt32.not_le.mp gt)
    exact (Nat.max_eq_left (Nat.le_of_lt lt)).symm

theorem toNat_min (a b : Word) : (min a b).toNat = min a.toNat b.toNat := by
  change (if a ≤ b then a else b).toNat = _
  split
  case isTrue le => exact (Nat.min_eq_left (UInt32.le_iff_toNat_le.mp le)).symm
  case isFalse gt =>
    have lt := UInt32.lt_iff_toNat_lt.mp (UInt32.not_le.mp gt)
    exact (Nat.min_eq_right (Nat.le_of_lt lt)).symm

end Word

end SyntaxForest
