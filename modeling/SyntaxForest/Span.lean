import SyntaxForest.Extent

/-! # Spans

A span measures a piece of text twice, in bytes and as a row and column extent. The two are
carried side by side and never checked against each other.
-/

namespace SyntaxForest

structure Span where
  bytes : Word
  extent : Extent
deriving DecidableEq, Repr

namespace Span

/-- The span of the empty text. -/
def zero : Span := ⟨0, .zero⟩

instance : Inhabited Span := ⟨zero⟩

/-- A span without bytes, whatever its extent. -/
def isEmpty (a : Span) : Bool := a.bytes = 0

/-- The span of one text followed by another, where every coordinate fits. -/
def add? (a b : Span) : Option Span := do
  let bytes ← a.bytes.add? b.bytes
  let extent ← a.extent.add? b.extent
  return ⟨bytes, extent⟩

/-- What has to follow `b` to reach `a`, each coordinate on its own and stopping at zero. -/
protected def sub (a b : Span) : Span :=
  ⟨a.bytes.monus b.bytes, a.extent - b.extent⟩

instance : Sub Span := ⟨Span.sub⟩

/-- The smaller byte count beside the smaller extent, which need not come from one text. -/
def clip (a b : Span) : Span :=
  ⟨min a.bytes b.bytes, min a.extent b.extent⟩

/-- The span of a list of texts laid out in order. -/
def sum? (spans : List Span) : Option Span :=
  spans.foldlM add? zero

/-- Bytes decide, and extents on equal bytes. -/
protected def lt (a b : Span) : Prop :=
  a.bytes < b.bytes ∨ a.bytes = b.bytes ∧ a.extent < b.extent

instance : LT Span := ⟨Span.lt⟩
instance : LE Span := ⟨fun a b => a < b ∨ a = b⟩

instance (a b : Span) : Decidable (a < b) :=
  inferInstanceAs (Decidable (a.bytes < b.bytes ∨ a.bytes = b.bytes ∧ a.extent < b.extent))

instance (a b : Span) : Decidable (a ≤ b) :=
  inferInstanceAs (Decidable (a < b ∨ a = b))

instance : Ord Span := ⟨fun a b => compareOfLessAndEq a b⟩
instance : Min Span := minOfLe
instance : Max Span := maxOfLe

theorem add?_eq_some_iff {a b c : Span} :
    a.add? b = some c ↔
      a.bytes.add? b.bytes = some c.bytes ∧ a.extent.add? b.extent = some c.extent := by
  obtain ⟨bytes, extent⟩ := c
  cases sumBytes : a.bytes.add? b.bytes <;> cases sumExtent : a.extent.add? b.extent <;>
    simp [add?, sumBytes, sumExtent]

@[simp]
theorem add?_zero (a : Span) : a.add? zero = some a := by
  simp [add?_eq_some_iff, zero]

@[simp]
theorem zero_add? (a : Span) : zero.add? a = some a := by
  simp [add?_eq_some_iff, zero]

theorem toNat_bytes_sub (a b : Span) : (a - b).bytes.toNat = a.bytes.toNat - b.bytes.toNat :=
  Word.toNat_monus ..

theorem toNat_bytes_clip (a b : Span) :
    (a.clip b).bytes.toNat = min a.bytes.toNat b.bytes.toNat :=
  Word.toNat_min ..

end Span

end SyntaxForest
