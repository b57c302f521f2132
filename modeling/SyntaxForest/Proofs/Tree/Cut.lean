import SyntaxForest.Proofs.Tree.Asked

/-! # The bytes of an edit

An edit says in bytes where it starts, how much it removes and how much it adds, and says the same
again in rows and columns. What it does to the bytes of a tree comes from its bytes alone: which
children carry a part of it, the bytes of that part, and the bytes of a leaf after it.
-/

namespace SyntaxForest

/-- The bytes of an edit. -/
structure Cut where
  start : Nat
  removed : Nat
  added : Nat

namespace Cut

/-- The byte at which the removed bytes end. -/
def stop (cut : Cut) : Nat := cut.start + cut.removed

/-- The part that falls on a child with this start and length; `first` tells whether no other child
stands before it. -/
def within? (cut : Cut) (first : Prop) [Decidable first] (start bytes : Nat) : Option Cut :=
  if cut.start ≤ start + bytes ∧ (start < cut.stop ∨ first) then
    some ⟨cut.start - start, min cut.stop (start + bytes) - max cut.start start,
      if start < cut.start ∨ first then cut.added else 0⟩
  else none

/-- The bytes of padding and content after the cut, which falls into the padding, across its end, or
into the content. -/
def resize (cut : Cut) (padding size : Nat) : Nat × Nat :=
  if cut.stop ≤ padding then (cut.start + cut.added + (padding - cut.stop), size)
  else if cut.start < padding then (cut.start + cut.added, size - (cut.stop - padding))
  else (padding, cut.start + cut.added + (padding + size - cut.stop) - padding)

variable {cut : Cut} {padding size : Nat}

theorem resize_of_padding (within : cut.stop ≤ padding) :
    cut.resize padding size = (cut.start + cut.added + (padding - cut.stop), size) :=
  if_pos within

theorem resize_of_border (beyond : padding < cut.stop) (before : cut.start < padding) :
    cut.resize padding size = (cut.start + cut.added, size - (cut.stop - padding)) := by
  rw [resize, if_neg (Nat.not_le.mpr beyond), if_pos before]

theorem resize_of_content (beyond : padding < cut.stop) (after : padding ≤ cut.start) :
    cut.resize padding size =
      (padding, cut.start + cut.added + (padding + size - cut.stop) - padding) := by
  rw [resize, if_neg (Nat.not_le.mpr beyond), if_neg (Nat.not_lt.mpr after)]

/-- A node that the cut lies within grows by what is added and shrinks by what is removed. -/
theorem resize_total (cut : Cut) (inside : cut.stop ≤ padding + size) :
    (cut.resize padding size).1 + (cut.resize padding size).2 + cut.removed =
      padding + size + cut.added := by
  simp only [stop] at inside
  unfold resize stop
  split
  · omega
  · split <;> omega

end Cut

namespace TextEdit

variable {edit edit' : TextEdit} {padding size padding' size' : Span}

def cut (edit : TextEdit) : Cut :=
  ⟨edit.startByte, edit.removed.bytes.toNat, edit.added.bytes.toNat⟩

theorem cut_eq_iff : edit.cut = edit'.cut ↔ edit.start.bytes = edit'.start.bytes ∧
    edit.removed.bytes = edit'.removed.bytes ∧ edit.added.bytes = edit'.added.bytes := by
  simp only [cut, startByte, Cut.mk.injEq, UInt32.toNat_inj]

theorem isEmpty_iff : edit.isEmpty = true ↔ edit.cut.removed = 0 ∧ edit.cut.added = 0 := by
  simp only [isEmpty, Span.isEmpty, Bool.and_eq_true, decide_eq_true_iff, cut, ← UInt32.toNat_inj,
    UInt32.toNat_zero]

/-- The bytes of a resized node are those that the bytes of the edit give. -/
theorem resize_of_resize? (resized : edit.resize? padding size = some (padding', size')) :
    edit.cut.resize padding.bytes.toNat size.bytes.toNat =
      (padding'.bytes.toNat, size'.bytes.toNat) := by
  unfold resize? at resized
  obtain ⟨oldEnd, ends, resized⟩ := Option.bind_eq_some_iff.mp resized
  obtain ⟨newEnd, ends', resized⟩ := Option.bind_eq_some_iff.mp resized
  have oldEndBytes : oldEnd.bytes.toNat = edit.cut.stop := bytes_of_oldEnd? ends
  have newEndBytes : edit.cut.start + edit.cut.added = newEnd.bytes.toNat :=
    Word.add?_eq_some_iff.mp (Span.add?_eq_some_iff.mp ends').1
  have ordered : edit.cut.start ≤ edit.cut.stop := Nat.le_add_right ..
  split at resized
  case isTrue early =>
    have before : edit.cut.start < padding.bytes.toNat := UInt32.lt_iff_toNat_lt.mp early
    split at resized
    case isTrue within =>
      have within := oldEndBytes ▸ UInt32.le_iff_toNat_le.mp within
      obtain ⟨whole, sum, finished⟩ := Option.bind_eq_some_iff.mp resized
      cases finished
      have sumBytes := Word.add?_eq_some_iff.mp (Span.add?_eq_some_iff.mp sum).1
      rw [Span.toNat_bytes_sub] at sumBytes
      rw [Cut.resize_of_padding within, newEndBytes, ← oldEndBytes, sumBytes]
    case isFalse outside =>
      have beyond := oldEndBytes ▸ UInt32.lt_iff_toNat_lt.mp (UInt32.not_le.mp outside)
      cases resized
      rw [Cut.resize_of_border beyond before, newEndBytes, ← oldEndBytes, Span.toNat_bytes_sub,
        Span.toNat_bytes_sub]
  case isFalse late =>
    have after : padding.bytes.toNat ≤ edit.cut.start :=
      UInt32.le_iff_toNat_le.mp (UInt32.not_lt.mp late)
    split at resized
    case isTrue border =>
      have start : edit.cut.start = padding.bytes.toNat := congrArg UInt32.toNat border.1
      have none : edit.cut.removed = 0 := congrArg UInt32.toNat border.2
      have stop : edit.cut.stop = padding.bytes.toNat := by rw [Cut.stop, start, none, Nat.add_zero]
      obtain ⟨whole, sum, finished⟩ := Option.bind_eq_some_iff.mp resized
      cases finished
      have sumBytes := Word.add?_eq_some_iff.mp (Span.add?_eq_some_iff.mp sum).1
      rw [Cut.resize_of_padding (Nat.le_of_eq stop), start, stop, Nat.sub_self, ← sumBytes]
      rfl
    case isFalse apart =>
      obtain ⟨total, fits, resized⟩ := Option.bind_eq_some_iff.mp resized
      obtain ⟨whole, sum, finished⟩ := Option.bind_eq_some_iff.mp resized
      cases finished
      have totalBytes := Word.add?_eq_some_iff.mp (Span.add?_eq_some_iff.mp fits).1
      have sumBytes := Word.add?_eq_some_iff.mp (Span.add?_eq_some_iff.mp sum).1
      rw [Span.toNat_bytes_sub] at sumBytes
      -- An edit that ends where the content starts, and does not start there, starts before it.
      have beyond : padding.bytes.toNat < edit.cut.stop := by
        refine Nat.lt_of_le_of_ne (Nat.le_trans after ordered) fun same => apart ?_
        simp only [Cut.stop] at same ordered
        exact ⟨UInt32.toNat_inj.mp (show edit.cut.start = _ by omega),
          UInt32.toNat_inj.mp (show edit.cut.removed = 0 by omega)⟩
      rw [Cut.resize_of_content beyond after, newEndBytes, ← oldEndBytes, Span.toNat_bytes_sub,
        totalBytes, sumBytes]

end TextEdit

/-- The bytes of the part of an edit that is asked for, if any is. -/
def Share.cut? : Option Share → Option Cut
  | some (.part edit) => some edit.cut
  | _ => none

/-- The bytes of a child's part come from the bytes of the edit and of the child. -/
theorem Asked.cut?_eq {edit : TextEdit} {index start bytes : Nat} {asked : Option Share}
    (asks : Asked edit (index = 0) start bytes asked) (first : index = 0 → start = 0) :
    Share.cut? asked = edit.cut.within? (index = 0) start bytes := by
  have whole : edit.cut.stop = edit.stopByte := rfl
  have starting : edit.cut.start = edit.startByte := rfl
  unfold Cut.within?
  rw [whole, starting]
  cases asks with
  | part part reached inside starts stops takes bare =>
    have removed : part.removed.bytes.toNat = part.stopByte - part.startByte :=
      (Nat.add_sub_cancel_left ..).symm
    rw [if_pos ⟨reached, inside⟩, Share.cut?, TextEdit.cut, removed, starts, stops]
    refine congrArg some (Cut.mk.injEq .. ▸ ⟨rfl, by omega, ?_⟩)
    split
    case isTrue leads => rw [takes leads]; rfl
    case isFalse follows => rw [bare follows]; rfl
  | glance offset starts near apart =>
    refine (if_neg fun part => ?_).symm
    omega
  | none beyond apart =>
    refine (if_neg fun part => ?_).symm
    omega

end SyntaxForest
