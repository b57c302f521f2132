import Mathlib.Algebra.GroupWithZero.Nat
import SyntaxForest.Proofs.Tree.Asked

/-! # Shares that add up

The parts of an edit that the children of a node carry take it apart: no byte of the removal is
dealt out twice or not at all, and one child alone takes the inserted text.
-/

namespace SyntaxForest

/-- The part of an edit that a child carries, if it carries one. -/
def Share.part? : Share → Option TextEdit
  | .part edit => some edit
  | .glance _ => none

/-- The parts of an edit among what children are asked. -/
def Share.parts (shares : List Share) : List TextEdit := shares.filterMap part?

/-- The bytes that parts of an edit remove together. -/
def TextEdit.removedBytes (parts : List TextEdit) : Nat := (parts.map (·.removed.bytes.toNat)).sum

/-- Parts that take an edit apart. -/
structure Tally (edit : TextEdit) (parts : List TextEdit) : Prop where
  removed : TextEdit.removedBytes parts = edit.removed.bytes.toNat
  /-- One part has all of the inserted text, and the others have none. -/
  added : ∃ before taker after, parts = before ++ taker :: after ∧ taker.added = edit.added ∧
    ∀ other ∈ before ++ after, other.added = .zero

namespace TextEdit

variable {edit : TextEdit} {oldEnd owed edge : Span} {children : List Lengths} {shares : List Share}

/-- The removal that is owed is paid in full by the children that are left, if they cover it. -/
theorem sharesAfter?_tally (drawn : edit.sharesAfter? owed edge children = some shares)
    (covered : owed.bytes.toNat ≤ Lengths.startOf children children.length) :
    removedBytes (Share.parts shares) = owed.bytes.toNat ∧
      ∀ other ∈ Share.parts shares, other.added = .zero := by
  induction children generalizing owed edge shares with
  | nil =>
    cases drawn
    exact ⟨(Nat.le_zero.mp covered).symm, nofun⟩
  | cons child rest ih =>
    rw [List.length_cons, Lengths.startOf_cons_succ] at covered
    cases sharesAfter?_cons drawn with
    | part total right later covers ends owing drawn' =>
      have clipped := Span.toNat_bytes_clip owed total
      have left := Span.toNat_bytes_sub owed (owed.clip total)
      obtain ⟨removed, bare⟩ := ih drawn' (by omega)
      refine ⟨?_, List.forall_mem_cons.mpr ⟨rfl, bare⟩⟩
      change (owed.clip total).bytes.toNat + removedBytes (Share.parts later) = _
      omega
    | glance right later ends paid near drawn' =>
      have paidBelow := ih drawn' (by omega)
      exact paidBelow
    | none paid far => exact ⟨paid.symm, nofun⟩

/-- A child takes the inserted text, for the edit lies within the children that are left. -/
theorem shares?_tally (ends : oldEnd.bytes.toNat = edit.stopByte)
    (drawn : edit.shares? oldEnd edge children = some shares)
    (inside : edit.stopByte ≤ edge.bytes.toNat + Lengths.startOf children children.length)
    (ahead : children ≠ [] ∨ edge.bytes.toNat < edit.startByte) :
    Tally edit (Share.parts shares) := by
  have whole : edit.stopByte = edit.startByte + edit.removed.bytes.toNat := rfl
  induction children generalizing edge shares with
  | nil =>
    have short : edit.stopByte ≤ edge.bytes.toNat := inside
    exact absurd (ahead.resolve_left (absurd rfl)) (by omega)
  | cons child rest ih =>
    rw [List.length_cons, Lengths.startOf_cons_succ] at inside
    cases shares?_cons ends drawn with
    | glance right later rightBytes passed drawn' =>
      have tally := ih drawn' (by omega) (.inr passed)
      exact tally
    | part right removed owed later rightBytes reached removes owes drawn' =>
      obtain ⟨paid, bare⟩ := sharesAfter?_tally drawn' (by omega)
      refine ⟨?_, [], _, _, rfl, rfl, bare⟩
      change removed.bytes.toNat + removedBytes (Share.parts later) = _
      omega

/-! ## One share a child -/

theorem sharesAfter?_length_le (drawn : edit.sharesAfter? owed edge children = some shares) :
    shares.length ≤ children.length := by
  induction children generalizing owed edge shares with
  | nil =>
    cases drawn
    exact Nat.le_refl _
  | cons child rest ih =>
    cases sharesAfter?_cons drawn with
    | part _ _ _ _ _ _ drawn' | glance _ _ _ _ _ drawn' => exact Nat.succ_le_succ (ih drawn')
    | none => exact Nat.zero_le _

theorem shares?_length_le (ends : oldEnd.bytes.toNat = edit.stopByte)
    (drawn : edit.shares? oldEnd edge children = some shares) :
    shares.length ≤ children.length := by
  induction children generalizing edge shares with
  | nil =>
    cases drawn
    exact Nat.le_refl _
  | cons child rest ih =>
    cases shares?_cons ends drawn with
    | part _ _ _ _ _ _ _ _ drawn' => exact Nat.succ_le_succ (sharesAfter?_length_le drawn')
    | glance _ _ _ _ drawn' => exact Nat.succ_le_succ (ih drawn')

end TextEdit

end SyntaxForest
