import SyntaxForest.Proofs.Tree.Asked

/-! # When an edit is carried out

An edit is carried out if it lies within the text and leaves one whose bytes can be numbered. That
is all that is looked at before the work begins.
-/

namespace SyntaxForest

namespace TextEdit

/-- The edit lies within a text of so many bytes, and these can be numbered before and after it. -/
structure Fits (edit : TextEdit) (bytes : Nat) : Prop where
  before : bytes < UInt32.size
  inside : edit.stopByte ≤ bytes
  after : bytes - edit.removed.bytes.toNat + edit.added.bytes.toNat < UInt32.size

variable {edit : TextEdit} {oldEnd newEnd total : Word}

theorem ends_ok (ends : edit.ends = .ok (oldEnd, newEnd)) :
    oldEnd.toNat = edit.stopByte ∧
      newEnd.toNat = edit.startByte + edit.added.bytes.toNat := by
  unfold TextEdit.ends at ends
  split at ends
  case h_1 => cases ends
  case h_2 oldEnd' fits =>
    split at ends
    case h_1 => cases ends
    case h_2 newEnd' fits' =>
      cases ends
      exact ⟨(Word.add?_eq_some_iff.mp fits).symm, (Word.add?_eq_some_iff.mp fits').symm⟩

theorem approve_ok (approved : edit.approve oldEnd newEnd total = .ok ()) :
    oldEnd.toNat ≤ total.toNat ∧ total.toNat - oldEnd.toNat + newEnd.toNat < UInt32.size := by
  unfold TextEdit.approve at approved
  split at approved
  case isTrue => cases approved
  case isFalse inside =>
    have le := UInt32.not_lt.mp inside
    split at approved
    case h_1 => cases approved
    case h_2 sum fits =>
      have whole := Word.add?_eq_some_iff.mp fits
      rw [UInt32.toNat_sub_of_le _ _ le] at whole
      exact ⟨UInt32.le_iff_toNat_le.mp le, whole ▸ sum.toNat_lt_size⟩

theorem not_fits_of_ends {refusal : Refusal} (refused : edit.ends = .error refusal) (bytes : Nat) :
    ¬ edit.Fits bytes := by
  rintro ⟨before, inside, after⟩
  simp only [stopByte] at inside
  unfold TextEdit.ends at refused
  split at refused
  case h_1 beyond =>
    have large := Word.add?_eq_none_iff.mp beyond
    omega
  case h_2 =>
    split at refused
    case h_1 beyond =>
      have large := Word.add?_eq_none_iff.mp beyond
      omega
    case h_2 => cases refused

theorem not_fits_of_approve {refusal : Refusal} (ends : edit.ends = .ok (oldEnd, newEnd))
    (refused : edit.approve oldEnd newEnd total = .error refusal) : ¬ edit.Fits total.toNat := by
  rintro ⟨_, inside, after⟩
  obtain ⟨oldEndBytes, newEndBytes⟩ := ends_ok ends
  simp only [stopByte, startByte] at inside oldEndBytes newEndBytes
  unfold TextEdit.approve at refused
  split at refused
  case isTrue outside =>
    have lt := UInt32.lt_iff_toNat_lt.mp outside
    omega
  case isFalse within =>
    split at refused
    case h_1 beyond =>
      have large := Word.add?_eq_none_iff.mp beyond
      rw [UInt32.toNat_sub_of_le _ _ (UInt32.not_lt.mp within)] at large
      omega
    case h_2 => cases refused

end TextEdit

namespace Tree

variable {tree edited : Tree} {edit : TextEdit}

/-- An edit that is carried out fits the text. -/
theorem revise?_ok (revised : tree.revise? edit = some (.ok edited)) :
    edit.Fits tree.lengths.bytes ∧ (edit.isEmpty = true ∧ edited = tree ∨
      edit.isEmpty = false ∧ tree.carry? (.part edit) = some edited) := by
  unfold revise? at revised
  split at revised
  case h_1 => cases revised
  case h_2 oldEnd newEnd ends =>
    obtain ⟨oldEndBytes, newEndBytes⟩ := TextEdit.ends_ok ends
    obtain ⟨total, sum, revised⟩ := Option.bind_eq_some_iff.mp revised
    have totalBytes : total.toNat = tree.lengths.bytes := (Word.add?_eq_some_iff.mp sum).symm
    split at revised
    case h_1 => cases revised
    case h_2 approved =>
      obtain ⟨inside, fits⟩ := TextEdit.approve_ok approved
      refine ⟨⟨totalBytes ▸ total.toNat_lt_size, by omega, ?_⟩, ?_⟩
      · simp only [TextEdit.stopByte, TextEdit.startByte] at *
        omega
      · split at revised
        case isTrue isEmpty =>
          cases revised
          exact .inl ⟨isEmpty, rfl⟩
        case isFalse inhabited =>
          obtain ⟨tree', carried, finished⟩ := Option.bind_eq_some_iff.mp revised
          cases finished
          exact .inr ⟨eq_false_of_ne_true inhabited, carried⟩

/-- An edit that is refused does not fit the text. -/
theorem revise?_error {refusal : TextEdit.Refusal}
    (refused : tree.revise? edit = some (.error refusal)) : ¬ edit.Fits tree.lengths.bytes := by
  unfold revise? at refused
  split at refused
  case h_1 ends => exact TextEdit.not_fits_of_ends ends _
  case h_2 oldEnd newEnd ends =>
    obtain ⟨total, sum, refused⟩ := Option.bind_eq_some_iff.mp refused
    have totalBytes : tree.lengths.bytes = total.toNat := Word.add?_eq_some_iff.mp sum
    split at refused
    case h_1 approved => exact totalBytes ▸ TextEdit.not_fits_of_approve ends approved
    case h_2 =>
      split at refused
      case isTrue => cases refused
      case isFalse =>
        obtain ⟨_, _, finished⟩ := Option.bind_eq_some_iff.mp refused
        cases finished

/-- An edit of a text that can be numbered stops half-way only where it fits. -/
theorem revise?_eq_none (whole : tree.lengths.bytes < UInt32.size)
    (stopped : tree.revise? edit = none) :
    edit.Fits tree.lengths.bytes ∧ tree.carry? (.part edit) = none := by
  unfold revise? at stopped
  split at stopped
  case h_1 => cases stopped
  case h_2 oldEnd newEnd ends =>
    obtain ⟨oldEndBytes, newEndBytes⟩ := TextEdit.ends_ok ends
    obtain ⟨total, sum⟩ := Word.exists_add? whole
    have totalBytes : total.toNat = tree.lengths.bytes := (Word.add?_eq_some_iff.mp sum).symm
    rw [Lengths.totalBytes?, sum] at stopped
    simp only [Option.bind_eq_bind, Option.bind_some, Option.pure_def] at stopped
    split at stopped
    case h_1 => cases stopped
    case h_2 approved =>
      obtain ⟨inside, fits⟩ := TextEdit.approve_ok approved
      split at stopped
      case isTrue => cases stopped
      case isFalse =>
        refine ⟨⟨whole, by omega, ?_⟩, ?_⟩
        · simp only [TextEdit.stopByte, TextEdit.startByte] at *
          omega
        · exact Option.map_eq_none_iff.mp (Option.map_eq_bind.trans stopped)

end Tree

end SyntaxForest
