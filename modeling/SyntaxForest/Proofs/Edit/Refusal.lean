import SyntaxForest.Proofs.Computes
import SyntaxForest.Proofs.Tree.Revise

/-! # Why an edit is refused

The checks of an edit are sums of words that may not fit, and a difference that is taken only after
it is known to be one. Read over the natural numbers they are four comparisons, and the first one
that fails gives the refusal. A refusal leaves the pool as it was; so does an edit without bytes,
but for the journal.
-/

namespace SyntaxForest

open PoolM

namespace TextEdit

variable {edit : TextEdit} {oldEnd newEnd total : Word} {bytes : Nat}

/-- The refusal of the edit in a text of so many bytes. -/
def refusal? (edit : TextEdit) (bytes : Nat) : Option Refusal :=
  if UInt32.size ≤ edit.stopByte then
    some (.tooLong edit.start.bytes edit.removed.bytes)
  else if UInt32.size ≤ edit.startByte + edit.added.bytes.toNat then
    some (.tooLong edit.start.bytes edit.added.bytes)
  else if bytes < edit.stopByte then
    some (.outsideText (.ofNat edit.stopByte) (.ofNat bytes))
  else if UInt32.size + edit.removed.bytes.toNat ≤ bytes + edit.added.bytes.toNat then
    some (.tooLong edit.start.bytes edit.added.bytes)
  else none

/-- An edit is refused if it reaches outside the text, or if what it leaves cannot be numbered. The
first two checks are for neither: what they refuse would be refused anyway. -/
theorem refusal?_eq_none_iff (whole : bytes < UInt32.size) :
    edit.refusal? bytes = none ↔ edit.Fits bytes := by
  have stop : edit.stopByte = edit.startByte + edit.removed.bytes.toNat := rfl
  unfold refusal?
  constructor
  · intro accepted
    split_ifs at accepted with oldEnd newEnd outside long
    exact ⟨whole, by omega, by omega⟩
  · rintro ⟨_, inside, after⟩
    rw [if_neg (by omega), if_neg (by omega), if_neg (by omega), if_neg (by omega)]

theorem refusal?_of_ends_error {refusal : Refusal} (refused : edit.ends = .error refusal)
    (bytes : Nat) : edit.refusal? bytes = some refusal := by
  unfold TextEdit.ends at refused
  unfold refusal?
  split at refused
  case h_1 beyond =>
    cases refused
    exact if_pos (Word.add?_eq_none_iff.mp beyond)
  case h_2 oldEnd fits =>
    have oldBytes : edit.stopByte = oldEnd.toNat := Word.add?_eq_some_iff.mp fits
    rw [if_neg (by rw [oldBytes]; exact Nat.not_le.mpr oldEnd.toNat_lt_size)]
    split at refused
    case h_1 beyond =>
      cases refused
      exact if_pos (Word.add?_eq_none_iff.mp beyond)
    case h_2 => cases refused

/-- Once both ends are numbered, what is left to check is that the edit fits. -/
theorem refusal?_of_ends_ok (ends : edit.ends = .ok (oldEnd, newEnd)) (bytes : Nat) :
    edit.refusal? bytes =
      if bytes < edit.stopByte then some (.outsideText oldEnd (.ofNat bytes))
      else if UInt32.size + edit.removed.bytes.toNat ≤ bytes + edit.added.bytes.toNat then
        some (.tooLong edit.start.bytes edit.added.bytes)
      else none := by
  obtain ⟨oldBytes, newBytes⟩ := ends_ok ends
  have oldFits := oldEnd.toNat_lt_size
  have newFits := newEnd.toNat_lt_size
  unfold refusal?
  rw [if_neg (by omega), if_neg (by omega), ← oldBytes, UInt32.ofNat_toNat]

theorem refusal?_of_approve_error {refusal : Refusal} (ends : edit.ends = .ok (oldEnd, newEnd))
    (refused : edit.approve oldEnd newEnd total = .error refusal) :
    edit.refusal? total.toNat = some refusal := by
  obtain ⟨oldBytes, newBytes⟩ := ends_ok ends
  have stop : edit.stopByte = edit.startByte + edit.removed.bytes.toNat := rfl
  rw [refusal?_of_ends_ok ends, UInt32.ofNat_toNat]
  unfold TextEdit.approve at refused
  split at refused
  case isTrue outside =>
    cases refused
    exact if_pos (oldBytes ▸ UInt32.lt_iff_toNat_lt.mp outside)
  case isFalse within =>
    have inside := UInt32.le_iff_toNat_le.mp (UInt32.not_lt.mp within)
    split at refused
    case h_1 beyond =>
      cases refused
      have large := Word.add?_eq_none_iff.mp beyond
      rw [UInt32.toNat_sub_of_le _ _ (UInt32.not_lt.mp within)] at large
      rw [if_neg (by omega), if_pos (by omega)]
    case h_2 => cases refused

theorem refusal?_of_approve_ok (ends : edit.ends = .ok (oldEnd, newEnd))
    (approved : edit.approve oldEnd newEnd total = .ok ()) :
    edit.refusal? total.toNat = none := by
  obtain ⟨oldBytes, newBytes⟩ := ends_ok ends
  obtain ⟨inside, fits⟩ := approve_ok approved
  have stop : edit.stopByte = edit.startByte + edit.removed.bytes.toNat := rfl
  rw [refusal?_of_ends_ok ends, if_neg (by omega), if_neg (by omega)]

end TextEdit

namespace Pool

variable {pool : Pool} {root : NodeId} {node : Node}

/-- An edit is decided on by `TextEdit.refusal?`, and then by whether it has any bytes. -/
theorem edit_of_node? (found : pool.node? root = some node)
    (whole : node.lengths.bytes < UInt32.size) (edit : TextEdit) :
    Pool.edit root edit pool =
      match edit.refusal? node.lengths.bytes with
      | some refusal => .ok (.error refusal) pool
      | none =>
        if edit.isEmpty then
          .ok (.ok root) { pool with journal := pool.journal.push (.skippedEdit edit.start.bytes) }
        else
          (do
            record (.appliedEdit edit.start.bytes edit.removed.bytes edit.added.bytes)
            return Except.ok (← applyEdit root edit)) pool := by
  obtain ⟨total, sum⟩ := Word.exists_add? whole
  have totalBytes : total.toNat = node.lengths.bytes := (Word.add?_eq_some_iff.mp sum).symm
  have summed : PoolM.sum node.lengths.totalBytes? pool = .ok total pool := by
    rw [Lengths.totalBytes?, sum]
    rfl
  rw [← totalBytes]
  unfold Pool.edit editBy
  cases ends : edit.ends with
  | error refusal => rw [TextEdit.refusal?_of_ends_error ends]; rfl
  | ok bounds =>
    obtain ⟨oldEnd, newEnd⟩ := bounds
    dsimp only
    rw [bind_of_ok (query_node found), bind_of_ok summed]
    cases approved : edit.approve oldEnd newEnd total with
    | error refusal => rw [TextEdit.refusal?_of_approve_error ends approved]; rfl
    | ok =>
      rw [TextEdit.refusal?_of_approve_ok ends approved]
      dsimp only
      split
      case isTrue => rfl
      case isFalse => rfl

/-- An edit that is applied, to its end or not, is not refused on the way. -/
theorem edit_eq_error_iff (found : pool.node? root = some node)
    (whole : node.lengths.bytes < UInt32.size) {edit : TextEdit} {refusal : TextEdit.Refusal}
    {after : Pool} :
    Pool.edit root edit pool = .ok (.error refusal) after ↔
      edit.refusal? node.lengths.bytes = some refusal ∧ after = pool := by
  rw [edit_of_node? found whole]
  split
  case h_1 refusal' decided =>
    rw [decided, EStateM.Result.ok.injEq, Except.error.injEq, Option.some.injEq, @eq_comm _ pool]
  case h_2 decided =>
    rw [decided]
    constructor
    · intro ran
      split at ran
      case isTrue => cases ran
      case isFalse =>
        obtain ⟨_, _, _, ran⟩ := bind_eq_ok ran
        obtain ⟨_, _, _, ran⟩ := bind_eq_ok ran
        cases ran
    · rintro ⟨⟨⟩, _⟩

/-- An edit of a text of `bytes` bytes is refused for the first of four reasons that holds: its
old end cannot be numbered, its new end cannot be numbered, it reaches past the text, the text
would grow too long. A refusal leaves the pool as it was, and so does an edit without bytes but for
a note in the journal; it answers with the handle it was given. Together the four reasons are two:
an edit is refused if it reaches past the text or leaves one that cannot be numbered, and no other
edit is. -/
theorem edit_refuses (found : pool.node? root = some node)
    (whole : node.lengths.bytes < UInt32.size) (edit : TextEdit) :
    (∀ refusal after, Pool.edit root edit pool = .ok (.error refusal) after ↔
      edit.refusal? node.lengths.bytes = some refusal ∧ after = pool) ∧
    (edit.refusal? node.lengths.bytes = none → edit.removed.bytes = 0 → edit.added.bytes = 0 →
      Pool.edit root edit pool = .ok (.ok root)
        { pool with journal := pool.journal.push (.skippedEdit edit.start.bytes) }) ∧
    ((∃ refusal after, Pool.edit root edit pool = .ok (.error refusal) after) ↔
      node.lengths.bytes < edit.start.bytes.toNat + edit.removed.bytes.toNat ∨
        UInt32.size + edit.removed.bytes.toNat ≤
          node.lengths.bytes + edit.added.bytes.toNat) := by
  refine ⟨fun _ _ => edit_eq_error_iff found whole, fun accepted noneRemoved noneAdded => ?_, ?_⟩
  · have isEmpty : edit.isEmpty = true := by
      simp [TextEdit.isEmpty, Span.isEmpty, noneRemoved, noneAdded]
    rw [edit_of_node? found whole, accepted]
    exact if_pos isEmpty
  · have stop : edit.stopByte = edit.start.bytes.toNat + edit.removed.bytes.toNat := rfl
    calc (∃ refusal after, Pool.edit root edit pool = .ok (.error refusal) after)
        ↔ edit.refusal? node.lengths.bytes ≠ none := by
          simp only [edit_eq_error_iff found whole, Option.ne_none_iff_exists', exists_and_left,
            exists_eq, and_true]
      _ ↔ ¬ edit.Fits node.lengths.bytes := not_congr (TextEdit.refusal?_eq_none_iff whole)
      _ ↔ _ := by
          constructor
          · intro misfit
            by_contra within
            exact misfit ⟨whole, by omega, by omega⟩
          · rintro reason ⟨_, inside, after⟩
            omega

/-- A pool with one leaf, which is as long as a text can be. -/
def longest : Pool :=
  ⟨#[⟨0, 1, ⟨{ NodeInfo.blank with
    lengths := ⟨.zero, ⟨4294967295, ⟨0, 4294967295⟩⟩, 4294967295⟩ }, []⟩⟩], [], #[], .standard⟩

theorem edit_refuses_of_longest : ∃ node edit, longest.node? ⟨0, 0⟩ = some node ∧
    node.lengths.bytes = UInt32.size - 1 ∧
    edit.refusal? node.lengths.bytes = some (.tooLong 4294967294 1) ∧
    (∀ refusal after, Pool.edit ⟨0, 0⟩ edit longest = .ok (.error refusal) after ↔
      edit.refusal? node.lengths.bytes = some refusal ∧ after = longest) ∧
    (edit.refusal? node.lengths.bytes = none → edit.removed.bytes = 0 → edit.added.bytes = 0 →
      Pool.edit ⟨0, 0⟩ edit longest = .ok (.ok ⟨0, 0⟩)
        { longest with journal := longest.journal.push (.skippedEdit edit.start.bytes) }) ∧
    ((∃ refusal after, Pool.edit ⟨0, 0⟩ edit longest = .ok (.error refusal) after) ↔
      node.lengths.bytes < edit.start.bytes.toNat + edit.removed.bytes.toNat ∨
        UInt32.size + edit.removed.bytes.toNat ≤
          node.lengths.bytes + edit.added.bytes.toNat) :=
  ⟨_, ⟨⟨4294967294, ⟨0, 4294967294⟩⟩, .zero, ⟨1, ⟨0, 1⟩⟩⟩, rfl, by decide, by decide,
    edit_refuses rfl (by decide) _⟩

end Pool

end SyntaxForest
