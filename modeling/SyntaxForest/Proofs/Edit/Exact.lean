import SyntaxForest.Pool.Edit
import SyntaxForest.Proofs.Computes
import SyntaxForest.Proofs.Tree.Moves

/-! # Differences that are exact

Differences of spans stop at zero bytes, and what is lost by that would be lost silently. Here an
edit is carried into a node with any difference in the place of that one. With a difference that has
no value where bytes would be lost, the outcome is the same for every edit within the node, so none
are lost.
-/

namespace SyntaxForest

/-- The difference, if no bytes are lost in it. -/
def Span.sub? (a b : Span) : Option Span := if b.bytes ≤ a.bytes then some (a - b) else none

section Definitions

variable (minus : Span → Span → Option Span)

/-- Padding and content after the edit, with the given difference. -/
def TextEdit.resizeBy? (edit : TextEdit) (padding size : Span) : Option (Span × Span) := do
  let oldEnd ← edit.oldEnd?
  let newEnd ← edit.newEnd?
  if edit.start.bytes < padding.bytes then
    if oldEnd.bytes ≤ padding.bytes then
      let rest ← minus padding oldEnd
      let padding ← newEnd.add? rest
      return (padding, size)
    else
      let lost ← minus oldEnd padding
      let size ← minus size lost
      return (newEnd, size)
  else if edit.start.bytes = padding.bytes ∧ edit.removed.bytes = 0 then
    let padding ← padding.add? edit.added
    return (padding, size)
  else
    let total ← padding.add? size
    let rest ← minus total oldEnd
    let whole ← newEnd.add? rest
    let size ← minus whole padding
    return (padding, size)

/-- The share of the next child, if it has one, with the given difference. -/
def Split.nextBy? (split : Split) (edit : TextEdit) (oldEnd total right : Span) :
    Option (Option (Share × Split)) :=
  match split.owed with
  | none =>
    if edit.start.bytes ≤ right.bytes then do
      let start ← minus edit.start split.edge
      if right.bytes < oldEnd.bytes then
        let removed ← minus right edit.start
        let owed ← minus oldEnd right
        return some (.part ⟨start, removed, edit.added⟩, ⟨right, some owed⟩)
      else
        return some (.part ⟨start, edit.removed, edit.added⟩, ⟨right, some .zero⟩)
    else
      some (some (.glance (edit.start.bytes - split.edge.bytes), ⟨right, none⟩))
  | some owed =>
    if owed.isEmpty then
      if split.edge.bytes ≤ edit.start.bytes then
        some (some (.glance (edit.start.bytes - split.edge.bytes), ⟨right, some owed⟩))
      else
        some none
    else do
      let removed := owed.clip total
      let owed ← minus owed removed
      return some (.part (.removal removed), ⟨right, some owed⟩)

namespace Pool

/-- A node after the edit has changed its own text, with the given difference. -/
def resizedInfoBy (edit : TextEdit) (isLeaf : Bool) (info : NodeInfo) : Option NodeInfo := do
  let (padding, size) ← edit.resizeBy? minus info.lengths.padding info.lengths.size
  let lengths : Lengths := { info.lengths with padding, size }
  let lengths ← if isLeaf then lengths.cover? else some lengths
  return { info with lengths, changed := true }

/-- The tasks for the children of an edited node, with the given difference. -/
def shareOutBy (pool : Pool) (parent : NodeId) (edit : TextEdit) (oldEnd : Span) (split : Split)
    (index : Nat) (done : List EditTask) : List NodeId → Except Fault (List EditTask)
  | [] => .ok done
  | child :: rest => do
    let node ← pool.node child
    let total ← checked node.lengths.total?
    let right ← checked (split.edge.add? total)
    match ← checked (split.nextBy? minus edit oldEnd total right) with
    | none => return done
    | some (share, split) =>
      pool.shareOutBy parent edit oldEnd split (index + 1)
        (taskOf ⟨parent, index⟩ child share :: done) rest

/-- Carries an edit into a node that has no owner but its holder, with the given difference. -/
def changeNodeBy (edit : TextEdit) (id : NodeId) : PoolM (List EditTask) := do
  let node ← PoolM.query (·.node id)
  let info ← PoolM.sum (resizedInfoBy minus edit node.isLeaf node.toNodeInfo)
  write id ⟨info, node.children⟩
  if node.isLeaf then
    return []
  else
    let oldEnd ← PoolM.sum edit.oldEnd?
    PoolM.query (·.shareOutBy minus id edit oldEnd .start 0 [.summarize id] node.children)

end Pool

end Definitions

/-! ## The difference that stops at zero -/

section Stopping

variable {edit : TextEdit} {padding size oldEnd total right : Span}

theorem TextEdit.resizeBy?_stopping (edit : TextEdit) (padding size : Span) :
    edit.resizeBy? (fun a b => some (a - b)) padding size = edit.resize? padding size := rfl

theorem Split.nextBy?_stopping (split : Split) (edit : TextEdit) (oldEnd total right : Span) :
    split.nextBy? (fun a b => some (a - b)) edit oldEnd total right =
      some (split.next? edit oldEnd total right) := by
  obtain ⟨edge, owed⟩ := split
  cases owed with
  | none =>
    simp only [nextBy?, next?, Option.bind_eq_bind, Option.bind_some]
    split <;> [split <;> rfl; rfl]
  | some owed =>
    simp only [nextBy?, next?]
    split <;> [split <;> rfl; rfl]

namespace Pool

theorem shareOutBy_stopping (pool : Pool) (parent : NodeId) (edit : TextEdit) (oldEnd : Span)
    (split : Split) (index : Nat) (done : List EditTask) (ids : List NodeId) :
    pool.shareOutBy (fun a b => some (a - b)) parent edit oldEnd split index done ids =
      pool.shareOut parent edit oldEnd split index done ids := by
  induction ids generalizing split index done with
  | nil => rfl
  | cons child rest ih =>
    simp only [shareOutBy, shareOut, Split.nextBy?_stopping, ih]
    rfl

theorem changeNodeBy_stopping (edit : TextEdit) (id : NodeId) :
    changeNodeBy (fun a b => some (a - b)) edit id = changeNode edit id := by
  simp only [changeNodeBy, changeNode, shareOutBy_stopping]
  rfl

end Pool

end Stopping

/-! ## The difference that loses no bytes -/

section Lossless

theorem Span.sub?_of_le {a b : Span} (le : b.bytes.toNat ≤ a.bytes.toNat) :
    a.sub? b = some (a - b) :=
  if_pos (UInt32.le_iff_toNat_le.mpr le)

variable {edit : TextEdit} {padding size oldEnd total right : Span} {split : Split}

/-- A node that the edit lies within is resized without a loss. -/
theorem TextEdit.resizeBy?_sub
    (inside : edit.stopByte ≤ padding.bytes.toNat + size.bytes.toNat) :
    edit.resizeBy? Span.sub? padding size = edit.resize? padding size := by
  unfold resizeBy? resize?
  refine Option.bind_congr fun oldEnd ends => Option.bind_congr fun newEnd ends' => ?_
  have stops := bytes_of_oldEnd? ends
  split
  case isTrue early =>
    split
    case isTrue within =>
      rw [Span.sub?_of_le (UInt32.le_iff_toNat_le.mp within)]
      rfl
    case isFalse beyond =>
      have border := UInt32.lt_iff_toNat_lt.mp (UInt32.not_le.mp beyond)
      have lost := Span.toNat_bytes_sub oldEnd padding
      rw [Span.sub?_of_le (Nat.le_of_lt border), Option.bind_eq_bind, Option.bind_some,
        Span.sub?_of_le (by omega)]
      rfl
  case isFalse late =>
    have after := UInt32.le_iff_toNat_le.mp (UInt32.not_lt.mp late)
    split
    case isTrue => rfl
    case isFalse =>
      refine Option.bind_congr fun total sum => ?_
      have totalBytes := Word.add?_eq_some_iff.mp (Span.add?_eq_some_iff.mp sum).1
      rw [Span.sub?_of_le (by omega), Option.bind_eq_bind, Option.bind_some]
      refine Option.bind_congr fun whole sum' => ?_
      -- What is put together again starts with the text before the edit, and so with the padding.
      have wholeBytes := Word.add?_eq_some_iff.mp (Span.add?_eq_some_iff.mp sum').1
      have newBytes := Word.add?_eq_some_iff.mp (Span.add?_eq_some_iff.mp ends').1
      rw [Span.sub?_of_le (by omega)]
      rfl

namespace Split

/-- The inserted text has been taken, or the edit starts no earlier than the edge. -/
def Near (split : Split) (edit : TextEdit) : Prop :=
  split.owed = none → split.edge.bytes ≤ edit.start.bytes

theorem near_start (edit : TextEdit) : start.Near edit := fun _ => UInt32.zero_le

theorem Near.next? {share : Share} {next : Split}
    (shared : split.next? edit oldEnd total right = some (share, next)) : next.Near edit := by
  obtain ⟨edge, owed⟩ := split
  cases owed with
  | none =>
    simp only [Split.next?] at shared
    split at shared
    case isTrue => split at shared <;> cases shared <;> exact nofun
    case isFalse passed =>
      cases shared
      exact fun _ => UInt32.le_of_lt (UInt32.not_le.mp passed)
  | some owed =>
    simp only [Split.next?] at shared
    split at shared
    case isTrue =>
      split at shared
      case isTrue => cases shared; exact nofun
      case isFalse => cases shared
    case isFalse => cases shared; exact nofun

/-- A child gets its share without a loss. -/
theorem nextBy?_sub (near : split.Near edit) :
    split.nextBy? Span.sub? edit oldEnd total right =
      some (split.next? edit oldEnd total right) := by
  obtain ⟨edge, owed⟩ := split
  cases owed with
  | none =>
    simp only [nextBy?, Split.next?]
    split
    case isTrue reached =>
      rw [Span.sub?_of_le (UInt32.le_iff_toNat_le.mp (near rfl)), Option.bind_eq_bind,
        Option.bind_some]
      split
      case isTrue beyond =>
        rw [Span.sub?_of_le (UInt32.le_iff_toNat_le.mp reached),
          Span.sub?_of_le (Nat.le_of_lt (UInt32.lt_iff_toNat_lt.mp beyond))]
        rfl
      case isFalse => rfl
    case isFalse => rfl
  | some owed =>
    simp only [nextBy?, Split.next?]
    split
    case isTrue => split <;> rfl
    case isFalse =>
      rw [Span.sub?_of_le (Span.toNat_bytes_clip .. ▸ Nat.min_le_left ..)]
      rfl

end Split

namespace Pool

theorem shareOutBy_sub (pool : Pool) (parent : NodeId) (near : split.Near edit) (index : Nat)
    (done : List EditTask) (ids : List NodeId) :
    pool.shareOutBy Span.sub? parent edit oldEnd split index done ids =
      pool.shareOut parent edit oldEnd split index done ids := by
  induction ids generalizing split index done with
  | nil => rfl
  | cons child rest ih =>
    rw [shareOutBy, shareOut]
    refine bind_congr fun node => bind_congr fun total => bind_congr fun right => ?_
    rw [Split.nextBy?_sub near]
    cases shared : split.next? edit oldEnd total right with
    | none => rfl
    | some share => exact ih (Split.Near.next? shared) ..

theorem resizedInfoBy_sub {isLeaf : Bool} {info : NodeInfo}
    (inside : edit.stopByte ≤ info.lengths.bytes) :
    resizedInfoBy Span.sub? edit isLeaf info = resizedInfo edit isLeaf info := by
  rw [resizedInfoBy, resizedInfo, TextEdit.resizeBy?_sub inside]

/-- An edit is carried into a node that it lies within without a loss. -/
theorem changeNodeBy_sub {pool : Pool} {id : NodeId} {node : Node} (found : pool.node? id = some node)
    (inside : edit.stopByte ≤ node.lengths.bytes) :
    changeNodeBy Span.sub? edit id pool = changeNode edit id pool := by
  rw [changeNodeBy, changeNode, PoolM.bind_of_ok (PoolM.query_node found),
    PoolM.bind_of_ok (PoolM.query_node found), resizedInfoBy_sub inside]
  simp only [shareOutBy_sub _ _ (Split.near_start edit)]

end Pool

end Lossless

end SyntaxForest
