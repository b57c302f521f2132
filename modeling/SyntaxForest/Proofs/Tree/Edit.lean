import SyntaxForest.Pool.Edit
import SyntaxForest.Proofs.Tree.Basic

/-! # Edits as a recursion on trees

What an edit makes of a tree that nobody shares: first every child gets its share, from the lengths
before the edit alone, then each child is dealt with by itself, and at last the lengths of the node
are derived from those of its new children. A node that the edit reaches loses its handle, for its
place may be taken by a copy; every other tree is left as it is.
-/

namespace SyntaxForest

/-- What an edit asks of the children after the one that took the inserted text. The removal that
is owed goes to them in order; with none owed, those that start no later than the edit are looked
at. -/
def TextEdit.sharesAfter? (edit : TextEdit) (owed edge : Span) : List Lengths → Option (List Share)
  | [] => some []
  | child :: rest => do
    let total ← child.total?
    let right ← edge.add? total
    if owed.isEmpty then
      if edge.bytes ≤ edit.start.bytes then
        let shares ← edit.sharesAfter? owed right rest
        return .glance (edit.start.bytes - edge.bytes) :: shares
      else
        return []
    else
      let removed := owed.clip total
      let shares ← edit.sharesAfter? (owed - removed) right rest
      return .part (.removal removed) :: shares

/-- What an edit asks of the children of a node, the first of which starts at the edge. The first
that does not end before the edit takes the inserted text. -/
def TextEdit.shares? (edit : TextEdit) (oldEnd edge : Span) : List Lengths → Option (List Share)
  | [] => some []
  | child :: rest => do
    let total ← child.total?
    let right ← edge.add? total
    if right.bytes < edit.start.bytes then
      let shares ← edit.shares? oldEnd right rest
      return .glance (edit.start.bytes - edge.bytes) :: shares
    else if right.bytes < oldEnd.bytes then
      let shares ← edit.sharesAfter? (oldEnd - right) right rest
      return .part ⟨edit.start - edge, right - edit.start, edit.added⟩ :: shares
    else
      let shares ← edit.sharesAfter? .zero right rest
      return .part ⟨edit.start - edge, edit.removed, edit.added⟩ :: shares

/-- What the children of a flagged node are asked: all that start no later than the offset are
looked at. -/
def glances? (offset start : Word) : List Lengths → Option (List Share)
  | [] => some []
  | child :: rest => do
    if offset < start then
      return []
    else
      let bytes ← child.totalBytes?
      let next ← start.add? bytes
      let shares ← glances? offset next rest
      return .glance (offset - start) :: shares

namespace Tree

mutual

/-- The tree after its share of an edit. The lengths that the edit would give an internal node only
have to fit; those of its children count. -/
def carry? (share : Share) : Tree → Option Tree
  | node handle info children =>
    match share with
    | .part edit => do
      let (padding, size) ← edit.resize? info.lengths.padding info.lengths.size
      if children.isEmpty then
        let bytes ← padding.bytes.add? size.bytes
        let lengths := ⟨padding, size, max info.lengths.scanned bytes⟩
        return node none { info with lengths, changed := true } []
      else
        let oldEnd ← edit.oldEnd?
        let shares ← edit.shares? oldEnd .zero (children.map lengths)
        let children ← carryAll? shares children
        let lengths ← Lengths.over? (children.map lengths)
        return node none { info with lengths, changed := true } children
    | .glance offset => do
      if info.lengths.scanned ≤ offset then
        return node handle info children
      else
        let shares ← glances? offset 0 (children.map lengths)
        let children ← carryAll? shares children
        return node none { info with changed := true } children

/-- Each tree after its own share; those past the last share stay. -/
def carryAll? : List Share → List Tree → Option (List Tree)
  | share :: shares, tree :: trees => do
    let tree ← tree.carry? share
    let trees ← carryAll? shares trees
    return tree :: trees
  | _, trees => some trees

end

/-- The tree after an edit in its own coordinates. -/
def edit? (tree : Tree) (edit : TextEdit) : Option Tree := tree.carry? (.part edit)

/-- The answer to an edit of the text: a refusal, or the tree after it. An edit without bytes
leaves the tree as it is. -/
def revise? (tree : Tree) (edit : TextEdit) : Option (Except TextEdit.Refusal Tree) :=
  match edit.ends with
  | .error refusal => some (.error refusal)
  | .ok (oldEnd, newEnd) => do
    let total ← tree.lengths.totalBytes?
    match edit.approve oldEnd newEnd total with
    | .error refusal => return .error refusal
    | .ok () =>
      if edit.isEmpty then
        return .ok tree
      else
        let tree ← tree.edit? edit
        return .ok tree

section Equations

variable {handle : Option NodeId} {info : NodeInfo} {children : List Tree}

theorem carry?_part_leaf (edit : TextEdit) :
    carry? (.part edit) (node handle info []) =
      (Pool.resizedInfo edit true info).map fun info => node none info [] := by
  simp only [carry?, Pool.resizedInfo, Lengths.cover?, Lengths.totalBytes?, List.isEmpty_nil]
  cases edit.resize? info.lengths.padding info.lengths.size with
  | none => rfl
  | some stretches => cases bytes : stretches.1.bytes.add? stretches.2.bytes <;> simp [bytes]

theorem carry?_part_node (edit : TextEdit) (inner : children ≠ []) :
    carry? (.part edit) (node handle info children) =
      (Pool.resizedInfo edit false info).bind fun info => edit.oldEnd?.bind fun oldEnd =>
        (edit.shares? oldEnd .zero (children.map lengths)).bind fun shares =>
          (carryAll? shares children).bind fun children =>
            (Lengths.over? (children.map lengths)).map fun lengths =>
              node none { info with lengths } children := by
  have inhabited : children.isEmpty = false := List.isEmpty_eq_false_iff.mpr inner
  simp only [carry?, Pool.resizedInfo, inhabited, Bool.false_eq_true, if_false, Option.bind_eq_bind,
    Option.pure_def, Option.bind_assoc, Option.bind_some, Option.map_eq_bind, Function.comp_def]

theorem carry?_glance_past {offset : Word} (past : info.lengths.scanned ≤ offset) :
    carry? (.glance offset) (node handle info children) = some (node handle info children) := by
  simp [carry?, past]

theorem carry?_glance_reached {offset : Word} (reached : ¬ info.lengths.scanned ≤ offset) :
    carry? (.glance offset) (node handle info children) =
      (glances? offset 0 (children.map lengths)).bind fun shares =>
        (carryAll? shares children).map fun children =>
          node none { info with changed := true } children := by
  simp only [carry?, if_neg reached, Option.bind_eq_bind, Option.pure_def, Option.map_eq_bind,
    Function.comp_def]

@[simp] theorem carryAll?_nil_left (trees : List Tree) : carryAll? [] trees = some trees := by
  cases trees <;> simp [carryAll?]

@[simp] theorem carryAll?_nil_right (shares : List Share) : carryAll? shares [] = some [] := by
  cases shares <;> simp [carryAll?]

/-- Trees can be dealt with in any order, the last of them first for one. -/
theorem carryAll?_cons (share : Share) (shares : List Share) (tree : Tree) (trees : List Tree) :
    carryAll? (share :: shares) (tree :: trees) =
      (carryAll? shares trees).bind fun trees => (tree.carry? share).map (· :: trees) := by
  simp only [carryAll?, Option.bind_eq_bind, Option.pure_def]
  cases tree.carry? share <;> cases carryAll? shares trees <;> rfl

end Equations

end Tree

end SyntaxForest
