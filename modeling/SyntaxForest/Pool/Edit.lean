import SyntaxForest.Agenda
import SyntaxForest.Edit.Resize
import SyntaxForest.Edit.Split
import SyntaxForest.Pool.Build

/-! # Edits of a tree

An edit of the text is carried into the tree without changing its shape. Each node that the edit
falls into gets new lengths and is flagged as changed; a node before it is flagged if its scanner
read up to it. Nodes with other owners are copied on the way, so that trees sharing them stay as
they are.

The children of a node are dealt with from the last to the first, and the lengths of the node are
derived again after that.

Child lists that form a cycle lead an edit through the same node over and over, and it may come to
an end all the same. How deep the tasks may lead is therefore left open in `applyEditWithin`; `edit`
lets them lead as deep as a pool without cycles can take them.
-/

namespace SyntaxForest.Pool

/-- An entry of a child list. -/
structure Link where
  parent : NodeId
  index : Nat
deriving DecidableEq, Repr

/-- Work that is left of an edit. -/
inductive EditTask where
  /-- Carry a part of the edit into a child. -/
  | change (link : Link) (child : NodeId) (edit : TextEdit)
  /-- Flag a child whose scanner read the byte at this offset. -/
  | glance (link : Link) (child : NodeId) (offset : Word)
  /-- Derive the lengths of a node whose children are done. -/
  | summarize (id : NodeId)
deriving DecidableEq, Repr

/-- The task that a child's share sets. -/
def taskOf (link : Link) (child : NodeId) : Share → EditTask
  | .part edit => .change link child edit
  | .glance offset => .glance link child offset

/-- Writes a handle into a child list. -/
def attach (link : Link) (child : NodeId) : PoolM Unit := do
  let parent ← PoolM.query (·.node link.parent)
  write link.parent { parent with children := parent.children.set link.index child }

/-- A node after the edit has changed its own text. An internal node keeps how far it was read
until its children are done. -/
def resizedInfo (edit : TextEdit) (isLeaf : Bool) (info : NodeInfo) : Option NodeInfo := do
  let (padding, size) ← edit.resize? info.lengths.padding info.lengths.size
  let lengths : Lengths := { info.lengths with padding, size }
  let lengths ← if isLeaf then lengths.cover? else some lengths
  return { info with lengths, changed := true }

/-- The tasks for the children of an edited node, from the index on, put before those in `done`;
the last child comes first. -/
def shareOut (pool : Pool) (parent : NodeId) (edit : TextEdit) (oldEnd : Span) (split : Split)
    (index : Nat) (done : List EditTask) : List NodeId → Except Fault (List EditTask)
  | [] => .ok done
  | child :: rest => do
    let node ← pool.node child
    let total ← checked node.lengths.total?
    let right ← checked (split.edge.add? total)
    match split.next? edit oldEnd total right with
    | none => return done
    | some (share, split) =>
      pool.shareOut parent edit oldEnd split (index + 1)
        (taskOf ⟨parent, index⟩ child share :: done) rest

/-- Carries an edit into a node that has no owner but its holder. -/
def changeNode (edit : TextEdit) (id : NodeId) : PoolM (List EditTask) := do
  let node ← PoolM.query (·.node id)
  let info ← PoolM.sum (resizedInfo edit node.isLeaf node.toNodeInfo)
  write id ⟨info, node.children⟩
  if node.isLeaf then
    return []
  else
    let oldEnd ← PoolM.sum edit.oldEnd?
    PoolM.query (·.shareOut id edit oldEnd .start 0 [.summarize id] node.children)

/-- The tasks for the children of a flagged node that start no later than the offset. -/
def glanceBack (pool : Pool) (parent : NodeId) (offset start : Word) (index : Nat)
    (done : List EditTask) : List NodeId → Except Fault (List EditTask)
  | [] => .ok done
  | child :: rest => do
    if offset < start then
      return done
    else
      let node ← pool.node child
      let bytes ← checked node.lengths.totalBytes?
      let next ← checked (start.add? bytes)
      pool.glanceBack parent offset next (index + 1)
        (.glance ⟨parent, index⟩ child (offset - start) :: done) rest

/-- Flags a node that has no owner but its holder. -/
def flagNode (offset : Word) (id : NodeId) : PoolM (List EditTask) := do
  amend id fun info => { info with changed := true }
  PoolM.query fun pool => do
    let node ← pool.node id
    pool.glanceBack id offset 0 0 [] node.children

/-- Does one task and answers with those that it leads to. -/
def editStep : EditTask → PoolM (List EditTask)
  | .change link child edit => do
    let id ← makeUnique child
    attach link id
    changeNode edit id
  | .glance link child offset => do
    let node ← PoolM.query (·.node child)
    if node.lengths.scanned ≤ offset then
      return []
    else
      let id ← makeUnique child
      attach link id
      flagNode offset id
  | .summarize id => do
    summarize id
    return []

/-- Carries an edit that has been approved into a tree, for the caller's unit of its root. The tasks
may lead as deep as is said of the pool that they meet. -/
def applyEditWithin (depth : Pool → Nat) (root : NodeId) (edit : TextEdit) : PoolM NodeId := do
  let root ← makeUnique root
  let tasks ← changeNode edit root
  let pool ← get
  Agenda.run editStep .endless (tasks.map (depth pool, ·))
  return root

/-- Carries an edit that has been approved into a tree. A path without cycles goes through no more
nodes than the pool has slots. -/
def applyEdit (root : NodeId) (edit : TextEdit) : PoolM NodeId :=
  applyEditWithin (·.slots.size) root edit

/-- The edited tree, for the caller's unit of its root, with this way to apply an edit that has been
approved. A refused edit changes nothing, and one without bytes gives the tree itself. -/
def editBy (apply : NodeId → TextEdit → PoolM NodeId) (root : NodeId) (edit : TextEdit) :
    PoolM (Except TextEdit.Refusal NodeId) := do
  match edit.ends with
  | .error refusal => return .error refusal
  | .ok (oldEnd, newEnd) =>
    let node ← PoolM.query (·.node root)
    let total ← PoolM.sum node.lengths.totalBytes?
    match edit.approve oldEnd newEnd total with
    | .error refusal => return .error refusal
    | .ok () =>
      if edit.isEmpty then
        PoolM.record (.skippedEdit edit.start.bytes)
        return .ok root
      else
        PoolM.record (.appliedEdit edit.start.bytes edit.removed.bytes edit.added.bytes)
        return .ok (← apply root edit)

/-- The edited tree, or the reason why the edit is refused. -/
def edit (root : NodeId) (edit : TextEdit) : PoolM (Except TextEdit.Refusal NodeId) :=
  editBy applyEdit root edit

end SyntaxForest.Pool
