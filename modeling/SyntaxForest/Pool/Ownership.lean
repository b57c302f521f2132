import SyntaxForest.Pool.Basic

/-! # Ownership

A caller that holds a unit of a node may give it up, ask for one more, or have the node to itself.
The last unit takes the node with it: its children lose the unit that its child list held, from
the last child on, and whatever that frees goes before the child to its left.

`releaseAll` ends because every unit given up either was pending and is gone, or was an entry of a
child list and is pending now; `childLinks` counts those entries.
-/

namespace SyntaxForest.Pool

/-- A blank node with one owner: in the slot freed last, or in a new one if none is free. -/
def acquire : PoolM NodeId := fun pool =>
  match pool.free with
  | index :: free =>
    match pool.slots[index]? with
    | some slot =>
      if slot.refCount = 0 then
        .ok ⟨index, slot.generation⟩
          (({ pool with free } : Pool).setSlot index { slot with refCount := 1 })
      else .error (.freeSlotInUse index) pool
    | none => .error (.freeSlotInUse index) pool
  | [] =>
    if pool.slots.size < UInt32.size then
      .ok ⟨pool.slots.size, 0⟩ { pool with slots := pool.slots.push ⟨0, 1, .blank⟩ }
    else .error (.poolExhausted pool.slots.size) pool

/-- One owner more. -/
def retain (id : NodeId) : PoolM Unit := fun pool =>
  match pool.slot? id with
  | none => .error (.released id) pool
  | some slot =>
    match slot.refCount.add? 1 with
    | none => .error (.tooManyOwners id) pool
    | some refCount => .ok () (pool.setSlot id.index { slot with refCount })

/-- One owner less. Answers with the children of a node that had no other; they are owed a unit
each. -/
def dropUnit (id : NodeId) : PoolM (List NodeId) := fun pool =>
  match pool.slot? id with
  | none => .error (.released id) pool
  | some slot =>
    if slot.refCount = 1 then
      .ok slot.node.children
        (({ pool with free := id.index :: pool.free } : Pool).setSlot id.index
          ⟨slot.generation + 1, 0, .blank⟩)
    else .ok [] (pool.setSlot id.index { slot with refCount := slot.refCount - 1 })

/-- The number of entries in the child lists of these slots. -/
private def links (slots : List Slot) : Nat :=
  slots.foldr (fun slot count => slot.node.children.length + count) 0

/-- The number of entries in child lists. -/
def childLinks (pool : Pool) : Nat := links pool.slots.toList

private theorem links_set {slots : List Slot} {i : Nat} {old : Slot} (slot : Slot)
    (found : slots[i]? = some old) :
    links (slots.set i slot) + old.node.children.length =
      links slots + slot.node.children.length := by
  induction slots generalizing i with
  | nil => cases found
  | cons head tail ih =>
    cases i with
    | zero =>
      cases found
      simp only [links, List.set_cons_zero, List.foldr_cons]
      omega
    | succ i =>
      have rest := ih (i := i) found
      simp only [links, List.set_cons_succ, List.foldr_cons] at rest ⊢
      omega

theorem childLinks_setSlot {pool : Pool} {index : Nat} {old : Slot} (slot : Slot)
    (found : pool.slots[index]? = some old) :
    (pool.setSlot index slot).childLinks + old.node.children.length =
      pool.childLinks + slot.node.children.length := by
  rw [childLinks, childLinks, setSlot, Array.toList_setIfInBounds]
  exact links_set slot (by rw [Array.getElem?_toList, found])

theorem childLinks_dropUnit {id : NodeId} {pool after : Pool} {owed : List NodeId}
    (dropped : dropUnit id pool = .ok owed after) :
    owed.length + after.childLinks = pool.childLinks := by
  unfold dropUnit at dropped
  split at dropped
  case h_1 => cases dropped
  case h_2 slot found =>
    have here := (slot?_eq_some_iff.mp found).1
    split at dropped
    case isTrue =>
      cases dropped
      let unlisted : Pool := { pool with free := id.index :: pool.free }
      have sums := @childLinks_setSlot unlisted _ _ ⟨slot.generation + 1, 0, .blank⟩ here
      exact (Nat.add_comm ..).trans sums
    case isFalse =>
      cases dropped
      have sums := childLinks_setSlot { slot with refCount := slot.refCount - 1 } here
      exact (Nat.zero_add _).trans (Nat.add_right_cancel sums)

/-- Gives up a unit of each of these nodes and of all that goes with them, the first of them and
what it frees before the next. -/
def releaseAll (pending : List NodeId) (pool : Pool) : EStateM.Result Fault Pool Unit :=
  match pending with
  | [] => .ok () pool
  | id :: rest =>
    match _dropped : dropUnit id pool with
    | .ok owed pool => releaseAll (owed.reverse ++ rest) pool
    | .error fault pool => .error fault pool
termination_by pending.length + pool.childLinks
decreasing_by
  have links := childLinks_dropUnit _dropped
  simp only [List.length_append, List.length_reverse, List.length_cons]
  omega

/-- Gives up a unit of a node. -/
def release (id : NodeId) : PoolM Unit := releaseAll [id]

/-- Puts a node in the place of the one with this handle. -/
def write (id : NodeId) (node : Node) : PoolM Unit := fun pool =>
  match pool.slot? id with
  | none => .error (.released id) pool
  | some slot => .ok () (pool.setSlot id.index { slot with node })

/-- Changes what a node is, and leaves its children. -/
def amend (id : NodeId) (change : NodeInfo → NodeInfo) : PoolM Unit := do
  let node ← PoolM.query (·.node id)
  write id { node with toNodeInfo := change node.toNodeInfo }

/-- Changes what a node is, if it is still there; answers whether it was. -/
def amendIfLive (id : NodeId) (change : NodeInfo → NodeInfo) : PoolM Bool := do
  if (← get).isLive id then
    amend id change
    return true
  else
    return false

/-- A handle whose node has no owner but the caller, for the caller's unit of `id`. A node with
other owners is copied; the copy is one more owner of each child. -/
def makeUnique (id : NodeId) : PoolM NodeId := do
  let node ← PoolM.query (·.node id)
  if (← get).refCount id = 1 then
    return id
  else
    node.children.forM retain
    let copy ← acquire
    write copy node
    release id
    PoolM.record (.copied id copy)
    return copy

end SyntaxForest.Pool
