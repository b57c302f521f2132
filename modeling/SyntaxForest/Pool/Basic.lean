import SyntaxForest.Fault
import SyntaxForest.Node.Basic
import SyntaxForest.Pool.Event

/-! # Pools

A pool holds the nodes of any number of trees, each in a slot with the number of its owners:
the callers that hold a unit of it and the child lists it stands in. A slot without owners is on
the free list, holds a blank node, and has moved on to its next generation, so that `slot?` finds
nothing for a handle to the node that was there.

Operations on a pool are actions of `PoolM`. A fault leaves the pool as far as the operation got.

Storage that is emptied and used again, such as that of child lists and of the work of a release,
makes no difference to what a pool does and has no part in this.
-/

namespace SyntaxForest

structure Slot where
  generation : Word
  /-- The number of owners. -/
  refCount : Word
  node : Node
deriving DecidableEq, Repr

instance : Inhabited Slot := ⟨⟨0, 0, .blank⟩⟩

/-- How much room a caller asks a pool to keep ready; nothing else depends on it. -/
structure Sizing where
  /-- Slots to make room for at the start. -/
  slots : Nat
  /-- Child lists to keep for reuse. -/
  childLists : Nat
deriving DecidableEq, Repr

def Sizing.standard : Sizing := ⟨1024, 128⟩

instance : Inhabited Sizing := ⟨.standard⟩

structure Pool where
  slots : Array Slot
  /-- The slots without owners, the one to be used next first. -/
  free : List Nat
  /-- What has happened, oldest first, since the journal was last taken. -/
  journal : Array Event
  sizing : Sizing
deriving DecidableEq, Repr

namespace Pool

def empty (sizing : Sizing) : Pool := ⟨#[], [], #[], sizing⟩

instance : Inhabited Pool := ⟨empty .standard⟩

/-- The slot of a handle whose node has owners. -/
def slot? (pool : Pool) (id : NodeId) : Option Slot :=
  pool.slots[id.index]?.filter fun slot =>
    slot.generation = id.generation && decide (0 < slot.refCount)

def node? (pool : Pool) (id : NodeId) : Option Node := (pool.slot? id).map (·.node)

/-- The node of a handle, or the fault that it has gone. -/
def node (pool : Pool) (id : NodeId) : Except Fault Node :=
  match pool.node? id with
  | some node => .ok node
  | none => .error (.released id)

/-- The number of owners, zero for a node that has gone. -/
def refCount (pool : Pool) (id : NodeId) : Word := ((pool.slot? id).map (·.refCount)).getD 0

def isLive (pool : Pool) (id : NodeId) : Bool := (pool.slot? id).isSome

/-- The number of nodes with owners. -/
def liveCount (pool : Pool) : Nat := pool.slots.size - pool.free.length

/-- A pool as it is written in messages. -/
def describe (pool : Pool) : String :=
  "TreePool \x7b slots: " ++ toString pool.slots.size ++ ", live: " ++ toString pool.liveCount
    ++ ", .. \x7d"

/-- The events since the journal was last taken, and the pool with an empty journal. -/
def takeJournal (pool : Pool) : Array Event × Pool :=
  (pool.journal, { pool with journal := #[] })

/-- What is to be said of a pool that is given up. -/
def farewell? (pool : Pool) : Option Event :=
  if 0 < pool.liveCount then some (.abandoned pool.liveCount pool.slots.size) else none

/-- Puts a slot in the place of the one with this index. -/
def setSlot (pool : Pool) (index : Nat) (slot : Slot) : Pool :=
  { pool with slots := pool.slots.setIfInBounds index slot }

theorem node_eq_ok_iff {pool : Pool} {id : NodeId} {node : Node} :
    pool.node id = .ok node ↔ pool.node? id = some node := by
  unfold Pool.node
  split <;> simp_all

theorem slot?_eq_some_iff {pool : Pool} {id : NodeId} {slot : Slot} :
    pool.slot? id = some slot ↔
      pool.slots[id.index]? = some slot ∧ slot.generation = id.generation ∧ 0 < slot.refCount := by
  simp [slot?, Option.filter_eq_some_iff]

theorem slot?_setSlot {pool : Pool} {id : NodeId} {slot : Slot}
    (inside : id.index < pool.slots.size) (matching : slot.generation = id.generation)
    (owned : 0 < slot.refCount) : (pool.setSlot id.index slot).slot? id = some slot := by
  rw [slot?_eq_some_iff]
  exact ⟨by simp [setSlot, inside], matching, owned⟩

theorem slot?_setSlot_of_ne {pool : Pool} {id : NodeId} {index : Nat} (slot : Slot)
    (other : index ≠ id.index) : (pool.setSlot index slot).slot? id = pool.slot? id := by
  simp [slot?, setSlot, Array.getElem?_setIfInBounds_ne other]

end Pool

/-- An action on a pool. -/
abbrev PoolM := EStateM Fault Pool

namespace PoolM

/-- What can be read off the pool. -/
def query {α : Type} (read : Pool → Except Fault α) : PoolM α := fun pool =>
  match read pool with
  | .ok value => .ok value pool
  | .error fault => .error fault pool

/-- The value of a sum, or the fault that it does not fit. -/
def sum {α : Type} (value : Option α) : PoolM α := orFault (checked value)

/-- Adds an event to the journal. -/
def record (event : Event) : PoolM Unit :=
  modify fun pool => { pool with journal := pool.journal.push event }

end PoolM

end SyntaxForest
