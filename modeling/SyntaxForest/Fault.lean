import SyntaxForest.Node.Id

/-! # Faults

A fault stops an operation half-way. Some are a caller's mistake, such as the use of a handle
whose node has gone; the others are quantities that no longer fit. An edit that is refused before
anything has been done is not a fault.
-/

namespace SyntaxForest

inductive Fault where
  /-- A sum of bytes, rows, columns or child counts does not fit a word. -/
  | overflow
  /-- The node of this handle has been released. -/
  | released (id : NodeId)
  /-- The node already has as many owners as can be counted. -/
  | tooManyOwners (id : NodeId)
  /-- The pool has as many slots as can be numbered. -/
  | poolExhausted (slots : Nat)
  /-- A slot on the free list is in use. -/
  | freeSlotInUse (index : Nat)
  /-- An internal node was to be built over no children. -/
  | noChildren
  /-- The symbol table has no number left to give. -/
  | symbolTableFull
  /-- A walk went deeper than it may. The program has no such stop: where nodes form a cycle, its
  walks go on for as long as they lead to anything. No walk ends so in a pool without cycles. -/
  | endless
deriving DecidableEq, Repr

namespace Fault

def message : Fault → String
  | overflow => "attempt to add with overflow"
  | released id => "use of released tree " ++ id.describe
  | tooManyOwners id => "reference count overflow for " ++ id.describe
  | poolExhausted slots => "tree pool exhausted at " ++ toString slots ++ " slots"
  | freeSlotInUse index => "free slot " ++ toString index ++ " is still referenced"
  | noChildren => "internal nodes need at least one child"
  | symbolTableFull => "language symbol table is full"
  | endless => "the nodes of the pool form a cycle"

end Fault

/-- The value of a sum, or the fault that it does not fit. -/
def checked {α : Type} : Option α → Except Fault α
  | some value => .ok value
  | none => .error .overflow

/-- A value, or the fault that stands in its place, in the middle of an action. -/
def orFault {σ α : Type} : Except Fault α → EStateM Fault σ α
  | .ok value => pure value
  | .error fault => throw fault

end SyntaxForest
