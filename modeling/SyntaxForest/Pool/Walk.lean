import SyntaxForest.Agenda
import SyntaxForest.Pool.Basic

/-! # Walks

Questions about the tree below a node, answered depth first. A walk that meets a handle whose node
has gone stops with the fault; an answer found before that stands.

No path in a pool without cycles has more nodes than the pool has slots, which is the depth that
every walk is given.
-/

namespace SyntaxForest.Pool

/-- The depth that a walk is given. -/
def walkDepth (pool : Pool) : Nat := pool.slots.size

/-- Does the tasks of a walk and all that they lead to. -/
def walk {α σ : Type} (pool : Pool) (step : α → EStateM Fault σ (List α)) (tasks : List α)
    (state : σ) : Except Fault σ :=
  match Agenda.run step .endless (tasks.map (pool.walkDepth, ·)) state with
  | .ok _ state => .ok state
  | .error fault _ => .error fault

/-- Does the tasks of a walk and all that they lead to, until one gives an answer. -/
def search {α β : Type} (pool : Pool) (step : α → Except Fault (β ⊕ List α)) (tasks : List α) :
    Except Fault (Option β) :=
  Agenda.search step .endless (tasks.map (pool.walkDepth, ·))

theorem walk_eq_forM {α σ : Type} (pool : Pool) (step : α → EStateM Fault σ (List α))
    (tasks : List α) (state : σ) : pool.walk step tasks state =
      match tasks.forM (Agenda.descend step .endless pool.walkDepth) state with
      | .ok _ state => .ok state
      | .error fault _ => .error fault := by
  rw [walk, Agenda.run_eq_forM]
  rfl

theorem search_eq_findSomeM? {α β : Type} (pool : Pool) (step : α → Except Fault (β ⊕ List α))
    (tasks : List α) :
    pool.search step tasks = tasks.findSomeM? (Agenda.seek step .endless pool.walkDepth) :=
  Agenda.search_eq_findSomeM? ..

/-- One node as a walk finds it. -/
structure Visit where
  /-- How many steps below the start of the walk. -/
  level : Nat
  id : NodeId
  refCount : Word
  node : Node
deriving DecidableEq, Repr

/-- What there is to see at a handle. -/
def visit (pool : Pool) (level : Nat) (id : NodeId) : Except Fault Visit := do
  return ⟨level, id, pool.refCount id, ← pool.node id⟩

/-- Lists a node and goes on to its children. -/
def listNode (pool : Pool) (place : Nat × NodeId) :
    EStateM Fault (Array Visit) (List (Nat × NodeId)) := do
  let visit ← orFault (pool.visit place.1 place.2)
  modify (·.push visit)
  return visit.node.children.map (place.1 + 1, ·)

/-- A node and all below it, each before its children; a node in several places is listed in each
of them. -/
def preorder (pool : Pool) (id : NodeId) : Except Fault (Array Visit) :=
  pool.walk pool.listNode [(0, id)] #[]

/-- The node itself if it is a leaf, and otherwise its first child. -/
def leafOrFirstChild (pool : Pool) (id : NodeId) : Except Fault (NodeId ⊕ List NodeId) := do
  match (← pool.node id).children with
  | [] => return .inl id
  | first :: _ => return .inr [first]

/-- The leaf reached through first children. -/
def firstLeaf (pool : Pool) (id : NodeId) : Except Fault NodeId := do
  let found ← pool.search pool.leafOrFirstChild [id]
  return found.getD id

/-- The node itself if an outside scanner produced it, and otherwise its children from the
last. -/
def externalOrChildren (pool : Pool) (id : NodeId) : Except Fault (NodeId ⊕ List NodeId) := do
  let node ← pool.node id
  return if node.external then .inl id else .inr node.children.reverse

/-- The last node that an outside scanner produced: a parent counts as after its children. -/
def lastExternal? (pool : Pool) (id : NodeId) : Except Fault (Option NodeId) :=
  pool.search pool.externalOrChildren [id]

/-- A difference between two nodes, or the pairs of children in which one may lie, from the last.
A node is not compared with itself. -/
def differenceOrPairs (pool : Pool) (pair : NodeId × NodeId) :
    Except Fault (Unit ⊕ List (NodeId × NodeId)) := do
  if pair.1 = pair.2 then
    return .inr []
  else
    let left ← pool.node pair.1
    let right ← pool.node pair.2
    if left.alike right.toNodeInfo && left.children.length = right.children.length then
      return .inr (left.children.zip right.children).reverse
    else
      return .inl ()

/-- Whether two trees are the same but for rows and columns, flags and the sharing of nodes. -/
def sameTree (pool : Pool) (left right : NodeId) : Except Fault Bool := do
  let difference ← pool.search pool.differenceOrPairs [(left, right)]
  return difference.isNone

end SyntaxForest.Pool
