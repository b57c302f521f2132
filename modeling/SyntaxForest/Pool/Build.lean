import SyntaxForest.Pool.Ownership
import SyntaxForest.Symbol.Table

/-! # Building nodes

Leaves are built from their lengths and internal nodes from their children, whose units the new
node takes over. A fault in the arithmetic of a node that has its slot already leaves the slot in
use.
-/

namespace SyntaxForest.Pool

/-- A token. -/
def makeLeaf (table : SymbolTable) (symbol : Symbol) (padding size : Span) : PoolM NodeId := do
  let id ← acquire
  let lengths ← PoolM.sum (Lengths.token? padding size)
  write id ⟨{ NodeInfo.ofSymbol symbol (table.traits symbol) with lengths }, []⟩
  return id

/-- A leaf over text that the grammar has no rule for; both of its edges are fragile. -/
def makeError (table : SymbolTable) (padding size : Span) (lookahead : Option Char) :
    PoolM NodeId := do
  let id ← makeLeaf table .error padding size
  amend id fun info => { info with fragileLeft := true, fragileRight := true, lookahead }
  return id

/-- Counts the next child of a list. -/
def countShown (pool : Pool) (counts : ShownCounts) (child : NodeId) : Except Fault ShownCounts := do
  let node ← pool.node child
  checked (counts.count? node.toNodeInfo)

/-- What the children of a node show. -/
def shownCounts (pool : Pool) (children : List NodeId) : Except Fault ShownCounts :=
  children.foldlM pool.countShown ⟨0, 0⟩

/-- Adds the next child of a list to what has been gathered of those before it. -/
def addLengths (pool : Pool) (summary : Summary) (child : NodeId) : Except Fault Summary := do
  let node ← pool.node child
  checked (summary.extend? node.lengths)

/-- The lengths of a node over these children. -/
def lengthsOver (pool : Pool) : List NodeId → Except Fault Lengths
  | [] => .ok .zero
  | first :: rest => do
    let node ← pool.node first
    let summary ← checked (Summary.ofFirst? node.lengths)
    let summary ← rest.foldlM pool.addLengths summary
    return summary.finish

/-- Derives the lengths of a node again from those of its children. -/
def summarize (id : NodeId) : PoolM Unit := do
  let node ← PoolM.query (·.node id)
  let lengths ← PoolM.query (·.lengthsOver node.children)
  write id { node with lengths }

/-- An internal node, for the caller's units of its children. -/
def makeNode (table : SymbolTable) (symbol : Symbol) (children : List NodeId) : PoolM NodeId := do
  if children.isEmpty then throw .noChildren
  let shown ← PoolM.query (·.shownCounts children)
  let below ← PoolM.query fun pool => children.mapM pool.node
  let infos := below.map (·.toNodeInfo)
  let id ← acquire
  write id
    ⟨{ NodeInfo.ofSymbol symbol (table.traits symbol) with
        fragileLeft := fragileAtLeft infos, fragileRight := fragileAtRight infos, shown },
      children⟩
  summarize id
  return id

end SyntaxForest.Pool
