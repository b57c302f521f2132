import SyntaxForest.Pool.Walk
import SyntaxForest.Symbol.Table
import SyntaxForest.Text.Quoted

/-! # Trees as s-expressions

The visible structure of a tree in brackets: a label, then the children after one space each. A
hidden node is replaced by its children, except that the root is always shown.
-/

namespace SyntaxForest

/-- The label of a node: the character an error leaf stopped at, or else the name of the symbol,
or else its number. -/
def SymbolTable.label (table : SymbolTable) (info : NodeInfo) (isLeaf : Bool) : String :=
  match info.lookahead, info.isError && isLeaf with
  | some c, true => "UNEXPECTED " ++ Text.quote c
  | _, _ => (table.name? info.symbol).getD ("#" ++ toString info.symbol.index)

namespace Pool

/-- What is left to write of an s-expression. -/
inductive SexprTask where
  | root (id : NodeId)
  | below (id : NodeId)
  | close

/-- Opens the bracket of a node that is shown. -/
def writeNode (lead : String) (table : SymbolTable) (node : Node) :
    EStateM Fault String (List SexprTask) := do
  modify (· ++ lead ++ "(" ++ table.label node.toNodeInfo node.isLeaf)
  return node.children.map .below ++ [.close]

/-- Does one task and answers with those that it leads to. -/
def sexprStep (pool : Pool) (table : SymbolTable) :
    SexprTask → EStateM Fault String (List SexprTask)
  | .root id => do writeNode "" table (← orFault (pool.node id))
  | .below id => do
    let node ← orFault (pool.node id)
    if node.visible then writeNode " " table node else return node.children.map .below
  | .close => do
    modify (· ++ ")")
    return []

/-- The s-expression of a tree. -/
def sexpr (pool : Pool) (table : SymbolTable) (id : NodeId) : Except Fault String :=
  pool.walk (pool.sexprStep table) [.root id] ""

end Pool

end SyntaxForest
