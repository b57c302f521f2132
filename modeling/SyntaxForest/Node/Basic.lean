import SyntaxForest.Lengths
import SyntaxForest.Node.Id
import SyntaxForest.Symbol.Basic

/-! # Nodes

A node is what its symbol, its text and its scanner say of it, and the handles of its children in
order. Everything but the children may be changed by the holder of a handle.
-/

namespace SyntaxForest

/-- The number of visible descendants reached through hidden ones only, and how many of those
are named. -/
structure ShownCounts where
  visible : Word
  named : Word
deriving DecidableEq, Repr

instance : Inhabited ShownCounts := ⟨⟨0, 0⟩⟩

structure NodeInfo where
  symbol : Symbol
  lengths : Lengths
  visible : Bool
  named : Bool
  /-- The node may stand anywhere, as a comment does. -/
  extra : Bool
  /-- The node may read differently after other text than it did. -/
  fragileLeft : Bool
  /-- The node may read differently before other text than it did. -/
  fragileRight : Bool
  /-- An edit has reached the node. -/
  changed : Bool
  /-- The node was produced by a scanner outside the grammar. -/
  external : Bool
  /-- The character at which an error leaf stopped. -/
  lookahead : Option Char
  shown : ShownCounts
deriving DecidableEq, Repr

namespace NodeInfo

def blank : NodeInfo where
  symbol := .endOfInput
  lengths := .zero
  visible := false
  named := false
  extra := false
  fragileLeft := false
  fragileRight := false
  changed := false
  external := false
  lookahead := none
  shown := ⟨0, 0⟩

instance : Inhabited NodeInfo := ⟨blank⟩

def isError (info : NodeInfo) : Bool := info.symbol.isError

/-- Two nodes agree in what makes them the same tree but their children: symbol, visibility and
bytes. Rows and columns do not count. -/
def alike (left right : NodeInfo) : Bool :=
  left.symbol = right.symbol && left.visible == right.visible
    && left.lengths.padding.bytes = right.lengths.padding.bytes
    && left.lengths.size.bytes = right.lengths.size.bytes

/-- A node of a symbol with no text yet. -/
def ofSymbol (symbol : Symbol) (traits : SymbolTraits) : NodeInfo :=
  { blank with symbol, visible := traits.visible, named := traits.named }

end NodeInfo

structure Node extends NodeInfo where
  children : List NodeId
deriving DecidableEq, Repr

namespace Node

/-- What a slot holds while no node is in it. -/
def blank : Node := ⟨.blank, []⟩

instance : Inhabited Node := ⟨blank⟩

def isLeaf (node : Node) : Bool := node.children.isEmpty

end Node

/-- Counts one more child: a visible one itself, a hidden one for what it shows. -/
def ShownCounts.count? (counts : ShownCounts) (child : NodeInfo) : Option ShownCounts := do
  if child.visible then
    let visible ← counts.visible.add? 1
    let named ← counts.named.add? (if child.named then 1 else 0)
    return ⟨visible, named⟩
  else
    let visible ← counts.visible.add? child.shown.visible
    let named ← counts.named.add? child.shown.named
    return ⟨visible, named⟩

/-- Fragility passes to a parent through the extras at its left edge. -/
def fragileAtLeft (children : List NodeInfo) : Bool :=
  (children.takeWhile (·.extra)).any (·.fragileLeft)

/-- Fragility passes to a parent through the extras at its right edge. -/
def fragileAtRight (children : List NodeInfo) : Bool :=
  (children.reverse.takeWhile (·.extra)).any (·.fragileRight)

end SyntaxForest
