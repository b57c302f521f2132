/-! # Grammar symbols

A symbol is a number that means something only to a grammar. Two numbers are set apart: the
first stands for the end of the input and the last for text that no rule of the grammar covers.
-/

namespace SyntaxForest

structure Symbol where
  id : UInt16
deriving DecidableEq, Repr

namespace Symbol

/-- The end of the input. -/
def endOfInput : Symbol := ⟨0⟩

/-- Text outside the grammar. -/
def error : Symbol := ⟨65535⟩

instance : Inhabited Symbol := ⟨endOfInput⟩

def isError (symbol : Symbol) : Bool := symbol = error

/-- The place of the symbol in a table that numbers symbols in order. -/
def index (symbol : Symbol) : Nat := symbol.id.toNat

instance : Ord Symbol := ⟨fun a b => compare a.id b.id⟩

theorem index_lt (symbol : Symbol) : symbol.index < 65536 := symbol.id.toNat_lt

end Symbol

/-- How nodes of a symbol appear in the visible tree. -/
structure SymbolTraits where
  visible : Bool
  named : Bool
deriving DecidableEq, Repr

namespace SymbolTraits

/-- Spliced into its parent. -/
def hidden : SymbolTraits := ⟨false, false⟩

/-- Shown, but not a rule of its own: a bracket, an operator. -/
def anonymous : SymbolTraits := ⟨true, false⟩

/-- Shown under the name of a rule. -/
def ofRule : SymbolTraits := ⟨true, true⟩

instance : Inhabited SymbolTraits := ⟨hidden⟩

end SymbolTraits

end SyntaxForest
