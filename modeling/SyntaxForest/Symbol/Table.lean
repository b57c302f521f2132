import SyntaxForest.Fault
import SyntaxForest.Symbol.Basic

/-! # Symbol tables

A table gives names and traits to the symbols of one grammar, numbered in the order in which they
are added. The error symbol is known to every table and never in one; any other symbol that was
not added is hidden and has no name.
-/

namespace SyntaxForest

structure SymbolTable where
  entries : Array (String × SymbolTraits)
  /-- The number of the error symbol is never given away. -/
  size_le : entries.size ≤ Symbol.error.index

namespace SymbolTable

def empty : SymbolTable := ⟨#[], Nat.zero_le _⟩

instance : Inhabited SymbolTable := ⟨empty⟩

/-- The number of symbols added so far, which is the number of the next. -/
def size (table : SymbolTable) : Nat := table.entries.size

/-- Numbers a further symbol. -/
@[inline]
def add (table : SymbolTable) (name : String) (traits : SymbolTraits) :
    Except Fault (Symbol × SymbolTable) :=
  if room : table.size < Symbol.error.index then
    .ok (⟨table.size.toUInt16⟩,
      ⟨table.entries.push (name, traits), by rw [Array.size_push]; exact room⟩)
  else
    .error .symbolTableFull

def traits (table : SymbolTable) (symbol : Symbol) : SymbolTraits :=
  if symbol.isError then .ofRule
  else (table.entries[symbol.index]?.map (·.2)).getD .hidden

def name? (table : SymbolTable) (symbol : Symbol) : Option String :=
  if symbol.isError then some "ERROR"
  else table.entries[symbol.index]?.map (·.1)

theorem size_add {table grown : SymbolTable} {name : String} {traits : SymbolTraits}
    {symbol : Symbol} (added : table.add name traits = .ok (symbol, grown)) :
    symbol.index = table.size ∧ grown.size = table.size + 1 := by
  unfold add at added
  split at added
  case isTrue room =>
    cases added
    have small : table.size < 65536 := Nat.lt_trans room (Symbol.index_lt _)
    exact ⟨Nat.mod_eq_of_lt small, Array.size_push _⟩
  case isFalse => cases added

theorem add_eq_error_iff {table : SymbolTable} {name : String} {traits : SymbolTraits}
    {fault : Fault} :
    table.add name traits = .error fault ↔
      table.size = Symbol.error.index ∧ fault = .symbolTableFull := by
  have bound : table.size ≤ Symbol.error.index := table.size_le
  unfold add
  split <;> grind

end SymbolTable

end SyntaxForest
