import SyntaxForest.Word

/-! # Handles

A handle names a slot of a pool and the generation of the node in it. A slot starts a new
generation whenever its node goes, so that a handle to the old node no longer matches.
-/

namespace SyntaxForest

structure NodeId where
  index : Nat
  generation : Word
deriving DecidableEq, Repr

namespace NodeId

instance : Inhabited NodeId := ⟨⟨0, 0⟩⟩

/-- The handle as it is written in messages and events. -/
def describe (id : NodeId) : String :=
  "TreeId \x7b index: " ++ toString id.index ++ ", generation: " ++ toString id.generation.toNat
    ++ " \x7d"

end NodeId

end SyntaxForest
