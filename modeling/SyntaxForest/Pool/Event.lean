import SyntaxForest.Node.Id

/-! # Events

A pool keeps a journal of what its edits did, and says at its end whether it still held nodes.
-/

namespace SyntaxForest

inductive Event where
  /-- A shared node was copied for the holder of one of its handles. -/
  | copied (id copy : NodeId)
  /-- An edit that changes no bytes was approved. -/
  | skippedEdit (start : Word)
  /-- An edit was approved. -/
  | appliedEdit (start removed added : Word)
  /-- A pool was given up with nodes in it. -/
  | abandoned (live slots : Nat)
deriving DecidableEq, Repr

namespace Event

inductive Level where
  | trace
  | debug
deriving DecidableEq, Repr

def Level.name : Level → String
  | trace => "TRACE"
  | debug => "DEBUG"

/-- What an event says beside its message. -/
inductive Detail where
  | count (value : Nat)
  | node (id : NodeId)
deriving DecidableEq, Repr

def level : Event → Level
  | copied .. | skippedEdit .. | appliedEdit .. => .trace
  | abandoned .. => .debug

def message : Event → String
  | copied .. => "copied shared tree before mutation"
  | skippedEdit .. => "skipping empty edit"
  | appliedEdit .. => "applying edit"
  | abandoned .. => "tree pool dropped with live trees"

def details : Event → List (String × Detail)
  | copied id copy => [("id", .node id), ("copy", .node copy)]
  | skippedEdit start => [("start_byte", .count start.toNat)]
  | appliedEdit start removed added =>
    [("start_byte", .count start.toNat), ("bytes_removed", .count removed.toNat),
      ("bytes_added", .count added.toNat)]
  | abandoned live slots => [("live", .count live), ("slots", .count slots)]

end Event

end SyntaxForest
