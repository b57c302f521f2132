import SyntaxForest.Span

/-! # Text edits

An edit replaces one stretch of text by another. It is refused where its ends cannot be numbered,
where it reaches past the text, or where the text would grow too long.
-/

namespace SyntaxForest

structure TextEdit where
  /-- The text before the replaced stretch. -/
  start : Span
  removed : Span
  added : Span
deriving DecidableEq, Repr

namespace TextEdit

instance : Inhabited TextEdit := ⟨⟨.zero, .zero, .zero⟩⟩

/-- A removal at the very start that puts nothing in its place. -/
def removal (removed : Span) : TextEdit := ⟨.zero, removed, .zero⟩

def oldEndBytes? (edit : TextEdit) : Option Word := edit.start.bytes.add? edit.removed.bytes
def newEndBytes? (edit : TextEdit) : Option Word := edit.start.bytes.add? edit.added.bytes
def oldEndExtent? (edit : TextEdit) : Option Extent := edit.start.extent.add? edit.removed.extent
def newEndExtent? (edit : TextEdit) : Option Extent := edit.start.extent.add? edit.added.extent

/-- Where the replaced stretch ends. -/
def oldEnd? (edit : TextEdit) : Option Span := edit.start.add? edit.removed

/-- Where its replacement ends. -/
def newEnd? (edit : TextEdit) : Option Span := edit.start.add? edit.added

/-- No bytes are removed and none are added. -/
def isEmpty (edit : TextEdit) : Bool := edit.removed.isEmpty && edit.added.isEmpty

/-- Why an edit is refused. -/
inductive Refusal where
  /-- The replaced stretch reaches past the text. -/
  | outsideText (oldEnd total : Word)
  /-- A stretch of this length at this start, or what follows it, cannot be numbered. -/
  | tooLong (start length : Word)
deriving DecidableEq, Repr

def Refusal.message : Refusal → String
  | outsideText oldEnd total =>
    "edit ends at byte " ++ toString oldEnd.toNat ++ " but the tree only spans "
      ++ toString total.toNat ++ " bytes"
  | tooLong start length =>
    "edit at byte " ++ toString start.toNat ++ " with length " ++ toString length.toNat
      ++ " overflows the offset range"

/-- The bytes at which the replaced stretch and its replacement end. -/
def ends (edit : TextEdit) : Except Refusal (Word × Word) :=
  match edit.oldEndBytes? with
  | none => .error (.tooLong edit.start.bytes edit.removed.bytes)
  | some oldEnd =>
    match edit.newEndBytes? with
    | none => .error (.tooLong edit.start.bytes edit.added.bytes)
    | some newEnd => .ok (oldEnd, newEnd)

/-- Decides on an edit, with these ends, of a text of `total` bytes. -/
def approve (edit : TextEdit) (oldEnd newEnd total : Word) : Except Refusal Unit :=
  if total < oldEnd then .error (.outsideText oldEnd total)
  else
    match (total - oldEnd).add? newEnd with
    | none => .error (.tooLong edit.start.bytes edit.added.bytes)
    | some _ => .ok ()

end TextEdit

end SyntaxForest
