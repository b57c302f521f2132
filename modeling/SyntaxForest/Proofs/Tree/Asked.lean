import SyntaxForest.Proofs.Tree.Place

/-! # What an edit asks of a child

A node hands its share of an edit out to its children in one pass, with a running edge and a running
rest. Seen from a single child that comes down to three cases, told by where the child starts and
ends: it carries the part of the edit that falls on it, it is looked at, or it is left alone. Bytes
alone decide, and rows and columns have no say.
-/

namespace SyntaxForest

namespace TextEdit

/-- The byte at which the replaced stretch starts. -/
def startByte (edit : TextEdit) : Nat := edit.start.bytes.toNat

/-- The byte at which the replaced stretch ends. -/
def stopByte (edit : TextEdit) : Nat := edit.start.bytes.toNat + edit.removed.bytes.toNat

theorem startByte_le_stopByte (edit : TextEdit) : edit.startByte ≤ edit.stopByte :=
  Nat.le_add_right ..

theorem bytes_of_oldEnd? {edit : TextEdit} {oldEnd : Span} (fits : edit.oldEnd? = some oldEnd) :
    oldEnd.bytes.toNat = edit.stopByte :=
  (Word.add?_eq_some_iff.mp (Span.add?_eq_some_iff.mp fits).1).symm

end TextEdit

namespace Share

/-- The byte of a child at which the edit starts for it. -/
def startByte : Share → Nat
  | .part edit => edit.startByte
  | .glance offset => offset.toNat

end Share

open TextEdit

/-- What an edit asks of a child with this start and length; `first` tells whether no other child
stands before it. A part is the edit clipped to the child, and takes the inserted text where no
child before it has reached the edit. -/
inductive Asked (edit : TextEdit) (first : Prop) (start bytes : Nat) : Option Share → Prop where
  | part (part : TextEdit) (reached : edit.startByte ≤ start + bytes)
      (inside : start < edit.stopByte ∨ first)
      (starts : part.startByte = edit.startByte - start)
      (stops : part.stopByte = min edit.stopByte (start + bytes) - start)
      (takes : start < edit.startByte ∨ first → part.added = edit.added)
      (bare : ¬ (start < edit.startByte ∨ first) → part.added = .zero) :
      Asked edit first start bytes (some (.part part))
  | glance (offset : Word) (starts : offset.toNat = edit.startByte - start)
      (near : start ≤ edit.startByte)
      (apart : start + bytes < edit.startByte ∨ edit.stopByte ≤ start ∧ ¬ first) :
      Asked edit first start bytes (some (.glance offset))
  | none (beyond : edit.startByte < start) (apart : edit.stopByte ≤ start) :
      Asked edit first start bytes none

namespace Asked

variable {edit : TextEdit} {first : Prop} {start bytes : Nat} {asked : Option Share}

/-- A child that starts no later than the edit is asked something, in its own coordinates. -/
theorem exists_of_le (asks : Asked edit first start bytes asked) (near : start ≤ edit.startByte) :
    ∃ share, asked = some share ∧ share.startByte = edit.startByte - start := by
  cases asks with
  | part part _ _ starts => exact ⟨_, rfl, starts⟩
  | glance offset starts => exact ⟨_, rfl, starts⟩
  | none beyond => omega

/-- Where a child has ended before the edit, the next one is as good as the first. -/
theorem of_passed {before : Prop} (asks : Asked edit before start bytes asked)
    (passed : start < edit.startByte) : Asked edit first start bytes asked := by
  have ordered := edit.startByte_le_stopByte
  cases asks with
  | part part reached _ starts stops takes =>
    exact .part part reached (.inl (by omega)) starts stops (fun _ => takes (.inl passed))
      (fun late => (late (.inl passed)).elim)
  | glance offset starts near apart => exact .glance offset starts near (.inl (by omega))
  | none beyond => omega

theorem congr {other : Prop} (asks : Asked edit other start bytes asked) (same : other ↔ first) :
    Asked edit first start bytes asked :=
  propext same ▸ asks

end Asked

/-- What a look at a tree asks of a child with this start: the same look, if the child starts no
later than the offset. -/
inductive Glanced (offset start : Nat) : Option Share → Prop where
  | glance (within : Word) (starts : within.toNat = offset - start) (near : start ≤ offset) :
      Glanced offset start (some (.glance within))
  | none (beyond : offset < start) : Glanced offset start none

theorem Glanced.exists_of_le {offset start : Nat} {asked : Option Share}
    (glanced : Glanced offset start asked) (near : start ≤ offset) :
    ∃ share, asked = some share ∧ share.startByte = offset - start := by
  cases glanced with
  | glance within starts => exact ⟨_, rfl, starts⟩
  | none beyond => omega

namespace TextEdit

variable {edit : TextEdit} {oldEnd owed edge total : Span} {children : List Lengths}
  {shares : List Share} {index : Nat} {child : Lengths}

theorem bytes_of_right {right : Span} (fits : child.total? = some total)
    (sum : edge.add? total = some right) :
    right.bytes.toNat = edge.bytes.toNat + child.bytes := by
  rw [← Lengths.bytes_of_total? fits]
  exact (Word.add?_eq_some_iff.mp (Span.add?_eq_some_iff.mp sum).1).symm

/-- What the first of the children after the inserted text is asked, and the rest after it. -/
inductive DrawnAfter (edit : TextEdit) (owed edge : Span) (child : Lengths) (rest : List Lengths) :
    List Share → Prop where
  | part (total right : Span) (shares : List Share) (covers : total.bytes.toNat = child.bytes)
      (ends : right.bytes.toNat = edge.bytes.toNat + child.bytes) (owing : owed.bytes.toNat ≠ 0)
      (later : edit.sharesAfter? (owed - owed.clip total) right rest = some shares) :
      DrawnAfter edit owed edge child rest (.part (.removal (owed.clip total)) :: shares)
  | glance (right : Span) (shares : List Share)
      (ends : right.bytes.toNat = edge.bytes.toNat + child.bytes) (paid : owed.bytes.toNat = 0)
      (near : edge.bytes ≤ edit.start.bytes)
      (later : edit.sharesAfter? owed right rest = some shares) :
      DrawnAfter edit owed edge child rest (.glance (edit.start.bytes - edge.bytes) :: shares)
  | none (paid : owed.bytes.toNat = 0) (far : edit.startByte < edge.bytes.toNat) :
      DrawnAfter edit owed edge child rest []

theorem sharesAfter?_cons (drawn : edit.sharesAfter? owed edge (child :: children) = some shares) :
    DrawnAfter edit owed edge child children shares := by
  rw [sharesAfter?] at drawn
  obtain ⟨total, fits, drawn⟩ := Option.bind_eq_some_iff.mp drawn
  obtain ⟨right, sum, drawn⟩ := Option.bind_eq_some_iff.mp drawn
  have rightBytes := bytes_of_right fits sum
  split at drawn
  case isTrue settled =>
    have paid : owed.bytes.toNat = 0 := congrArg UInt32.toNat (of_decide_eq_true settled)
    split at drawn
    case isTrue near =>
      obtain ⟨later, drawn', finished⟩ := Option.bind_eq_some_iff.mp drawn
      cases finished
      exact .glance right later rightBytes paid near drawn'
    case isFalse far =>
      cases drawn
      exact .none paid (UInt32.lt_iff_toNat_lt.mp (UInt32.not_le.mp far))
  case isFalse owing =>
    obtain ⟨later, drawn', finished⟩ := Option.bind_eq_some_iff.mp drawn
    cases finished
    exact .part total right later (Lengths.bytes_of_total? fits) rightBytes
      (fun zero => owing (decide_eq_true (UInt32.toNat_inj.mp zero))) drawn'

/-- What the first child is asked, while the inserted text has not been placed, and the rest after
it. -/
inductive Drawn (edit : TextEdit) (oldEnd edge : Span) (child : Lengths) (rest : List Lengths) :
    List Share → Prop where
  | part (right removed owed : Span) (shares : List Share)
      (ends : right.bytes.toNat = edge.bytes.toNat + child.bytes)
      (reached : edit.startByte ≤ right.bytes.toNat)
      (removes : removed.bytes.toNat = min edit.stopByte right.bytes.toNat - edit.startByte)
      (owes : owed.bytes.toNat = edit.stopByte - right.bytes.toNat)
      (later : edit.sharesAfter? owed right rest = some shares) :
      Drawn edit oldEnd edge child rest (.part ⟨edit.start - edge, removed, edit.added⟩ :: shares)
  | glance (right : Span) (shares : List Share)
      (ends : right.bytes.toNat = edge.bytes.toNat + child.bytes)
      (passed : right.bytes.toNat < edit.startByte)
      (later : edit.shares? oldEnd right rest = some shares) :
      Drawn edit oldEnd edge child rest (.glance (edit.start.bytes - edge.bytes) :: shares)

theorem shares?_cons (ends : oldEnd.bytes.toNat = edit.stopByte)
    (drawn : edit.shares? oldEnd edge (child :: children) = some shares) :
    Drawn edit oldEnd edge child children shares := by
  have start : edit.startByte = edit.start.bytes.toNat := rfl
  have whole : edit.stopByte = edit.startByte + edit.removed.bytes.toNat := rfl
  rw [shares?] at drawn
  obtain ⟨total, fits, drawn⟩ := Option.bind_eq_some_iff.mp drawn
  obtain ⟨right, sum, drawn⟩ := Option.bind_eq_some_iff.mp drawn
  have rightBytes := bytes_of_right fits sum
  split at drawn
  case isTrue passed =>
    obtain ⟨later, drawn', finished⟩ := Option.bind_eq_some_iff.mp drawn
    cases finished
    exact .glance right later rightBytes (UInt32.lt_iff_toNat_lt.mp passed) drawn'
  case isFalse reached =>
    have le := UInt32.le_iff_toNat_le.mp (UInt32.not_lt.mp reached)
    split at drawn
    case isTrue beyond =>
      have lt := UInt32.lt_iff_toNat_lt.mp beyond
      obtain ⟨later, drawn', finished⟩ := Option.bind_eq_some_iff.mp drawn
      cases finished
      have removed := Span.toNat_bytes_sub right edit.start
      have owed := Span.toNat_bytes_sub oldEnd right
      exact .part right _ _ later rightBytes le (by omega) (by omega) drawn'
    case isFalse within =>
      have ge := UInt32.le_iff_toNat_le.mp (UInt32.not_lt.mp within)
      obtain ⟨later, drawn', finished⟩ := Option.bind_eq_some_iff.mp drawn
      cases finished
      have none : Span.zero.bytes.toNat = 0 := rfl
      exact .part right _ _ later rightBytes le (by omega) (by omega) drawn'

/-- With the inserted text placed, the removal that is left goes to the children in order. -/
theorem sharesAfter?_asked (owes : owed.bytes.toNat = edit.stopByte - edge.bytes.toNat)
    (past : edit.startByte ≤ edge.bytes.toNat)
    (drawn : edit.sharesAfter? owed edge children = some shares)
    (found : children[index]? = some child) :
    Asked edit False (edge.bytes.toNat + Lengths.startOf children index) child.bytes
      shares[index]? := by
  induction children generalizing owed edge shares index with
  | nil => cases found
  | cons head rest ih =>
    cases sharesAfter?_cons drawn with
    | part total right later covers ends owing drawn' =>
      have clipped := Span.toNat_bytes_clip owed total
      cases index with
      | zero =>
        cases found
        refine .part _ ?_ (.inl ?_) ?_ ?_ ?_ fun _ => rfl
        · exact Nat.le_trans past (by simp)
        · rw [Lengths.startOf_zero]
          omega
        · exact (Nat.sub_eq_zero_of_le past).symm
        · change 0 + (owed.clip total).bytes.toNat = _
          rw [clipped, Lengths.startOf_zero]
          omega
        · simp only [Lengths.startOf_zero, or_false]
          omega
      | succ index =>
        have asks := ih (by rw [Span.toNat_bytes_sub]; omega) (by omega) drawn' found
        rwa [ends, Nat.add_assoc] at asks
    | glance right later ends paid near drawn' =>
      have le := UInt32.le_iff_toNat_le.mp near
      cases index with
      | zero =>
        cases found
        exact .glance _ (UInt32.toNat_sub_of_le _ _ near) le (.inr ⟨by simp; omega, id⟩)
      | succ index =>
        have asks := ih (by omega) (by omega) drawn' found
        rwa [ends, Nat.add_assoc] at asks
    | none paid far => exact .none (by omega) (by omega)

/-- The first child that does not end before the edit takes the inserted text. -/
theorem shares?_asked (ends : oldEnd.bytes.toNat = edit.stopByte)
    (near : edge.bytes.toNat ≤ edit.startByte)
    (drawn : edit.shares? oldEnd edge children = some shares)
    (found : children[index]? = some child) :
    Asked edit (index = 0) (edge.bytes.toNat + Lengths.startOf children index) child.bytes
      shares[index]? := by
  induction children generalizing edge shares index with
  | nil => cases found
  | cons head rest ih =>
    cases shares?_cons ends drawn with
    | glance right later rightBytes passed drawn' =>
      cases index with
      | zero =>
        cases found
        refine .glance _ (UInt32.toNat_sub_of_le _ _ (UInt32.le_iff_toNat_le.mpr near)) near
          (.inl ?_)
        rw [Lengths.startOf_zero]
        exact rightBytes ▸ passed
      | succ index =>
        have asks := ih (Nat.le_of_lt passed) drawn' found
        rw [rightBytes, Nat.add_assoc] at asks
        cases index with
        | zero => exact asks.of_passed (by rw [Lengths.startOf_zero]; exact rightBytes ▸ passed)
        | succ index => exact asks.congr (by simp)
    | part right removed owed later rightBytes reached removes owes drawn' =>
      cases index with
      | zero =>
        cases found
        have starts := Span.toNat_bytes_sub edit.start edge
        have whole : edit.startByte ≤ edit.stopByte := edit.startByte_le_stopByte
        refine .part _ (rightBytes ▸ reached) (.inr rfl) starts ?_ (fun _ => rfl) fun late =>
          (late (.inr rfl)).elim
        change (edit.start - edge).bytes.toNat + removed.bytes.toNat = _
        rw [starts, removes, Lengths.startOf_zero, Nat.add_zero, ← rightBytes]
        simp only [startByte] at *
        omega
      | succ index =>
        rw [Lengths.startOf_cons_succ, ← Nat.add_assoc, ← rightBytes]
        exact (sharesAfter?_asked owes reached drawn' found).congr (by simp)

end TextEdit

theorem glances?_glanced {offset start : Word} {children : List Lengths} {shares : List Share}
    {index : Nat} {child : Lengths} (drawn : glances? offset start children = some shares)
    (found : children[index]? = some child) :
    Glanced offset.toNat (start.toNat + Lengths.startOf children index) shares[index]? := by
  induction children generalizing start shares index with
  | nil => cases found
  | cons head rest ih =>
    rw [glances?] at drawn
    split at drawn
    case isTrue far =>
      cases drawn
      exact .none (Nat.lt_of_lt_of_le (UInt32.lt_iff_toNat_lt.mp far) (Nat.le_add_right ..))
    case isFalse inside =>
      obtain ⟨bytes, fits, drawn⟩ := Option.bind_eq_some_iff.mp drawn
      obtain ⟨next, sum, drawn⟩ := Option.bind_eq_some_iff.mp drawn
      obtain ⟨later, drawn', finished⟩ := Option.bind_eq_some_iff.mp drawn
      cases finished
      have le := UInt32.not_lt.mp inside
      cases index with
      | zero =>
        rw [Lengths.startOf_zero]
        exact .glance _ (UInt32.toNat_sub_of_le _ _ le) (UInt32.le_iff_toNat_le.mp le)
      | succ index =>
        have bytesEq : bytes.toNat = head.bytes := (Word.add?_eq_some_iff.mp fits).symm
        have nextEq := Word.add?_eq_some_iff.mp sum
        have later := ih drawn' found
        rwa [← nextEq, bytesEq, Nat.add_assoc] at later

namespace Tree

/-- The tree after what it is asked, if anything. -/
def answer? (asked : Option Share) (tree : Tree) : Option Tree :=
  match asked with
  | some share => tree.carry? share
  | none => some tree

variable {tree edited child : Tree} {trees trees' : List Tree} {shares : List Share} {index : Nat}

theorem carryAll?_length (carried : carryAll? shares trees = some trees') :
    trees'.length = trees.length :=
  (carryAll?_forall₂ carried).length_eq.symm

theorem carryAll?_getElem? (carried : carryAll? shares trees = some trees')
    (found : trees[index]? = some child) :
    ∃ child', trees'[index]? = some child' ∧ child.answer? shares[index]? = some child' := by
  induction trees generalizing shares trees' index with
  | nil => cases found
  | cons tree trees ih =>
    cases shares with
    | nil =>
      rw [carryAll?_nil_left] at carried
      cases carried
      exact ⟨child, found, rfl⟩
    | cons share shares =>
      rw [carryAll?_cons] at carried
      obtain ⟨rest, later, carried⟩ := Option.bind_eq_some_iff.mp carried
      obtain ⟨first, here, rfl⟩ := Option.map_eq_some_iff.mp carried
      cases index with
      | zero =>
        cases found
        exact ⟨first, rfl, here⟩
      | succ index =>
        have deeper := ih later found
        exact deeper

theorem resize?_of_resizedInfo {edit : TextEdit} {isLeaf : Bool} {info info' : NodeInfo}
    (resized : Pool.resizedInfo edit isLeaf info = some info') :
    edit.resize? info.lengths.padding info.lengths.size =
      some (info'.lengths.padding, info'.lengths.size) := by
  obtain ⟨⟨padding, size⟩, stretches, resized⟩ := Option.bind_eq_some_iff.mp resized
  rw [stretches]
  cases isLeaf with
  | true =>
    obtain ⟨lengths, covers, finished⟩ := Option.bind_eq_some_iff.mp resized
    obtain ⟨bytes, _, rfl⟩ := Option.map_eq_some_iff.mp covers
    cases finished
    rfl
  | false =>
    cases resized
    rfl

theorem asked_of_shares? {edit : TextEdit} {oldEnd : Span} (ends : edit.oldEnd? = some oldEnd)
    (drawn : edit.shares? oldEnd .zero (trees.map lengths) = some shares)
    (found : trees[index]? = some child) :
    Asked edit (index = 0) (Lengths.startOf (trees.map lengths) index) child.lengths.bytes
      shares[index]? := by
  have asks := TextEdit.shares?_asked (TextEdit.bytes_of_oldEnd? ends) (Nat.zero_le _) drawn
    (lengths_of_child found)
  rwa [show Span.zero.bytes.toNat = 0 from rfl, Nat.zero_add] at asks

/-- What carrying a part of an edit comes to. A leaf is resized; below an inner node every child
answers to its share, if it has one, and the node has their lengths. -/
theorem carry?_part_cases {edit : TextEdit} (carried : tree.carry? (.part edit) = some edited) :
    edited.info.changed = true ∧ edited.children.length = tree.children.length ∧
      (tree.children = [] → Pool.resizedInfo edit true tree.info = some edited.info) ∧
      (tree.children ≠ [] →
        Lengths.over? (edited.children.map lengths) = some edited.lengths) ∧
      ∃ shares : List Share,
        (tree.children ≠ [] → ∃ oldEnd, edit.oldEnd? = some oldEnd ∧
          edit.shares? oldEnd .zero (tree.children.map lengths) = some shares) ∧
        ∀ index child, tree.children[index]? = some child → ∃ child',
          edited.children[index]? = some child' ∧ child.answer? shares[index]? = some child' ∧
            Asked edit (index = 0) (tree.childStart index) child.lengths.bytes shares[index]? := by
  obtain ⟨handle, info, children⟩ := tree
  by_cases leaf : children = []
  · subst leaf
    rw [carry?_part_leaf] at carried
    obtain ⟨info', resized, rfl⟩ := Option.map_eq_some_iff.mp carried
    obtain ⟨_, _, resized'⟩ := Option.bind_eq_some_iff.mp resized
    obtain ⟨_, _, finished⟩ := Option.bind_eq_some_iff.mp resized'
    cases finished
    exact ⟨rfl, rfl, fun _ => resized, fun inner => (inner rfl).elim, [],
      fun inner => (inner rfl).elim, nofun⟩
  · rw [carry?_part_node edit leaf] at carried
    obtain ⟨info', resized, carried⟩ := Option.bind_eq_some_iff.mp carried
    obtain ⟨oldEnd, ends, carried⟩ := Option.bind_eq_some_iff.mp carried
    obtain ⟨shares, drawn, carried⟩ := Option.bind_eq_some_iff.mp carried
    obtain ⟨children', each, carried⟩ := Option.bind_eq_some_iff.mp carried
    obtain ⟨lengths, derived, rfl⟩ := Option.map_eq_some_iff.mp carried
    obtain ⟨_, _, resized⟩ := Option.bind_eq_some_iff.mp resized
    cases resized
    refine ⟨rfl, carryAll?_length each, fun none => (leaf none).elim, fun _ => derived, shares,
      fun _ => ⟨oldEnd, ends, drawn⟩, fun index child found => ?_⟩
    obtain ⟨child', place, answers⟩ := carryAll?_getElem? each found
    exact ⟨child', place, answers, asked_of_shares? ends drawn found⟩

/-- What a glance comes to: nothing where the tree was not read so far; and otherwise the tree is
flagged, and its children that start no later are looked at. -/
theorem carry?_glance_cases {offset : Word} (carried : tree.carry? (.glance offset) = some edited) :
    tree.lengths.scanned ≤ offset ∧ edited = tree ∨
      offset < tree.lengths.scanned ∧ edited.info = { tree.info with changed := true } ∧
        edited.children.map lengths = tree.children.map lengths ∧
        ∀ index child, tree.children[index]? = some child → ∃ asked child',
          edited.children[index]? = some child' ∧ child.answer? asked = some child' ∧
            Glanced offset.toNat (tree.childStart index) asked := by
  obtain ⟨handle, info, children⟩ := tree
  by_cases past : info.lengths.scanned ≤ offset
  · rw [carry?_glance_past past] at carried
    cases carried
    exact .inl ⟨past, rfl⟩
  · rw [carry?_glance_reached past] at carried
    obtain ⟨shares, drawn, carried⟩ := Option.bind_eq_some_iff.mp carried
    obtain ⟨children', each, rfl⟩ := Option.map_eq_some_iff.mp carried
    refine .inr ⟨UInt32.not_le.mp past, rfl, lengths_of_glances drawn each,
      fun index child found => ?_⟩
    obtain ⟨child', place, answers⟩ := carryAll?_getElem? each found
    refine ⟨_, child', place, answers, ?_⟩
    have asks := glances?_glanced drawn (lengths_of_child found)
    rwa [UInt32.toNat_zero, Nat.zero_add] at asks

theorem exists_child_of_answer? {asked : Option Share} (answers : tree.answer? asked = some edited)
    (found : tree.children[index]? = some child) :
    ∃ asked child', edited.children[index]? = some child' ∧ child.answer? asked = some child' := by
  match asked with
  | none =>
    cases answers
    exact ⟨none, child, found, rfl⟩
  | some (.part edit) =>
    obtain ⟨_, _, _, _, shares, _, each⟩ := carry?_part_cases answers
    obtain ⟨child', place, answers, _⟩ := each index child found
    exact ⟨_, child', place, answers⟩
  | some (.glance offset) =>
    obtain ⟨_, rfl⟩ | ⟨_, _, _, each⟩ := carry?_glance_cases answers
    · exact ⟨none, child, found, rfl⟩
    · obtain ⟨asked, child', place, answers, _⟩ := each index child found
      exact ⟨asked, child', place, answers⟩

theorem children_length_of_answer? {asked : Option Share}
    (answers : tree.answer? asked = some edited) :
    edited.children.length = tree.children.length := by
  match asked with
  | none =>
    cases answers
    rfl
  | some (.part edit) => exact (carry?_part_cases answers).2.1
  | some (.glance offset) =>
    obtain ⟨_, rfl⟩ | ⟨_, _, same, _⟩ := carry?_glance_cases answers
    · rfl
    · simpa only [List.length_map] using congrArg List.length same

/-- An edit makes no children. -/
theorem exists_child_before {asked : Option Share} {child' : Tree}
    (answers : tree.answer? asked = some edited) (found' : edited.children[index]? = some child') :
    ∃ asked child, tree.children[index]? = some child ∧ child.answer? asked = some child' := by
  have within := (List.getElem?_eq_some_iff.mp found').1
  rw [children_length_of_answer? answers] at within
  have found := List.getElem?_eq_getElem within
  obtain ⟨asked, _, again, answers'⟩ := exists_child_of_answer? answers found
  cases found'.symm.trans again
  exact ⟨asked, _, found, answers'⟩

end Tree

end SyntaxForest
