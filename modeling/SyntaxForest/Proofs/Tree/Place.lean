import SyntaxForest.Proofs.Tree.Measured

/-! # Places in a tree

A place is found by a path, which tells the index of a child at each step down. The byte at which it
starts is where the text before it ends. In a measured tree no place reaches past the end of its
tree, and none was read further than the tree itself.
-/

namespace SyntaxForest

namespace Lengths

/-- The byte at which the node with this index starts, where nodes are laid out from zero on. -/
def startOf : List Lengths → Nat → Nat
  | _, 0 => 0
  | [], _ + 1 => 0
  | child :: rest, index + 1 => child.bytes + startOf rest index

variable {lengths child first : Lengths} {rest children : List Lengths} {index : Nat}

@[simp] theorem startOf_zero (children : List Lengths) : startOf children 0 = 0 := by
  cases children <;> rfl

@[simp] theorem startOf_cons_succ (child : Lengths) (rest : List Lengths) (index : Nat) :
    startOf (child :: rest) (index + 1) = child.bytes + startOf rest index := rfl

/-- Each node starts where the one before it ends. -/
theorem startOf_succ (found : children[index]? = some child) :
    startOf children (index + 1) = startOf children index + child.bytes := by
  induction children generalizing index with
  | nil => cases found
  | cons head rest ih =>
    cases index with
    | zero =>
      cases found
      simp
    | succ index =>
      have later := @ih index found
      simp only [startOf_cons_succ] at later ⊢
      omega

theorem startOf_le_length (children : List Lengths) (index : Nat) :
    startOf children index ≤ startOf children children.length := by
  induction children generalizing index with
  | nil => cases index <;> exact Nat.le_refl _
  | cons head rest ih =>
    cases index with
    | zero => exact Nat.zero_le _
    | succ index => exact Nat.add_le_add_left (ih index) _

theorem end_le_length (found : children[index]? = some child) :
    startOf children index + child.bytes ≤ startOf children children.length :=
  startOf_succ found ▸ startOf_le_length children (index + 1)

theorem le_farthest (start : Nat) (found : children[index]? = some child) :
    start + startOf children index + child.scanned.toNat ≤ farthest start children := by
  induction children generalizing start index with
  | nil => cases found
  | cons head rest ih =>
    rw [farthest]
    cases index with
    | zero =>
      cases found
      exact Nat.le_max_left ..
    | succ index =>
      refine Nat.le_trans ?_ (Nat.le_max_right ..)
      rw [startOf_cons_succ, ← Nat.add_assoc]
      exact ih (start + head.bytes) found

theorem farthest_le {start bound : Nat} (each : ∀ index child, children[index]? = some child →
    start + startOf children index + child.scanned.toNat ≤ bound) :
    farthest start children ≤ bound := by
  induction children generalizing start with
  | nil => exact Nat.zero_le _
  | cons head rest ih =>
    refine Nat.max_le.mpr ⟨each 0 head rfl, ih fun index child found => ?_⟩
    have later := each (index + 1) child found
    rwa [startOf_cons_succ, ← Nat.add_assoc] at later

theorem bytes_of_foldlM_appendTo? {size last : Span}
    (folded : rest.foldlM appendTo? size = some last) :
    last.bytes.toNat = size.bytes.toNat + startOf rest rest.length := by
  induction rest generalizing size with
  | nil =>
    cases folded
    rfl
  | cons child rest ih =>
    rw [List.foldlM_cons] at folded
    obtain ⟨next, appended, folded⟩ := Option.bind_eq_some_iff.mp folded
    obtain ⟨total, fits, appended⟩ := Option.bind_eq_some_iff.mp appended
    have sum := Word.add?_eq_some_iff.mp (Span.add?_eq_some_iff.mp appended).1
    rw [ih folded, List.length_cons, startOf_cons_succ, ← sum, bytes_of_total? fits, Nat.add_assoc]

/-- A node over children covers what they cover together. -/
theorem Derived.bytes_eq (derived : lengths.Derived first rest) :
    lengths.bytes = startOf (first :: rest) (first :: rest).length := by
  rw [bytes, derived.padding_eq, bytes_of_foldlM_appendTo? derived.size_eq, List.length_cons,
    startOf_cons_succ, bytes, Nat.add_assoc]

theorem Measured.bytes_eq (measured : lengths.Measured children) (inner : children ≠ []) :
    lengths.bytes = startOf children children.length := by
  cases children with
  | nil => exact (inner rfl).elim
  | cons first rest => exact (measured.derived first rest rfl).bytes_eq

theorem Measured.farthest_le_scanned (measured : lengths.Measured children) :
    farthest 0 children ≤ lengths.scanned.toNat := by
  cases children with
  | nil => exact Nat.zero_le _
  | cons first rest =>
    rw [(measured.derived first rest rfl).scanned_eq]
    exact Nat.le_max_right ..

end Lengths

namespace Tree

/-- A tree that is found in another one. -/
structure Place where
  /-- The byte at which it starts. -/
  start : Nat
  tree : Tree

namespace Place

def lengths (place : Place) : Lengths := place.tree.lengths

/-- The byte at which the place ends. -/
def stop (place : Place) : Nat := place.start + place.lengths.bytes

/-- The byte up to which the text was read for what stands here. -/
def read (place : Place) : Nat := place.start + place.lengths.scanned.toNat

def changed (place : Place) : Bool := place.tree.info.changed

end Place

/-- The byte at which a child starts. -/
def childStart (tree : Tree) (index : Nat) : Nat :=
  Lengths.startOf (tree.children.map lengths) index

/-- What is found at the end of a path. -/
def at? : Tree → List Nat → Option Place
  | tree, [] => some ⟨0, tree⟩
  | tree, index :: path => do
    let child ← tree.children[index]?
    let place ← child.at? path
    return { place with start := tree.childStart index + place.start }

variable {tree child : Tree} {index : Nat} {path : List Nat} {place : Place}

theorem childStart_eq_zero (tree : Tree) (first : index = 0) : tree.childStart index = 0 :=
  first ▸ Lengths.startOf_zero _

@[simp] theorem at?_nil (tree : Tree) : tree.at? [] = some ⟨0, tree⟩ := rfl

theorem at?_cons_eq_some_iff : tree.at? (index :: path) = some place ↔
    ∃ child below, tree.children[index]? = some child ∧ child.at? path = some below ∧
      place = ⟨tree.childStart index + below.start, below.tree⟩ := by
  simp only [at?, Option.bind_eq_bind, Option.bind_eq_some_iff, Option.pure_def, Option.some.injEq,
    eq_comm (b := place), exists_and_left]

theorem lengths_of_child {children : List Tree} (found : children[index]? = some child) :
    (children.map lengths)[index]? = some child.lengths := by
  rw [List.getElem?_map, found, Option.map_some]

theorem exists_child_of_lengths {children : List Tree} {lengths : Lengths}
    (found : (children.map Tree.lengths)[index]? = some lengths) :
    ∃ child, children[index]? = some child ∧ child.lengths = lengths := by
  rw [List.getElem?_map] at found
  exact Option.map_eq_some_iff.mp found

namespace Measured

theorem here (measured : tree.Measured) :
    tree.lengths.Measured (tree.children.map Tree.lengths) := by
  cases measured with
  | node here _ => exact here

theorem of_mem (measured : tree.Measured) (member : child ∈ tree.children) : child.Measured := by
  cases measured with
  | node _ below => exact below child member

theorem of_child (measured : tree.Measured) (found : tree.children[index]? = some child) :
    child.Measured :=
  measured.of_mem (List.mem_of_getElem? found)

/-- A child ends no later than its parent. -/
theorem child_stop_le (measured : tree.Measured) (found : tree.children[index]? = some child) :
    tree.childStart index + child.lengths.bytes ≤ tree.lengths.bytes := by
  have inner : tree.children.map Tree.lengths ≠ [] := by
    intro none
    rw [List.map_eq_nil_iff.mp none] at found
    cases found
  rw [measured.here.bytes_eq inner]
  exact Lengths.end_le_length (lengths_of_child found)

/-- A child was read no further than its parent. -/
theorem child_read_le (measured : tree.Measured) (found : tree.children[index]? = some child) :
    tree.childStart index + child.lengths.scanned.toNat ≤ tree.lengths.scanned.toNat := by
  have reach := Lengths.le_farthest 0 (lengths_of_child found)
  rw [Nat.zero_add] at reach
  exact Nat.le_trans reach measured.here.farthest_le_scanned

/-- No place ends after its tree. -/
theorem stop_le (measured : tree.Measured) (found : tree.at? path = some place) :
    place.stop ≤ tree.lengths.bytes := by
  induction path generalizing tree place with
  | nil =>
    cases found
    exact Nat.le_of_eq (Nat.zero_add _)
  | cons index path ih =>
    obtain ⟨child, below, isChild, deeper, rfl⟩ := at?_cons_eq_some_iff.mp found
    have inside := ih (measured.of_child isChild) deeper
    have childInside := measured.child_stop_le isChild
    simp only [Place.stop, Place.lengths] at inside ⊢
    omega

/-- No place was read further than its tree. -/
theorem read_le (measured : tree.Measured) (found : tree.at? path = some place) :
    place.read ≤ tree.lengths.scanned.toNat := by
  induction path generalizing tree place with
  | nil =>
    cases found
    exact Nat.le_of_eq (Nat.zero_add _)
  | cons index path ih =>
    obtain ⟨child, below, isChild, deeper, rfl⟩ := at?_cons_eq_some_iff.mp found
    have inside := ih (measured.of_child isChild) deeper
    have childInside := measured.child_read_le isChild
    simp only [Place.read, Place.lengths] at inside ⊢
    omega

end Measured

end Tree

end SyntaxForest
