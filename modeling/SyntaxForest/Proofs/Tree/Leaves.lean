import Mathlib.Algebra.BigOperators.Group.List.Basic
import Mathlib.Algebra.GroupWithZero.Nat
import Mathlib.Order.Bounds.Defs
import SyntaxForest.Proofs.Text.Stretch
import SyntaxForest.Proofs.Tree.Place
import SyntaxForest.Proofs.Tree.Spelling

/-! # Trees as rows of leaves

The lengths of a measured tree are those of a node laid directly over its leaves, if sums have no
bounds: inner nodes group the leaves and add nothing. So two trees over the same leaves have the same
lengths, whatever inner nodes stand between.
-/

namespace SyntaxForest

namespace Lengths

variable {lengths child : Lengths} {xs ys rest : List Lengths}

/-- Padding and content together, without bounds. -/
def stretch (lengths : Lengths) : Stretch := lengths.padding.stretch + lengths.size.stretch

theorem bytes_eq_fst_stretch (lengths : Lengths) : lengths.bytes = lengths.stretch.1 := rfl

theorem stretch_of_total? {total : Span} (fits : child.total? = some total) :
    total.stretch = child.stretch :=
  (Span.add?_eq_some_iff_stretch.mp fits).symm

theorem stretch_of_foldlM_appendTo? {size last : Span}
    (folded : rest.foldlM appendTo? size = some last) :
    last.stretch = size.stretch + (rest.map stretch).sum := by
  induction rest generalizing size with
  | nil =>
    cases folded
    exact (add_zero _).symm
  | cons child rest ih =>
    rw [List.foldlM_cons] at folded
    obtain ⟨next, appended, folded⟩ := Option.bind_eq_some_iff.mp folded
    obtain ⟨total, fits, appended⟩ := Option.bind_eq_some_iff.mp appended
    rw [ih folded, ← Span.add?_eq_some_iff_stretch.mp appended, stretch_of_total? fits,
      List.map_cons, List.sum_cons, add_assoc]

theorem sum_map_bytes (xs : List Lengths) : (xs.map bytes).sum = (xs.map stretch).sum.1 := by
  induction xs with
  | nil => rfl
  | cons child rest ih => rw [List.map_cons, List.sum_cons, ih, List.map_cons, List.sum_cons]; rfl

/-! ## How far nodes in a row were read -/

theorem farthest_append (start : Nat) (xs ys : List Lengths) :
    farthest start (xs ++ ys) = max (farthest start xs) (farthest (start + (xs.map bytes).sum) ys) := by
  induction xs generalizing start with
  | nil => simp [farthest]
  | cons child rest ih =>
    rw [List.cons_append, farthest, ih, farthest, List.map_cons, List.sum_cons, Nat.max_assoc,
      Nat.add_assoc]

/-- Nodes that start later were read further. -/
theorem farthest_add (some : xs ≠ []) (start more : Nat) :
    farthest (start + more) xs = start + farthest more xs := by
  induction xs generalizing more with
  | nil => exact (some rfl).elim
  | cons head rest ih =>
    rw [farthest, farthest, Nat.add_assoc, Nat.add_assoc]
    by_cases last : rest = []
    · rw [last, farthest, farthest, Nat.max_zero, Nat.max_zero]
    · rw [ih last, Nat.add_max_add_left]

/-- The maximum over the nodes is that of some node. -/
theorem exists_farthest (start : Nat) (some : xs ≠ []) : ∃ index child, xs[index]? = .some child ∧
    farthest start xs = start + startOf xs index + child.scanned.toNat := by
  induction xs generalizing start with
  | nil => exact (some rfl).elim
  | cons head rest ih =>
    rw [farthest]
    by_cases last : rest = []
    · refine ⟨0, head, rfl, ?_⟩
      rw [last, farthest, startOf_zero, Nat.max_zero, Nat.add_zero]
    · obtain ⟨index, child, found, reach⟩ := ih (start + head.bytes) last
      rcases Nat.le_total (farthest (start + head.bytes) rest) (start + head.scanned.toNat) with
        here | later
      · exact ⟨0, head, rfl, by rw [Nat.max_eq_left here, startOf_zero, Nat.add_zero]⟩
      · refine ⟨index + 1, child, found, ?_⟩
        rw [Nat.max_eq_right later, reach, startOf_cons_succ, ← Nat.add_assoc]

/-- Nodes that were read to their ends were read to the end of all of them. -/
theorem sum_bytes_le_farthest (start : Nat) (some : xs ≠ [])
    (read : ∀ child ∈ xs, child.bytes ≤ child.scanned.toNat) :
    start + (xs.map bytes).sum ≤ farthest start xs := by
  induction xs generalizing start with
  | nil => exact (some rfl).elim
  | cons head rest ih =>
    rw [farthest, List.map_cons, List.sum_cons, ← Nat.add_assoc]
    by_cases last : rest = []
    · refine Nat.le_trans ?_ (Nat.le_max_left ..)
      rw [last, List.map_nil, List.sum_nil, Nat.add_zero]
      exact Nat.add_le_add_left (read head List.mem_cons_self) _
    · refine Nat.le_trans ?_ (Nat.le_max_right ..)
      exact ih _ last fun child member => read child (List.mem_cons_of_mem _ member)

end Lengths

namespace Tree

variable {tree tree' : Tree} {trees children : List Tree} {handle : Option NodeId}
  {info : NodeInfo}

theorem leaves_leaf : (node handle info []).leaves = [info.lengths] := by
  rw [leaves]
  rfl

theorem leaves_cons : (node handle info (tree :: trees)).leaves = tree.leaves ++ leavesAll trees := by
  rw [leaves, leavesAll]
  rfl

theorem leaves_ne_nil (tree : Tree) : tree.leaves ≠ [] := by
  induction tree with
  | node handle info children ih =>
    cases children with
    | nil => simp [leaves_leaf]
    | cons first rest =>
      rw [leaves_cons]
      exact List.append_ne_nil_of_left_ne_nil (ih first List.mem_cons_self) _

/-- What a leaf of a tree in a row is has been a leaf of one of the trees. -/
theorem mem_leavesAll {lengths : Lengths} :
    lengths ∈ leavesAll trees ↔ ∃ tree ∈ trees, lengths ∈ tree.leaves := by
  induction trees with
  | nil => simp [leavesAll]
  | cons first rest ih => simp [leavesAll, ih]

theorem leavesAll_stretch (each : ∀ tree ∈ trees,
    tree.lengths.stretch = (tree.leaves.map Lengths.stretch).sum) :
    ((trees.map lengths).map Lengths.stretch).sum = ((leavesAll trees).map Lengths.stretch).sum := by
  induction trees with
  | nil => rfl
  | cons first rest ih =>
    rw [leavesAll, List.map_append, List.sum_append, List.map_cons, List.map_cons, List.sum_cons,
      each first List.mem_cons_self, ih fun tree member => each tree (List.mem_cons_of_mem _ member)]

namespace Measured

theorem read_of_mem_leaves (measured : tree.Measured) {lengths : Lengths}
    (member : lengths ∈ tree.leaves) : lengths.bytes ≤ lengths.scanned.toNat := by
  induction measured with
  | @node handle info children here below ih =>
    cases children with
    | nil =>
      rw [leaves_leaf, List.mem_singleton] at member
      exact member ▸ here.read
    | cons first rest =>
      rw [leaves_cons, ← leavesAll] at member
      obtain ⟨tree, place, within⟩ := mem_leavesAll.mp member
      exact ih tree place within

/-- A tree covers what its leaves cover together. -/
theorem stretch_eq (measured : tree.Measured) :
    tree.lengths.stretch = (tree.leaves.map Lengths.stretch).sum := by
  induction measured with
  | @node handle info children here below ih =>
    cases children with
    | nil => rw [leaves_leaf, List.map_singleton, List.sum_singleton]; rfl
    | cons first rest =>
      obtain ⟨padding, size, _⟩ := here.derived _ _ rfl
      rw [leaves_cons, ← leavesAll, ← leavesAll_stretch ih, List.map_cons, List.map_cons,
        List.sum_cons]
      change info.lengths.stretch = _
      rw [Lengths.stretch, padding, Lengths.stretch_of_foldlM_appendTo? size, ← add_assoc]
      rfl

theorem bytes_eq_sum (measured : tree.Measured) :
    tree.lengths.bytes = (tree.leaves.map Lengths.bytes).sum := by
  rw [Lengths.bytes_eq_fst_stretch, measured.stretch_eq, Lengths.sum_map_bytes]

/-- The first leaf gives the padding, and what follows it is content. -/
theorem exists_first_leaf (measured : tree.Measured) : ∃ first rest, tree.leaves = first :: rest ∧
    tree.lengths.padding = first.padding ∧
    tree.lengths.size.stretch = first.size.stretch + (rest.map Lengths.stretch).sum := by
  induction measured with
  | @node handle info children here below ih =>
    cases children with
    | nil => exact ⟨info.lengths, [], leaves_leaf, rfl, (add_zero _).symm⟩
    | cons child later =>
      obtain ⟨padding, size, _⟩ := here.derived _ _ rfl
      obtain ⟨first, rest, leaves, paddingFirst, sizeFirst⟩ := ih child List.mem_cons_self
      refine ⟨first, rest ++ leavesAll later, ?_, padding.trans paddingFirst, ?_⟩
      · rw [leaves_cons, leaves]
        rfl
      · have rest_eq := leavesAll_stretch fun tree member =>
          (below tree (List.mem_cons_of_mem _ member)).stretch_eq
        rw [List.map_append, List.sum_append, ← rest_eq, ← add_assoc, ← sizeFirst]
        exact Lengths.stretch_of_foldlM_appendTo? size

theorem farthest_leavesAll (each : ∀ tree ∈ trees, tree.Measured) (reads : ∀ tree ∈ trees,
    ∀ start, Lengths.farthest start tree.leaves = start + tree.lengths.scanned.toNat)
    (start : Nat) :
    Lengths.farthest start (leavesAll trees) = Lengths.farthest start (trees.map lengths) := by
  induction trees generalizing start with
  | nil => rfl
  | cons first rest ih =>
    rw [leavesAll, Lengths.farthest_append, reads first List.mem_cons_self, List.map_cons,
      Lengths.farthest, (each first List.mem_cons_self).bytes_eq_sum,
      ih (fun tree member => each tree (List.mem_cons_of_mem _ member))
        fun tree member => reads tree (List.mem_cons_of_mem _ member)]

/-- A tree was read as far as its leaves were. -/
theorem farthest_leaves (measured : tree.Measured) (start : Nat) :
    Lengths.farthest start tree.leaves = start + tree.lengths.scanned.toNat := by
  induction measured generalizing start with
  | @node handle info children here below ih =>
    cases children with
    | nil => rw [leaves_leaf, Lengths.farthest, Lengths.farthest, Nat.max_zero]; rfl
    | cons first rest =>
      have measured : (Tree.node handle info (first :: rest)).Measured := .node here below
      have gathered : Lengths.farthest 0 (Tree.node handle info (first :: rest)).leaves =
          Lengths.farthest 0 ((first :: rest).map lengths) := by
        rw [leaves_cons, ← leavesAll, farthest_leavesAll below ih]
      have text : info.lengths.bytes ≤ Lengths.farthest 0 ((first :: rest).map lengths) := by
        have within := Lengths.sum_bytes_le_farthest 0 (leaves_ne_nil _)
          fun _ => measured.read_of_mem_leaves
        rwa [Nat.zero_add, ← measured.bytes_eq_sum, gathered] at within
      have scanned := (here.derived _ _ rfl).scanned_eq
      rw [← List.map_cons, Nat.max_eq_right text, ← gathered] at scanned
      rw [← Nat.add_zero start, Lengths.farthest_add (leaves_ne_nil _), ← scanned]
      rfl

/-- What was read for a tree was read for one of its leaves, and was read to the end of it. -/
theorem isGreatest_scanned (measured : tree.Measured) :
    IsGreatest { reach | ∃ index leaf, tree.leaves[index]? = some leaf ∧
      reach = Lengths.startOf tree.leaves index + leaf.scanned.toNat }
      tree.lengths.scanned.toNat := by
  have scanned := measured.farthest_leaves 0
  rw [Nat.zero_add] at scanned
  rw [← scanned]
  constructor
  · obtain ⟨index, leaf, found, reach⟩ := Lengths.exists_farthest 0 tree.leaves_ne_nil
    exact ⟨index, leaf, found, by rw [reach, Nat.zero_add]⟩
  · rintro _ ⟨index, leaf, found, rfl⟩
    have reach := Lengths.le_farthest 0 found
    rwa [Nat.zero_add] at reach

theorem sum_bytes_le_scanned (measured : tree.Measured) :
    (tree.leaves.map Lengths.bytes).sum ≤ tree.lengths.scanned.toNat := by
  have text := Lengths.sum_bytes_le_farthest 0 tree.leaves_ne_nil fun _ =>
    measured.read_of_mem_leaves
  rwa [measured.farthest_leaves, Nat.zero_add, Nat.zero_add] at text

/-- Trees over the same leaves have the same lengths. -/
theorem lengths_eq_of_leaves (measured : tree.Measured) (other : tree'.Measured)
    (same : tree'.leaves = tree.leaves) : tree'.lengths = tree.lengths := by
  obtain ⟨first, rest, leaves, padding, size⟩ := measured.exists_first_leaf
  obtain ⟨first', rest', leaves', padding', size'⟩ := other.exists_first_leaf
  obtain ⟨rfl, rfl⟩ := List.cons.inj (leaves'.symm.trans (same.trans leaves))
  have scanned := other.farthest_leaves 0
  rw [same, measured.farthest_leaves, Nat.zero_add, Nat.zero_add] at scanned
  have samePadding : tree'.lengths.padding = tree.lengths.padding := padding'.trans padding.symm
  have sameSize : tree'.lengths.size = tree.lengths.size :=
    Span.stretch_injective (size'.trans size.symm)
  have sameScanned : tree'.lengths.scanned = tree.lengths.scanned :=
    UInt32.toNat_inj.mp scanned.symm
  calc tree'.lengths
      = ⟨tree'.lengths.padding, tree'.lengths.size, tree'.lengths.scanned⟩ := rfl
    _ = tree.lengths := by rw [samePadding, sameSize, sameScanned]

end Measured

end Tree

end SyntaxForest
