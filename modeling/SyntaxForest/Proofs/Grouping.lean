import SyntaxForest.Proofs.Measured
import SyntaxForest.Proofs.Tree.Leaves

/-! # Lengths do not tell how leaves are grouped

A caller may build the same leaves up to a tree in many ways, share some of the nodes between them,
or build them in another pool. Whichever of them can be built have the same lengths.
-/

namespace SyntaxForest

namespace Pool

variable {pool : Pool} {id : NodeId} {tree : Tree}

theorem Shows.lengths? (shows : pool.Shows id tree) : pool.lengths? id = some tree.lengths := by
  obtain ⟨_, found, _⟩ := shows.node?
  rw [Pool.lengths?, found]
  rfl

end Pool

namespace Session

variable {session : Session} {id : NodeId}

/-- The lengths of a live node are those of its leaves in a row: the padding of the first, content
that adds up to what follows it, read as far as any of the leaves was from where it starts. Sums are
those of unbounded rows, columns and bytes. Another node over the same leaves has the same lengths,
in this session or in another. -/
theorem Reached.lengths_of_leaves (reached : Reached WritesLeaves session)
    (live : session.pool.isLive id) :
    (∃ tree, session.pool.Shows id tree) ∧ ∀ tree, session.pool.Shows id tree →
      ∃ node first rest, session.pool.node? id = some node ∧ tree.leaves = first :: rest ∧
        node.lengths.padding = first.padding ∧
        node.lengths.size.stretch = first.size.stretch +
          (rest.map fun leaf => leaf.padding.stretch + leaf.size.stretch).sum ∧
        IsGreatest { reach | ∃ index leaf, tree.leaves[index]? = some leaf ∧
          reach = Lengths.startOf tree.leaves index + leaf.scanned.toNat }
          node.lengths.scanned.toNat ∧
        (tree.leaves.map Lengths.bytes).sum ≤ node.lengths.scanned.toNat ∧
        ∀ (other : Session) id' tree', Reached WritesLeaves other → other.pool.Shows id' tree' →
          tree'.leaves = tree.leaves → other.pool.lengths? id' = some node.lengths := by
  have grounded := reached.owned.grounded id live (Finset.notMem_empty id)
  refine ⟨grounded.exists_shows, fun tree shows => ?_⟩
  have measured := reached.pool_measured.shows shows
  obtain ⟨children, found, _⟩ := shows.node?
  obtain ⟨first, rest, leaves, padding, size⟩ := measured.exists_first_leaf
  refine ⟨_, first, rest, found, leaves, padding, size, measured.isGreatest_scanned,
    measured.sum_bytes_le_scanned, fun other id' tree' reached' shows' same => ?_⟩
  rw [shows'.lengths?]
  exact congrArg some (measured.lengths_eq_of_leaves (reached'.pool_measured.shows shows') same)

/-- Three leaves, the second of them with a break and read past its end, grouped from the left and
from the right. -/
theorem lengths_of_leaves_of_two_groupings : ∃ session : Session, session.held = {⟨6, 0⟩, ⟨4, 0⟩} ∧
    session.pool.lengths? ⟨4, 0⟩ = some ⟨⟨1, ⟨0, 1⟩⟩, ⟨7, ⟨1, 3⟩⟩, 9⟩ ∧
    session.pool.lengths? ⟨6, 0⟩ = some ⟨⟨1, ⟨0, 1⟩⟩, ⟨7, ⟨1, 3⟩⟩, 9⟩ ∧
    (∃ tree, session.pool.Shows ⟨4, 0⟩ tree) ∧ ∀ tree, session.pool.Shows ⟨4, 0⟩ tree →
      ∃ node first rest, session.pool.node? ⟨4, 0⟩ = some node ∧ tree.leaves = first :: rest ∧
        node.lengths.padding = first.padding ∧
        node.lengths.size.stretch = first.size.stretch +
          (rest.map fun leaf => leaf.padding.stretch + leaf.size.stretch).sum ∧
        IsGreatest { reach | ∃ index leaf, tree.leaves[index]? = some leaf ∧
          reach = Lengths.startOf tree.leaves index + leaf.scanned.toNat }
          node.lengths.scanned.toNat ∧
        (tree.leaves.map Lengths.bytes).sum ≤ node.lengths.scanned.toNat ∧
        ∀ (other : Session) id' tree', Reached WritesLeaves other → other.pool.Shows id' tree' →
          tree'.leaves = tree.leaves → other.pool.lengths? id' = some node.lengths := by
  have first : Reached WritesLeaves _ := .step
    (.makeLeaf .empty .endOfInput ⟨1, ⟨0, 1⟩⟩ ⟨2, ⟨0, 2⟩⟩) (.start .standard) trivial rfl
  have second := first.step (.makeLeaf .empty .endOfInput ⟨1, ⟨1, 0⟩⟩ ⟨1, ⟨0, 1⟩⟩) trivial rfl
  have written := second.step (.amend ⟨1, 0⟩ fun info =>
    { info with lengths := { info.lengths with scanned := 6 } })
    (by rintro node found; cases found; exact .inr ⟨rfl, rfl, by decide⟩) rfl
  have third := written.step (.makeLeaf .empty .endOfInput ⟨1, ⟨0, 1⟩⟩ ⟨2, ⟨0, 1⟩⟩) trivial rfl
  have again := ((third.step (.retain ⟨0, 0⟩) trivial rfl).step (.retain ⟨1, 0⟩) trivial rfl).step
    (.retain ⟨2, 0⟩) trivial rfl
  have left := again.step (.makeNode .empty .endOfInput [⟨0, 0⟩, ⟨1, 0⟩]) trivial rfl
  have fromLeft := left.step (.makeNode .empty .endOfInput [⟨3, 0⟩, ⟨2, 0⟩]) trivial rfl
  have right := fromLeft.step (.makeNode .empty .endOfInput [⟨1, 0⟩, ⟨2, 0⟩]) trivial rfl
  have fromRight := right.step (.makeNode .empty .endOfInput [⟨0, 0⟩, ⟨5, 0⟩]) trivial rfl
  exact ⟨_, rfl, rfl, rfl, fromRight.lengths_of_leaves rfl⟩

end Session

end SyntaxForest
