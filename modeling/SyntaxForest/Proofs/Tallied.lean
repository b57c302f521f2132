import SyntaxForest.Proofs.Measured
import SyntaxForest.Proofs.Tree.Tallied

/-! # Pools whose bytes add up

The bytes of a node are those that its children add up to. A node that is measured tells at least
that, whatever its rows and columns are.
-/

namespace SyntaxForest.Pool

variable {pool : Pool} {id : NodeId} {tree : Tree}

/-- The node covers as many bytes as its children do, if it has any. -/
def TalliedAt (pool : Pool) (id : NodeId) : Prop :=
  ∃ node below, pool.node? id = some node ∧
    node.children.map pool.lengths? = below.map some ∧
    (below ≠ [] → node.lengths.bytes = Lengths.startOf below below.length)

theorem MeasuredAt.talliedAt (measured : pool.MeasuredAt id) : pool.TalliedAt id :=
  let ⟨node, below, found, read, here⟩ := measured
  ⟨node, below, found, read, here.bytes_eq⟩

/-- What a handle shows adds up if all that it reaches does. -/
theorem Shows.tallied (shows : pool.Shows id tree)
    (reached : ∀ other, pool.Reaches id other → pool.TalliedAt other) : tree.Tallied := by
  induction tree generalizing id with
  | node handle info children ih =>
    obtain ⟨_, ids, found, all⟩ := shows_iff.mp shows
    refine .node (fun inner => ?_) fun tree place => ?_
    · obtain ⟨_, below, found', read, here⟩ := reached id .refl
      cases found.symm.trans found'
      have same : children.map Tree.lengths = below :=
        List.map_injective_iff.mpr (Option.some_injective _)
          ((lengths?_of_shows all).symm.trans read)
      rw [← same] at here
      rw [here (mt List.map_eq_nil_iff.mp inner), List.length_map]
    · obtain ⟨child, member, shows'⟩ := (List.Forall₂.flip all).exists_of_mem place
      exact ih tree place shows' fun other reaches =>
        reached other (reaches_of_mem found member reaches)

end SyntaxForest.Pool
