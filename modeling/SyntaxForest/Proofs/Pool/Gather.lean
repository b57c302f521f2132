import SyntaxForest.Pool.Build
import SyntaxForest.Proofs.Pool.Unfold

/-! # What is gathered from child lists

What a node is depends on its children only through what the trees are that they show. A sum over a
child list is the sum over these trees, where it fits, and no handle in the list turns out to have
gone.
-/

namespace SyntaxForest

theorem checked_bind {α β : Type} (value : Option α) (next : α → Option β) :
    (checked value >>= fun result => checked (next result)) = checked (value.bind next) := by
  cases value <;> rfl

namespace Pool

variable {pool : Pool} {id : NodeId} {ids : List NodeId} {tree : Tree} {trees : List Tree}

theorem Shows.node (shows : pool.Shows id tree) : ∃ ids, pool.node id = .ok ⟨tree.info, ids⟩ :=
  let ⟨ids, found, _⟩ := shows.node?
  ⟨ids, node_eq_ok_iff.mpr found⟩

/-- A sum over the nodes of a child list. -/
theorem foldlM_of_shows {α : Type} (step : α → NodeInfo → Option α) (start : α)
    (all : List.Forall₂ pool.Shows ids trees) :
    (ids.foldlM (fun sum id => do
      let node ← pool.node id
      checked (step sum node.toNodeInfo)) start : Except Fault α) =
      checked ((trees.map Tree.info).foldlM step start) := by
  induction all generalizing start with
  | nil => rfl
  | @cons id tree ids trees shows _ ih =>
    obtain ⟨below, found⟩ := shows.node
    rw [List.foldlM_cons, List.map_cons, List.foldlM_cons]
    simp only [found, ih]
    exact checked_bind ..

theorem lengthsOver_of_shows (all : List.Forall₂ pool.Shows ids trees) :
    pool.lengthsOver ids = checked (Lengths.over? (trees.map Tree.lengths)) := by
  cases all with
  | nil => rfl
  | @cons id tree ids trees shows rest =>
    obtain ⟨below, found⟩ := shows.node
    have folded : ∀ start, ids.foldlM pool.addLengths start =
        checked ((trees.map Tree.lengths).foldlM Summary.extend? start) := by
      intro start
      have sum := foldlM_of_shows (fun sum info => Summary.extend? sum info.lengths) start rest
      rw [List.foldlM_map] at sum ⊢
      exact sum
    rw [lengthsOver, found, List.map_cons, Lengths.over?]
    change (checked (Summary.ofFirst? tree.lengths) >>= fun summary =>
      ids.foldlM pool.addLengths summary >>= fun summary => checked (some summary.finish)) = _
    simp only [folded, checked_bind]
    rfl

theorem shownCounts_of_shows (all : List.Forall₂ pool.Shows ids trees) :
    pool.shownCounts ids =
      checked ((trees.map Tree.info).foldlM ShownCounts.count? ⟨0, 0⟩) :=
  foldlM_of_shows ShownCounts.count? ⟨0, 0⟩ all

theorem mapM_node_of_shows (all : List.Forall₂ pool.Shows ids trees) :
    ∃ below, ids.mapM pool.node = .ok below ∧
      below.map (·.toNodeInfo) = trees.map Tree.info := by
  induction all with
  | nil => exact ⟨[], rfl, rfl⟩
  | @cons id tree ids trees shows _ ih =>
    obtain ⟨children, found⟩ := shows.node
    obtain ⟨below, read, infos⟩ := ih
    refine ⟨⟨tree.info, children⟩ :: below, ?_, by simp only [List.map_cons, infos]⟩
    rw [List.mapM_cons, found, read]
    rfl

end Pool

end SyntaxForest
