import SyntaxForest.Proofs.Pool.Depth
import SyntaxForest.Proofs.Pool.Owned

/-! # Pools in balance

Between two calls no node is open. Every node then has as many owners as it counts, and no node is
kept but for a unit that a caller holds: from any live node the way up along its owners ends, since
each step finds a higher tree, and it can only end at a unit.
-/

namespace SyntaxForest.Pool

variable {pool : Pool} {held : Multiset NodeId} {id child : NodeId}

/-- How often a handle stands in the child lists of live nodes. -/
def occurrences (pool : Pool) (id : NodeId) : Nat :=
  ∑ parent ∈ pool.live, (pool.childrenOf parent).count id

theorem count_entries (pool : Pool) (id : NodeId) :
    (pool.entries ∅).count id = pool.occurrences id := by
  simp only [entries, Finset.sdiff_empty, Multiset.count_sum', occurrences, Multiset.coe_count]

theorem occurrences_ne_zero_of_child (below : pool.Child id child) : pool.occurrences child ≠ 0 := by
  obtain ⟨node, found, member⟩ := below
  rw [← count_entries, Multiset.count_ne_zero, mem_entries]
  refine ⟨id, isLive_of_node? found, Finset.notMem_empty _, ?_⟩
  rwa [childrenOf_of_node? found]

namespace Owned

theorem refCount_eq (owned : pool.Owned ∅ held) (id : NodeId) :
    (pool.refCount id).toNat = held.count id + pool.occurrences id := by
  rw [owned.balance, Finset.empty_val, add_zero, Multiset.count_add, count_entries]

theorem isLive_of_child (owned : pool.Owned ∅ held) (below : pool.Child id child) :
    pool.isLive child := by
  exact (owned.of_child ⟨below.isLive_parent, Finset.notMem_empty _⟩ below).1

/-- Every live node is owned by a unit or by a node above it. -/
theorem exists_owner (owned : pool.Owned ∅ held) (live : pool.isLive id) :
    id ∈ held ∨ ∃ parent, pool.Child parent id := by
  have positive := refCount_pos_iff.mpr live
  rw [owned.balance, Finset.empty_val, add_zero, Multiset.count_pos, Multiset.mem_add,
    mem_entries] at positive
  refine positive.imp_right fun ⟨parent, alive, _, member⟩ => ?_
  obtain ⟨node, found⟩ := isLive_iff_node?.mp alive
  rw [childrenOf_of_node? found] at member
  exact ⟨parent, node, found, member⟩

theorem exists_holder (owned : pool.Owned ∅ held) {tree : Tree} (shows : pool.Shows id tree) :
    ∃ unit ∈ held, pool.Reaches unit id := by
  generalize room : pool.liveCount - tree.height = above
  induction above using Nat.strongRecOn generalizing id tree with
  | ind above ih =>
    rcases owned.exists_owner shows.isLive with isHeld | ⟨parent, below⟩
    · exact ⟨id, isHeld, .refl⟩
    · have grounded := owned.grounded parent below.isLive_parent (Finset.notMem_empty _)
      obtain ⟨higher, shows'⟩ := grounded.exists_shows
      obtain ⟨tree', again, lower⟩ := shows'.of_child below
      rw [again.height_eq shows] at lower
      have fits := shows'.height_le_liveCount owned.tidy
      obtain ⟨unit, isHeld, reaches⟩ := ih _ (by omega) shows' rfl
      exact ⟨unit, isHeld, reaches.tail below⟩

/-- What is live is what the units in hand reach. -/
theorem isLive_iff_reaches (owned : pool.Owned ∅ held) :
    pool.isLive id ↔ ∃ unit ∈ held, pool.Reaches unit id := by
  constructor
  · intro live
    obtain ⟨tree, shows⟩ := (owned.grounded id live (Finset.notMem_empty _)).exists_shows
    exact owned.exists_holder shows
  · rintro ⟨unit, isHeld, reaches⟩
    exact (owned.of_reaches (owned.of_unit isHeld) reaches).1

end Owned

end SyntaxForest.Pool
