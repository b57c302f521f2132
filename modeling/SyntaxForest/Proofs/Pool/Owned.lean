import Mathlib.Algebra.BigOperators.Group.Finset.Basic
import Mathlib.Algebra.Order.Group.Multiset
import SyntaxForest.Proofs.Pool.Unfold
import SyntaxForest.Proofs.Pool.Unit

/-! # Who owns the nodes of a pool

`Owned` balances the owners of every node: the units in somebody's hand, and the entries of child
lists. A node with a single owner may be opened, which puts the units of its children into the hand
of that owner; while it is open, what its child list says does not count, so the list may be
rewritten one entry at a time. Nothing that a unit in hand reaches is open.
-/

namespace SyntaxForest.Pool

open PoolM

/-- The child lists of all nodes that are not open, taken together. -/
def entries (pool : Pool) (opened : Finset NodeId) : Multiset NodeId :=
  ∑ id ∈ pool.live \ opened, (pool.childrenOf id : Multiset NodeId)

/-- Every node has as many owners as it counts, and every way down from one ends. -/
structure Owned (pool : Pool) (opened : Finset NodeId) (units : Multiset NodeId) : Prop where
  tidy : pool.Tidy
  balance : ∀ id, (pool.refCount id).toNat = (units + opened.val + pool.entries opened).count id
  alone : ∀ id ∈ opened, (pool.refCount id).toNat = 1
  grounded : ∀ id, pool.isLive id → id ∉ opened → pool.Grounded id

section Entries

variable {pool after : Pool} {opened : Finset NodeId} {id child : NodeId}

theorem mem_entries : child ∈ pool.entries opened ↔
    ∃ id, pool.isLive id ∧ id ∉ opened ∧ child ∈ pool.childrenOf id := by
  simp only [entries, Multiset.mem_sum, Finset.mem_sdiff, mem_live, Multiset.mem_coe, and_assoc]

theorem isLive_congr (same : (after.node? id).map (·.children) =
    (pool.node? id).map (·.children)) : after.isLive id = pool.isLive id := by
  simpa only [isLive, node?, Option.isSome_map] using congrArg Option.isSome same

theorem entries_congr (same : ∀ id ∉ opened, (after.node? id).map (·.children) =
    (pool.node? id).map (·.children)) : after.entries opened = pool.entries opened := by
  have liveness : after.live \ opened = pool.live \ opened := by
    ext id
    simp only [Finset.mem_sdiff, mem_live, and_congr_left_iff]
    intro closed
    rw [isLive_congr (same id closed)]
  rw [entries, entries, liveness]
  refine Finset.sum_congr rfl fun id member => ?_
  simp only [childrenOf, same id (Finset.mem_sdiff.mp member).2]

theorem entries_insert_dead (dead : ¬ pool.isLive id) :
    pool.entries (insert id opened) = pool.entries opened := by
  rw [entries, entries, Finset.sdiff_insert, Finset.erase_eq_of_notMem]
  simp [mem_live, dead]

theorem entries_eq_add (live : pool.isLive id) (closed : id ∉ opened) :
    pool.entries opened = pool.childrenOf id + pool.entries (insert id opened) := by
  rw [entries, entries, Finset.sdiff_insert, Finset.add_sum_erase _
    fun id => (pool.childrenOf id : Multiset NodeId)]
  exact Finset.mem_sdiff.mpr ⟨mem_live.mpr live, closed⟩

end Entries

section Changed

variable {pool after : Pool} {id other : NodeId} {slot : Slot} {found : Option Slot}

theorem Changed.node?_self (changed : pool.Changed id found after) :
    after.node? id = found.map (·.node) := by
  simp only [node?, changed.slot?_eq, Function.update_self]

theorem Changed.node?_of_ne (changed : pool.Changed id found after) (differ : other ≠ id) :
    after.node? other = pool.node? other := by
  simp only [node?, changed.slot?_eq, Function.update_of_ne differ]

theorem Changed.refCount_self (changed : pool.Changed id (some slot) after) :
    after.refCount id = slot.refCount := by
  simp only [refCount, changed.slot?_eq, Function.update_self, Option.map_some, Option.getD_some]

theorem Changed.refCount_of_ne (changed : pool.Changed id found after) (differ : other ≠ id) :
    after.refCount other = pool.refCount other := by
  simp only [refCount, changed.slot?_eq, Function.update_of_ne differ]

/-- A change that takes no owner away. -/
theorem Changed.refCount_le (changed : pool.Changed id (some slot) after)
    (kept : (pool.refCount id).toNat ≤ slot.refCount.toNat) (other : NodeId) :
    (pool.refCount other).toNat ≤ (after.refCount other).toNat := by
  by_cases differ : other = id
  · rw [differ, changed.refCount_self]
    exact kept
  · rw [changed.refCount_of_ne differ]

/-- A change of the owners alone. -/
theorem Changed.node?_eq (changed : pool.Changed id (some slot) after)
    (same : pool.node? id = some slot.node) (other : NodeId) :
    after.node? other = pool.node? other := by
  by_cases differ : other = id
  · rw [differ, changed.node?_self, same, Option.map_some]
  · exact changed.node?_of_ne differ

end Changed

namespace Owned

variable {pool after : Pool} {opened : Finset NodeId} {units : Multiset NodeId}
  {id other child : NodeId} {node : Node}

/-- A unit in hand and an entry of a child list are owners of live nodes that are not open. -/
theorem of_owner (owned : pool.Owned opened units) (owner : id ∈ units + pool.entries opened) :
    pool.isLive id ∧ id ∉ opened := by
  have balance := owned.balance id
  have counted := Multiset.one_le_count_iff_mem.mpr owner
  simp only [Multiset.count_add] at balance counted
  refine ⟨refCount_pos_iff.mp (by omega), fun isOpen => ?_⟩
  have single := owned.alone id isOpen
  have once := Multiset.one_le_count_iff_mem.mpr (Finset.mem_val.mpr isOpen)
  omega

theorem of_unit (owned : pool.Owned opened units) (held : id ∈ units) :
    pool.isLive id ∧ id ∉ opened :=
  owned.of_owner (Multiset.mem_add.mpr (.inl held))

theorem of_open (owned : pool.Owned opened units) (isOpen : id ∈ opened) : pool.isLive id := by
  apply refCount_pos_iff.mp
  rw [owned.alone id isOpen]
  exact Nat.one_pos

theorem of_child (owned : pool.Owned opened units) (parent : pool.isLive id ∧ id ∉ opened)
    (child : pool.Child id other) : pool.isLive other ∧ other ∉ opened := by
  obtain ⟨node, found, member⟩ := child
  refine owned.of_owner (Multiset.mem_add.mpr (.inr (mem_entries.mpr ⟨id, parent.1, parent.2, ?_⟩)))
  rwa [childrenOf_of_node? found]

theorem of_reaches (owned : pool.Owned opened units) (start : pool.isLive id ∧ id ∉ opened)
    (reaches : pool.Reaches id other) : pool.isLive other ∧ other ∉ opened :=
  reaches.closed start fun _ _ => owned.of_child

/-- What happens to open nodes and to new ones is not seen from a unit. -/
theorem keeps (owned : pool.Owned opened units)
    (same : ∀ id, pool.isLive id → id ∉ opened → after.node? id = pool.node? id) :
    pool.Keeps after units := by
  intro id held other reaches
  obtain ⟨live, closed⟩ := owned.of_reaches (owned.of_unit held) reaches
  exact same other live closed

theorem grounded_of_unit (owned : pool.Owned opened units) (held : id ∈ units) :
    pool.Grounded id :=
  owned.grounded id (owned.of_unit held).1 (owned.of_unit held).2

theorem exists_shows (owned : pool.Owned opened units) (held : id ∈ units) :
    ∃ tree, pool.Shows id tree :=
  (owned.grounded_of_unit held).exists_shows

theorem grounded_of_live (owned : pool.Owned ∅ units) (live : pool.isLive id) : pool.Grounded id :=
  owned.grounded id live (Finset.notMem_empty id)

theorem exists_shows_of_live (owned : pool.Owned ∅ units) (live : pool.isLive id) :
    ∃ tree, pool.Shows id tree :=
  (owned.grounded_of_live live).exists_shows

/-- Child lists may change at open nodes only, and owners only as units come and go. -/
theorem adjust {units' : Multiset NodeId} (owned : pool.Owned opened units) (tidy : after.Tidy)
    (children : ∀ id ∉ opened, (after.node? id).map (·.children) =
      (pool.node? id).map (·.children))
    (counts : ∀ id, (after.refCount id).toNat + units.count id =
      (pool.refCount id).toNat + units'.count id)
    (alone : ∀ id ∈ opened, after.refCount id = pool.refCount id) :
    after.Owned opened units' := by
  refine ⟨tidy, fun id => ?_, fun id isOpen => ?_, fun id live closed => ?_⟩
  · have balance := owned.balance id
    have count := counts id
    rw [entries_congr children]
    simp only [Multiset.count_add] at balance ⊢
    omega
  · rw [alone id isOpen]
    exact owned.alone id isOpen
  · have before : pool.isLive id := (isLive_congr (children id closed)).symm.trans live
    refine (owned.grounded id before closed).transfer fun other reaches => ?_
    exact children other (owned.of_reaches ⟨before, closed⟩ reaches).2

/-- A node comes up with one owner, and is open. -/
theorem appear (owned : pool.Owned opened units) (tidy : after.Tidy) (dead : ¬ pool.isLive id)
    (single : after.refCount id = 1)
    (nodes : ∀ other, other ≠ id → after.node? other = pool.node? other)
    (counts : ∀ other, other ≠ id → after.refCount other = pool.refCount other) :
    after.Owned (insert id opened) units := by
  have unopened : id ∉ opened := fun isOpen => dead (owned.of_open isOpen)
  have same : after.entries (insert id opened) = pool.entries opened := by
    rw [← entries_insert_dead dead]
    refine entries_congr fun other closed => ?_
    rw [nodes other fun equal => closed (equal ▸ Finset.mem_insert_self ..)]
  refine ⟨tidy, fun other => ?_, fun other isOpen => ?_, fun other live closed => ?_⟩
  · have balance := owned.balance other
    rw [same, Finset.insert_val_of_notMem unopened]
    simp only [Multiset.count_add, Multiset.count_cons] at balance ⊢
    by_cases equal : other = id
    · subst equal
      have none := refCount_eq_zero dead
      rw [single, if_pos rfl, UInt32.toNat_one]
      omega
    · rw [counts other equal, if_neg equal]
      omega
  · rcases Finset.mem_insert.mp isOpen with rfl | isOpen
    · rw [single, UInt32.toNat_one]
    · rw [counts other fun equal => unopened (equal ▸ isOpen)]
      exact owned.alone other isOpen
  · rw [Finset.mem_insert, not_or] at closed
    have before : pool.isLive other :=
      (isLive_congr (congrArg _ (nodes other closed.1))).symm.trans live
    refine (owned.grounded other before closed.2).transfer fun reached reaches => ?_
    have alive := (owned.of_reaches ⟨before, closed.2⟩ reaches).1
    rw [nodes reached fun equal => dead (equal ▸ alive)]

/-- An open node goes, once the units of its children are in hand. -/
theorem vanish (owned : pool.Owned (insert id opened) units) (unopened : id ∉ opened)
    (tidy : after.Tidy) (dead : ¬ after.isLive id)
    (nodes : ∀ other, other ≠ id → after.node? other = pool.node? other)
    (counts : ∀ other, other ≠ id → after.refCount other = pool.refCount other) :
    after.Owned opened units := by
  have same : after.entries opened = pool.entries (insert id opened) := by
    rw [← entries_insert_dead dead]
    refine entries_congr fun other closed => ?_
    rw [nodes other fun equal => closed (equal ▸ Finset.mem_insert_self ..)]
  refine ⟨tidy, fun other => ?_, fun other isOpen => ?_, fun other live closed => ?_⟩
  · have balance := owned.balance other
    rw [Finset.insert_val_of_notMem unopened] at balance
    rw [same]
    simp only [Multiset.count_add, Multiset.count_cons] at balance ⊢
    by_cases equal : other = id
    · subst equal
      have single := owned.alone other (Finset.mem_insert_self ..)
      have none := refCount_eq_zero dead
      rw [if_pos rfl] at balance
      omega
    · rw [if_neg equal] at balance
      rw [counts other equal]
      omega
  · rw [counts other fun equal => unopened (equal ▸ isOpen)]
    exact owned.alone other (Finset.mem_insert_of_mem isOpen)
  · have differ : other ≠ id := fun equal => dead (equal ▸ live)
    have before : pool.isLive other :=
      (isLive_congr (congrArg _ (nodes other differ))).symm.trans live
    have closed' : other ∉ insert id opened := by simp [differ, closed]
    refine (owned.grounded other before closed').transfer fun reached reaches => ?_
    have outside := (owned.of_reaches ⟨before, closed'⟩ reaches).2
    rw [nodes reached fun equal => outside (equal ▸ Finset.mem_insert_self ..)]

/-- The only owner of a node may take the units of its children into the hand. -/
theorem opens (owned : pool.Owned opened (id ::ₘ units)) (single : (pool.refCount id).toNat = 1)
    (found : pool.node? id = some node) :
    pool.Owned (insert id opened) (units + node.children) := by
  obtain ⟨live, closed⟩ := owned.of_unit (Multiset.mem_cons_self id units)
  refine ⟨owned.tidy, fun other => ?_, fun other isOpen => ?_, fun other live closed' => ?_⟩
  · have balance := owned.balance other
    rw [entries_eq_add live closed, childrenOf_of_node? found] at balance
    rw [Finset.insert_val_of_notMem closed]
    simp only [Multiset.count_add, Multiset.count_cons] at balance ⊢
    omega
  · rcases Finset.mem_insert.mp isOpen with rfl | isOpen
    · exact single
    · exact owned.alone other isOpen
  · exact owned.grounded other live fun isOpen => closed' (Finset.mem_insert_of_mem isOpen)

/-- An open node is closed over the units that its child list names. -/
theorem closes (owned : pool.Owned (insert id opened) (units + node.children))
    (unopened : id ∉ opened) (found : pool.node? id = some node) :
    pool.Owned opened (id ::ₘ units) := by
  refine ⟨owned.tidy, fun other => ?_, fun other isOpen => ?_, fun other live closed => ?_⟩
  · have balance := owned.balance other
    rw [entries_eq_add (isLive_of_node? found) unopened, childrenOf_of_node? found]
    rw [Finset.insert_val_of_notMem unopened] at balance
    simp only [Multiset.count_add, Multiset.count_cons] at balance ⊢
    omega
  · exact owned.alone other (Finset.mem_insert_of_mem isOpen)
  · by_cases equal : other = id
    · subst equal
      refine .intro found fun child member => ?_
      exact owned.grounded_of_unit (Multiset.mem_add.mpr (.inr (Multiset.mem_coe.mpr member)))
    · exact owned.grounded other live (by simp [equal, closed])

end Owned

end SyntaxForest.Pool
