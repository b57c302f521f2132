import SyntaxForest.Proofs.Pool.Balance

/-! # Units that are not the caller's

A caller may give up a unit of any live node, also where the unit is in a child list. The counts of
that node are then one short, but it is not met again: what goes with the unit is below the node,
and no way down leads back. Every other unit that is pending has been counted.
-/

namespace SyntaxForest.Pool

variable {pool after : Pool} {start id other : NodeId} {slot : Slot} {node : Node}
  {pending held : Multiset NodeId}

/-! ## One unit -/

/-- What the loss of one owner comes to: the child list of a node that goes is no longer counted,
and its units are owed. -/
structure Drops (pool : Pool) (id : NodeId) (owed : List NodeId) (after : Pool) : Prop where
  entries : pool.entries ∅ = owed + after.entries ∅
  counts : ∀ other, (after.refCount other).toNat + (if other = id then 1 else 0) =
    (pool.refCount other).toNat
  below : ∀ child ∈ owed, pool.Child id child
  reaches : ∀ {start other}, after.Reaches start other → pool.Reaches start other

theorem Changed.drops_shared {refCount : Word} (found : pool.slot? id = some slot)
    (fewer : refCount.toNat + 1 = slot.refCount.toNat)
    (changed : pool.Changed id (some { slot with refCount }) after) : pool.Drops id [] after := by
  have nodes := changed.node?_eq (node?_eq_some_iff.mpr ⟨slot, found, rfl⟩)
  refine ⟨?_, fun other => ?_, nofun, fun reaches => reaches.transfer_back fun _ _ => nodes _⟩
  · rw [Multiset.coe_nil, zero_add]
    exact (entries_congr fun other _ => congrArg _ (nodes other)).symm
  · split
    case isTrue same => rw [same, changed.refCount_self, refCount_of_slot? found, ← fewer]
    case isFalse differ => rw [changed.refCount_of_ne differ, Nat.add_zero]

theorem Changed.drops_last (found : pool.slot? id = some slot) (last : slot.refCount = 1)
    (changed : pool.Changed id none after) : pool.Drops id slot.node.children after := by
  have node : pool.node? id = some slot.node := node?_eq_some_iff.mpr ⟨slot, found, rfl⟩
  have missing : after.slot? id = none := by rw [changed.slot?_eq, Function.update_self]
  have dead : ¬ after.isLive id := by simp [isLive, missing]
  refine ⟨?_, fun other => ?_, fun child => child_of_mem node, fun reaches => ?_⟩
  · rw [entries_eq_add (isLive_of_node? node) (Finset.notMem_empty id), childrenOf_of_node? node,
      ← entries_insert_dead dead]
    congr 1
    refine (entries_congr fun other closed => ?_).symm
    rw [changed.node?_of_ne fun same => closed (same ▸ Finset.mem_insert_self ..)]
  · split
    case isTrue same =>
      rw [same, refCount_eq_zero dead, refCount_of_slot? found, last, UInt32.toNat_one]
    case isFalse differ => rw [changed.refCount_of_ne differ, Nat.add_zero]
  · refine Relation.ReflTransGen.mono ?_ _ _ reaches
    rintro parent child ⟨node', found', member⟩
    have differ : parent ≠ id := by
      rintro rfl
      exact dead (isLive_of_node? found')
    exact ⟨node', (changed.node?_of_ne differ).symm.trans found', member⟩

theorem exists_drops (live : pool.isLive id) :
    ∃ owed after, dropUnit id pool = .ok owed after ∧ pool.Drops id owed after := by
  obtain ⟨slot, found⟩ := isLive_iff.mp live
  by_cases last : slot.refCount = 1
  · obtain ⟨after, ran, changed⟩ := dropUnit_last found last
    exact ⟨_, after, ran, changed.drops_last found last⟩
  · have shared := one_lt_refCount live (refCount_of_slot? found ▸ last)
    rw [refCount_of_slot? found] at shared
    obtain ⟨after, ran, refCount, fewer, changed⟩ := dropUnit_shared found shared
    exact ⟨_, after, ran, changed.drops_shared found fewer⟩

/-! ## Pending units -/

/-- Pending units and child lists account for no more owners than there are, and no way down from a
pending unit leads to the start. -/
structure Backed (pool : Pool) (start : NodeId) (pending : Multiset NodeId) : Prop where
  counted : ∀ id, id ≠ start → (pending + pool.entries ∅).count id ≤ (pool.refCount id).toNat
  apart : ∀ id ∈ pending, ¬ pool.Reaches id start

namespace Backed

theorem dropUnit (backed : pool.Backed start (id ::ₘ pending)) :
    ∃ owed after, Pool.dropUnit id pool = .ok owed after ∧
      after.Backed start (owed + pending) := by
  have first := backed.apart id (Multiset.mem_cons_self id pending)
  have counted := backed.counted id fun same => first (same ▸ .refl)
  rw [Multiset.cons_add, Multiset.count_cons_self] at counted
  have live := refCount_pos_iff.mp (Nat.lt_of_lt_of_le (Nat.succ_pos _) counted)
  obtain ⟨owed, after, ran, drops⟩ := exists_drops live
  refine ⟨owed, after, ran, fun other differ => ?_, fun other member reaches => ?_⟩
  · have before := backed.counted other differ
    have counts := drops.counts other
    rw [drops.entries] at before
    simp only [Multiset.cons_add, Multiset.count_cons, Multiset.count_add] at before ⊢
    omega
  · rcases Multiset.mem_add.mp member with new | old
    · exact first (.head (drops.below other (Multiset.mem_coe.mp new)) (drops.reaches reaches))
    · exact backed.apart other (Multiset.mem_cons_of_mem old) (drops.reaches reaches)

/-- All pending units can be given up, and all that goes with them. -/
theorem releaseAll (pending : List NodeId) (backed : pool.Backed start pending) :
    ∃ after, Pool.releaseAll pending pool = .ok () after := by
  fun_induction Pool.releaseAll pending pool with
  | case1 pool => exact ⟨pool, rfl⟩
  | case2 pool id rest owed middle ran ih =>
    rw [← Multiset.cons_coe] at backed
    obtain ⟨owed', middle', ran', backed'⟩ := backed.dropUnit
    cases ran.symm.trans ran'
    exact ih (by rwa [← Multiset.coe_add, Multiset.coe_reverse])
  | case3 pool id rest fault after ran =>
    rw [← Multiset.cons_coe] at backed
    obtain ⟨_, _, ran', _⟩ := backed.dropUnit
    cases ran.symm.trans ran'

end Backed

/-- A unit of any live node can be given up, whoever holds it. -/
theorem Owned.release_live (owned : pool.Owned ∅ held) (live : pool.isLive id) :
    ∃ after, release id pool = .ok () after := by
  obtain ⟨tree, shows⟩ := (owned.grounded id live (Finset.notMem_empty _)).exists_shows
  obtain ⟨owed, middle, ran, drops⟩ := exists_drops live
  rw [release, releaseAll_cons ran]
  apply Backed.releaseAll
  rw [List.append_nil, Multiset.coe_reverse]
  constructor
  case start => exact id
  case counted =>
    intro other differ
    have balance := owned.balance other
    have counts := drops.counts other
    rw [drops.entries] at balance
    simp only [Multiset.count_add, if_neg differ] at balance counts ⊢
    omega
  case apart =>
    intro child member reaches
    have below := drops.below child (Multiset.mem_coe.mp member)
    exact shows.not_reaches_of_child below (drops.reaches reaches)

end SyntaxForest.Pool
