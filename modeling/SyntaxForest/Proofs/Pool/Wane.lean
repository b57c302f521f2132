import Mathlib.Algebra.GroupWithZero.Nat
import SyntaxForest.Proofs.Pool.Balance
import SyntaxForest.Proofs.Pool.Course
import SyntaxForest.Proofs.Pool.Handover

/-! # What a release leaves of a pool

A release takes owners away and does nothing else. `Wanes` tells slot by slot what that does to a
pool, whoever asks for it: a slot that lost its last owner moved on by one generation, is blank and
went in front of the free list; any other slot has its node still. In what order the units were given
up cannot be told from the slots, since it only depends on who still owns what.
-/

namespace SyntaxForest.Pool

/-- The second pool is the first without some of its owners, and without the nodes that were freed
on the way, the last of them first. -/
structure Wanes (pool : Pool) (freed : List NodeId) (after : Pool) : Prop where
  frame : after = { pool with slots := after.slots, free := freed.map (·.index) ++ pool.free }
  size : after.slots.size = pool.slots.size
  live : ∀ id ∈ freed, pool.isLive id
  lost : ∀ (index : Nat) old, pool.slots[index]? = some old → index ∈ freed.map (·.index) →
    after.slots[index]? = some ⟨old.generation + 1, 0, .blank⟩
  kept : ∀ (index : Nat) old, pool.slots[index]? = some old → index ∉ freed.map (·.index) →
    ∃ refCount, after.slots[index]? = some { old with refCount } ∧
      (refCount = 0 ↔ old.refCount = 0)

namespace Wanes

variable {pool middle after after' : Pool} {freed freed' : List NodeId} {id : NodeId}

theorem refl (pool : Pool) : pool.Wanes [] pool where
  frame := rfl
  size := rfl
  live := by simp
  lost := by simp
  kept := fun _ old here _ => ⟨old.refCount, here, Iff.rfl⟩

theorem of_setSlot {old new : Slot} (free : List Nat) (found : pool.slot? id = some old)
    (listed : free = freed.map (·.index) ++ pool.free)
    (changes : freed = [id] ∧ new = ⟨old.generation + 1, 0, .blank⟩ ∨
      freed = [] ∧ ∃ refCount, new = { old with refCount } ∧ refCount ≠ 0) :
    pool.Wanes freed (({ pool with free } : Pool).setSlot id.index new) := by
  obtain ⟨here, _, owned⟩ := slot?_eq_some_iff.mp found
  have inside := (Array.getElem?_eq_some_iff.mp here).1
  have slots := @getElem?_setSlot { pool with free } new _ inside
  refine ⟨by rw [listed]; rfl, Array.size_setIfInBounds, ?_, fun index was now gone => ?_,
    fun index was now stays => ?_⟩
  · rintro other member
    obtain ⟨rfl, _⟩ | ⟨rfl, _⟩ := changes
    · obtain rfl := List.mem_singleton.mp member
      exact isLive_iff.mpr ⟨old, found⟩
    · cases member
  · obtain ⟨rfl, rfl⟩ | ⟨rfl, _⟩ := changes
    · obtain rfl := List.mem_singleton.mp gone
      cases here.symm.trans now
      rw [slots, if_pos rfl]
    · cases gone
  · rw [slots]
    split
    case isTrue same =>
      subst same
      cases here.symm.trans now
      obtain ⟨rfl, _⟩ | ⟨_, refCount, rfl, positive⟩ := changes
      · exact (stays List.mem_cons_self).elim
      · exact ⟨refCount, rfl, iff_of_false positive (UInt32.pos_iff_ne_zero.mp owned)⟩
    case isFalse => exact ⟨was.refCount, now, Iff.rfl⟩

theorem of_dropUnit {owed : List NodeId} (ran : dropUnit id pool = .ok owed after) :
    ∃ freed, pool.Wanes freed after := by
  obtain ⟨slot, found, ⟨_, _, rfl⟩ | ⟨several, _, rfl⟩⟩ := dropUnit_cases ran
  · exact ⟨[id], of_setSlot _ found rfl (.inl ⟨rfl, rfl⟩)⟩
  · refine ⟨[], of_setSlot pool.free found rfl (.inr ⟨rfl, _, rfl, fun none => ?_⟩)⟩
    have counted := Word.toNat_sub_one (slot?_eq_some_iff.mp found).2.2
    rw [none, UInt32.toNat_zero, Nat.zero_add] at counted
    exact several (UInt32.toNat_inj.mp counted.symm)

/-- What is live had an owner before, in a slot that has lost none of its nodes. -/
theorem isLive_iff (wanes : pool.Wanes freed after) :
    after.isLive id ↔ pool.isLive id ∧ id.index ∉ freed.map (·.index) := by
  simp only [isLive_iff_slots]
  constructor
  · rintro ⟨slot, now, generation, owned⟩
    have inside := (Array.getElem?_eq_some_iff.mp now).1
    have before := Array.getElem?_eq_getElem (wanes.size ▸ inside)
    by_cases gone : id.index ∈ freed.map (·.index)
    · cases now.symm.trans (wanes.lost _ _ before gone)
      exact (UInt32.pos_iff_ne_zero.mp owned rfl).elim
    · obtain ⟨refCount, now', unowned_iff⟩ := wanes.kept _ _ before gone
      cases now.symm.trans now'
      refine ⟨⟨_, before, generation, UInt32.pos_iff_ne_zero.mpr fun none => ?_⟩, gone⟩
      exact UInt32.pos_iff_ne_zero.mp owned (unowned_iff.mpr none)
  · rintro ⟨⟨old, before, generation, owned⟩, stays⟩
    obtain ⟨refCount, now, unowned_iff⟩ := wanes.kept _ _ before stays
    refine ⟨_, now, generation, UInt32.pos_iff_ne_zero.mpr fun none => ?_⟩
    exact UInt32.pos_iff_ne_zero.mp owned (unowned_iff.mp none)

theorem trans (first : pool.Wanes freed middle) (second : middle.Wanes freed' after) :
    pool.Wanes (freed' ++ freed) after := by
  have apart {index : Nat} (gone : index ∈ freed.map (·.index)) : index ∉ freed'.map (·.index) := by
    intro again
    obtain ⟨id, member, rfl⟩ := List.mem_map.mp again
    exact (first.isLive_iff.mp (second.live id member)).2 gone
  refine ⟨?_, second.size.trans first.size, fun id member => ?_, fun index old before gone => ?_,
    fun index old before stays => ?_⟩
  · rw [List.map_append, List.append_assoc, second.frame, first.frame]
  · obtain later | earlier := List.mem_append.mp member
    · exact (first.isLive_iff.mp (second.live id later)).1
    · exact first.live id earlier
  · rw [List.map_append, List.mem_append] at gone
    by_cases earlier : index ∈ freed.map (·.index)
    · obtain ⟨refCount, now, unowned_iff⟩ :=
        second.kept index _ (first.lost index old before earlier) (apart earlier)
      rw [now, unowned_iff.mpr rfl]
    · obtain ⟨refCount, between, _⟩ := first.kept index old before earlier
      have now := second.lost index _ between (gone.resolve_right earlier)
      exact now
  · rw [List.map_append, List.mem_append, not_or] at stays
    obtain ⟨refCount, between, unowned_iff⟩ := first.kept index old before stays.2
    obtain ⟨refCount', now, unowned_iff'⟩ := second.kept index _ between stays.1
    exact ⟨refCount', now, unowned_iff'.trans unowned_iff⟩

theorem of_releaseAll {pending : List NodeId} (ran : releaseAll pending pool = .ok () after) :
    ∃ freed, pool.Wanes freed after := by
  fun_induction releaseAll pending pool with
  | case1 pool =>
    cases ran
    exact ⟨[], .refl _⟩
  | case2 pool id rest owed middle dropped ih =>
    obtain ⟨freed, first⟩ := of_dropUnit dropped
    obtain ⟨freed', second⟩ := ih ran
    exact ⟨freed' ++ freed, first.trans second⟩
  | case3 => cases ran

theorem nodup (wanes : pool.Wanes freed after) (tidy : after.Tidy) : freed.Nodup := by
  have nodup := tidy.nodup
  rw [wanes.frame] at nodup
  exact .of_map _ (List.nodup_append.mp nodup).1

theorem mem_freed_iff (wanes : pool.Wanes freed after) :
    id ∈ freed ↔ pool.isLive id ∧ ¬ after.isLive id := by
  rw [wanes.isLive_iff, not_and_not_right]
  constructor
  · intro member
    exact ⟨wanes.live id member, fun _ => List.mem_map_of_mem member⟩
  · rintro ⟨live, gone⟩
    obtain ⟨other, member, same⟩ := List.mem_map.mp (gone live)
    rwa [← eq_of_index_eq (wanes.live other member) live same]

/-- A slot that still has an owner differs in their number alone. -/
theorem slot?_eq (wanes : pool.Wanes freed after) (live : after.isLive id) :
    ∃ old refCount, pool.slot? id = some old ∧ after.slot? id = some { old with refCount } := by
  obtain ⟨before, stays⟩ := wanes.isLive_iff.mp live
  obtain ⟨old, found⟩ := Pool.isLive_iff.mp before
  obtain ⟨new, found'⟩ := Pool.isLive_iff.mp live
  obtain ⟨refCount, now, _⟩ := wanes.kept _ _ (slot?_eq_some_iff.mp found).1 stays
  cases now.symm.trans (slot?_eq_some_iff.mp found').1
  exact ⟨old, refCount, found, found'⟩

theorem node?_eq (wanes : pool.Wanes freed after) (live : after.isLive id) :
    after.node? id = pool.node? id := by
  obtain ⟨old, refCount, found, found'⟩ := wanes.slot?_eq live
  rw [node?, node?, found, found']
  rfl

/-- The entries of child lists that are gone are those of the nodes that were freed. -/
theorem occurrences_eq (wanes : pool.Wanes freed after) (tidy : after.Tidy) (child : NodeId) :
    pool.occurrences child =
      after.occurrences child + (freed.map fun id => (pool.childrenOf id).count child).sum := by
  have parts : pool.live = after.live ∪ freed.toFinset := by
    ext id
    rw [Finset.mem_union, List.mem_toFinset, wanes.mem_freed_iff, mem_live, mem_live]
    by_cases live : after.isLive id
    · simp [live, (wanes.isLive_iff.mp live).1]
    · simp [live]
  have disjoint : Disjoint after.live freed.toFinset := by
    refine Finset.disjoint_left.mpr fun id isLive isFreed => ?_
    exact (wanes.mem_freed_iff.mp (List.mem_toFinset.mp isFreed)).2 (mem_live.mp isLive)
  rw [occurrences, occurrences, parts, Finset.sum_union disjoint,
    List.sum_toFinset _ (wanes.nodup tidy)]
  congr 1
  refine Finset.sum_congr rfl fun id isLive => ?_
  rw [childrenOf, childrenOf, wanes.node?_eq (mem_live.mp isLive)]

end Wanes

/-! ## What is left for the units in hand -/

section Owned

variable {pool after after' : Pool} {freed freed' : List NodeId} {units : Multiset NodeId}
  {id other : NodeId}

/-- A node is freed if no unit reaches it any more. -/
theorem Wanes.mem_freed_iff_reaches (wanes : pool.Wanes freed after) (owned : after.Owned ∅ units)
    (keeps : pool.Keeps after units) :
    other ∈ freed ↔ pool.isLive other ∧ ∀ unit ∈ units, ¬ pool.Reaches unit other := by
  rw [wanes.mem_freed_iff, owned.isLive_iff_reaches]
  refine and_congr_right fun _ => ?_
  rw [not_exists]
  simp only [not_and]
  exact forall₂_congr fun unit isHeld => not_congr (keeps.reaches_iff isHeld)

/-- Whatever was given up, and in what order, the slots only depend on the units that are left, and
so does the free list but for its order. -/
theorem Wanes.confluent (wanes : pool.Wanes freed after) (wanes' : pool.Wanes freed' after')
    (owned : after.Owned ∅ units) (owned' : after'.Owned ∅ units) (keeps : pool.Keeps after units)
    (keeps' : pool.Keeps after' units) : after'.slots = after.slots ∧ after'.free.Perm after.free := by
  have perm : freed'.Perm freed := by
    refine (List.perm_ext_iff_of_nodup (wanes'.nodup owned'.tidy) (wanes.nodup owned.tidy)).mpr
      fun other => ?_
    rw [wanes.mem_freed_iff_reaches owned keeps, wanes'.mem_freed_iff_reaches owned' keeps']
  have indices := perm.map (·.index)
  have counts (other : NodeId) : (after'.refCount other).toNat = (after.refCount other).toNat := by
    have occurs := wanes.occurrences_eq owned.tidy other
    have occurs' := wanes'.occurrences_eq owned'.tidy other
    rw [(perm.map fun id => (pool.childrenOf id).count other).sum_eq] at occurs'
    rw [owned.refCount_eq, owned'.refCount_eq]
    omega
  refine ⟨Array.ext_getElem? fun index => ?_, ?_⟩
  · cases before : pool.slots[index]? with
    | none =>
      have outside := Array.getElem?_eq_none_iff.mp before
      rw [Array.getElem?_eq_none (wanes'.size ▸ outside),
        Array.getElem?_eq_none (wanes.size ▸ outside)]
    | some old =>
      by_cases gone : index ∈ freed.map (·.index)
      · rw [wanes.lost _ _ before gone, wanes'.lost _ _ before (indices.mem_iff.mpr gone)]
      · obtain ⟨refCount, now, unowned_iff⟩ := wanes.kept _ _ before gone
        obtain ⟨refCount', now', unowned_iff'⟩ :=
          wanes'.kept _ _ before (mt indices.mem_iff.mp gone)
        suffices same : refCount' = refCount by rw [now, now', same]
        by_cases unowned : old.refCount = 0
        · rw [unowned_iff.mpr unowned, unowned_iff'.mpr unowned]
        · have found : after.slot? ⟨index, old.generation⟩ = some { old with refCount } :=
            slot?_eq_some_iff.mpr ⟨now, rfl, UInt32.pos_iff_ne_zero.mpr (mt unowned_iff.mp unowned)⟩
          have found' : after'.slot? ⟨index, old.generation⟩ = some { old with refCount := refCount' } :=
            slot?_eq_some_iff.mpr
              ⟨now', rfl, UInt32.pos_iff_ne_zero.mpr (mt unowned_iff'.mp unowned)⟩
          have count := counts ⟨index, old.generation⟩
          rw [refCount_of_slot? found, refCount_of_slot? found'] at count
          exact UInt32.toNat_inj.mp count
  · rw [wanes.frame, wanes'.frame]
    exact indices.append_right _

theorem Owned.release_wanes (owned : pool.Owned ∅ (id ::ₘ units)) :
    ∃ freed after, Pool.release id pool = .ok () after ∧ after.Owned ∅ units ∧ pool.Keeps after units ∧
      pool.Wanes freed after := by
  obtain ⟨after, ran, owned', keeps⟩ := owned.release
  obtain ⟨freed, wanes⟩ := Wanes.of_releaseAll ran
  exact ⟨freed, after, ran, owned', keeps, wanes⟩

end Owned

end SyntaxForest.Pool
