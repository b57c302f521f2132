import SyntaxForest.Pool.Edit
import SyntaxForest.Proofs.Pool.Owned
import SyntaxForest.Proofs.Pool.Unfold

/-! # What stays when nodes are written

To write a node takes no slot and gives none up, whatever it is written with. Where its child list
stays as well, every path leads to the handle that it led to.
-/

namespace SyntaxForest.Pool

open PoolM

/-- No slot has been taken or given up: only the nodes in the slots may differ. -/
structure Steady (pool after : Pool) : Prop where
  size_eq : after.slots.size = pool.slots.size
  free_eq : after.free = pool.free
  slots : ∀ (index : Nat) old, pool.slots[index]? = some old →
    ∃ node, after.slots[index]? = some { old with node }

/-- No slot has been taken or given up, and every child list is as it was. -/
structure Mends (pool after : Pool) : Prop where
  steady : pool.Steady after
  childrenOf_eq : ∀ id, after.childrenOf id = pool.childrenOf id

namespace Steady

variable {pool middle after : Pool} {id : NodeId}

theorem refl (pool : Pool) : pool.Steady pool := ⟨rfl, rfl, fun _ old here => ⟨old.node, here⟩⟩

theorem trans (first : pool.Steady middle) (second : middle.Steady after) : pool.Steady after where
  size_eq := second.size_eq.trans first.size_eq
  free_eq := second.free_eq.trans first.free_eq
  slots := by
    intro index old here
    obtain ⟨node, here'⟩ := first.slots index old here
    exact second.slots index { old with node } here'

theorem of_write {node : Node} (ran : write id node pool = .ok () after) : pool.Steady after := by
  unfold write at ran
  split at ran
  case h_1 => cases ran
  case h_2 slot found =>
    cases ran
    refine ⟨by simp [setSlot], rfl, fun index old here => ?_⟩
    have place := (slot?_eq_some_iff.mp found).1
    rw [getElem?_setSlot (Array.getElem?_eq_some_iff.mp place).1]
    by_cases same : index = id.index
    · subst same
      cases here.symm.trans place
      exact ⟨node, if_pos rfl⟩
    · exact ⟨old.node, (if_neg same).trans here⟩

theorem refCount_eq (steady : pool.Steady after) (id : NodeId) :
    after.refCount id = pool.refCount id := by
  cases here : pool.slots[id.index]? with
  | none =>
    have outside : after.slots[id.index]? = none := by
      rw [Array.getElem?_eq_none_iff] at here ⊢
      rwa [steady.size_eq]
    simp only [refCount, slot?, here, outside]
  | some old =>
    obtain ⟨node, here'⟩ := steady.slots id.index old here
    simp only [refCount, slot?, here, here', Option.filter_some]
    split <;> rfl

theorem isLive_iff (steady : pool.Steady after) (id : NodeId) :
    after.isLive id ↔ pool.isLive id := by
  rw [← refCount_pos_iff, steady.refCount_eq, refCount_pos_iff]

theorem liveCount_eq (steady : pool.Steady after) : after.liveCount = pool.liveCount := by
  rw [liveCount, liveCount, steady.size_eq, steady.free_eq]

end Steady

theorem child_iff {pool : Pool} {parent child : NodeId} :
    pool.Child parent child ↔ child ∈ pool.childrenOf parent := by
  unfold Child childrenOf
  cases pool.node? parent <;> simp

/-! ## Writes -/

section Writes

variable {pool after : Pool} {id : NodeId}

namespace Mends

theorem refl (pool : Pool) : pool.Mends pool := ⟨.refl pool, fun _ => rfl⟩

theorem of_record {event : Event} (ran : record event pool = .ok () after) : pool.Mends after := by
  cases ran
  exact ⟨⟨rfl, rfl, fun _ old here => ⟨old.node, here⟩⟩, fun _ => rfl⟩

theorem of_write {node : Node} (ran : write id node pool = .ok () after)
    (same : node.children = pool.childrenOf id) : pool.Mends after := by
  obtain ⟨_, _, changed⟩ := changed_of_write ran
  refine ⟨.of_write ran, fun other => ?_⟩
  by_cases differ : other = id
  · rw [differ, childrenOf_of_node? changed.node?_self, same]
  · rw [childrenOf, childrenOf, changed.node?_of_ne differ]

/-- A node that is written over its own child list. -/
theorem of_write_node {node : Node} {info : NodeInfo} (read : pool.node id = .ok node)
    (ran : write id ⟨info, node.children⟩ pool = .ok () after) : pool.Mends after :=
  of_write ran (childrenOf_of_node? (node_eq_ok_iff.mp read)).symm

theorem of_changeNode {edit : TextEdit} {tasks : List EditTask}
    (ran : changeNode edit id pool = .ok tasks after) : pool.Mends after := by
  obtain ⟨node, read, ran⟩ := bind_query_eq_ok ran
  obtain ⟨info, _, ran⟩ := bind_sum_eq_ok ran
  obtain ⟨_, written, wrote, ran⟩ := bind_eq_ok ran
  have mends := of_write_node read wrote
  split at ran
  case isTrue =>
    cases ran
    exact mends
  case isFalse =>
    obtain ⟨oldEnd, _, ran⟩ := bind_sum_eq_ok ran
    obtain ⟨_, rfl⟩ := query_eq_ok ran
    exact mends

theorem of_flagNode {offset : Word} {tasks : List EditTask}
    (ran : flagNode offset id pool = .ok tasks after) : pool.Mends after := by
  obtain ⟨_, written, amended, ran⟩ := bind_eq_ok ran
  obtain ⟨node, read, wrote⟩ := bind_query_eq_ok amended
  obtain ⟨_, rfl⟩ := query_eq_ok ran
  exact of_write_node read wrote

theorem of_summarize (ran : summarize id pool = .ok () after) : pool.Mends after := by
  obtain ⟨node, read, ran⟩ := bind_query_eq_ok ran
  obtain ⟨lengths, _, wrote⟩ := bind_query_eq_ok ran
  exact of_write_node read wrote

end Mends

end Writes

/-! ## What is found below a handle -/

section Below

/-- The child lists below the handle are as they were, its own among them. -/
def SameBelow (pool after : Pool) (id : NodeId) : Prop :=
  ∀ other, pool.Reaches id other → after.childrenOf other = pool.childrenOf other

/-- The handle at the end of a path, which tells the index of a child at each step down. -/
def idAt? (pool : Pool) (id : NodeId) : List Nat → Option NodeId
  | [] => some id
  | index :: path => (pool.childrenOf id)[index]?.bind (pool.idAt? · path)

/-- Every node on the path, from the first to the one at its end, has one owner. -/
def Solo (pool : Pool) (id : NodeId) : List Nat → Prop
  | [] => pool.refCount id = 1
  | index :: path =>
    pool.refCount id = 1 ∧ ∀ child ∈ (pool.childrenOf id)[index]?, pool.Solo child path

variable {pool middle after : Pool} {id place child other : NodeId} {index : Nat} {path : List Nat}

theorem idAt?_cons_eq_some_iff : pool.idAt? id (index :: path) = some place ↔
    ∃ child, (pool.childrenOf id)[index]? = some child ∧ pool.idAt? child path = some place := by
  rw [idAt?, Option.bind_eq_some_iff]

theorem Solo.here (solo : pool.Solo id path) : pool.refCount id = 1 := by
  cases path with
  | nil => exact solo
  | cons index path => exact solo.1

theorem Mends.sameBelow (mends : pool.Mends after) (id : NodeId) : pool.SameBelow after id :=
  fun other _ => mends.childrenOf_eq other

theorem Keeps.sameBelow {units : Multiset NodeId} (keeps : pool.Keeps after units)
    (held : id ∈ units) : pool.SameBelow after id :=
  fun other reaches => by rw [childrenOf, childrenOf, keeps id held other reaches]

namespace SameBelow

theorem of_child (same : pool.SameBelow after id) (below : pool.Child id child) :
    pool.SameBelow after child :=
  fun other reaches => same other (.head below reaches)

theorem reaches_iff (same : pool.SameBelow after id) :
    after.Reaches id other ↔ pool.Reaches id other := by
  constructor
  · intro reaches
    induction reaches with
    | refl => exact .refl
    | @tail parent child _ last ih =>
      rw [child_iff, same parent ih, ← child_iff] at last
      exact ih.tail last
  · intro reaches
    induction reaches with
    | refl => exact .refl
    | @tail parent child above last ih =>
      rw [child_iff, ← same parent above, ← child_iff] at last
      exact ih.tail last

theorem trans (first : pool.SameBelow middle id) (second : middle.SameBelow after id) :
    pool.SameBelow after id :=
  fun other reaches => (second other (first.reaches_iff.mpr reaches)).trans (first other reaches)

/-- Where a path leads depends only on the child lists on it. -/
theorem idAt?_eq (same : pool.SameBelow after id) (path : List Nat) :
    after.idAt? id path = pool.idAt? id path := by
  induction path generalizing id with
  | nil => rfl
  | cons index path ih =>
    rw [idAt?, idAt?, same id .refl]
    refine Option.bind_congr fun child isChild => ?_
    exact ih (same.of_child (child_iff.mpr (List.mem_of_getElem? isChild)))

end SameBelow

theorem Solo.congr (solo : pool.Solo id path) (steady : pool.Steady after)
    (same : pool.SameBelow after id) : after.Solo id path := by
  have single : after.refCount id = 1 := by rw [steady.refCount_eq, solo.here]
  induction path generalizing id with
  | nil => exact single
  | cons index path ih =>
    refine ⟨single, fun child isChild => ?_⟩
    rw [same id .refl] at isChild
    have solo' := solo.2 child isChild
    exact ih solo' (same.of_child (child_iff.mpr (List.mem_of_getElem? isChild)))
      (by rw [steady.refCount_eq, solo'.here])

end Below

end SyntaxForest.Pool
