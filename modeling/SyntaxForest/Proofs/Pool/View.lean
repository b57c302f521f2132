import Mathlib.Data.Finset.Card
import Mathlib.Data.Finset.Image
import Mathlib.Data.Finset.Range
import Mathlib.Logic.Function.Basic
import SyntaxForest.Pool.Ownership

/-! # A pool seen through its handles

`slot?` is the only view of a pool that the theory uses: each operation on one node changes it at
one handle. `Tidy` is what makes a slot fit for reuse; it holds of every pool whatever its callers
do, and it ties the free list to the number of live nodes.
-/

namespace SyntaxForest.Pool

/-- The handles of the nodes with owners. -/
def live (pool : Pool) : Finset NodeId :=
  (pool.slots.toList.zipIdx.filterMap fun (slot, index) =>
    if 0 < slot.refCount then some ⟨index, slot.generation⟩ else none).toFinset

/-- The children of a handle, none where it has no node. -/
def childrenOf (pool : Pool) (id : NodeId) : List NodeId :=
  ((pool.node? id).map (·.children)).getD []

/-- The free list holds each slot without owners once, and such a slot is blank. -/
structure Tidy (pool : Pool) : Prop where
  nodup : pool.free.Nodup
  mem_free_iff : ∀ index, index ∈ pool.free ↔
    ∃ slot, pool.slots[index]? = some slot ∧ slot.refCount = 0
  blank : ∀ (index : Nat) slot, pool.slots[index]? = some slot → slot.refCount = 0 →
    slot.node = .blank

section View

variable {pool : Pool} {id other : NodeId} {slot : Slot} {node : Node}

theorem isLive_iff : pool.isLive id ↔ ∃ slot, pool.slot? id = some slot :=
  Option.isSome_iff_exists

theorem node?_eq_some_iff :
    pool.node? id = some node ↔ ∃ slot, pool.slot? id = some slot ∧ slot.node = node :=
  Option.map_eq_some_iff

theorem isLive_iff_node? : pool.isLive id ↔ ∃ node, pool.node? id = some node := by
  simp only [isLive_iff, node?_eq_some_iff, exists_comm (α := Node), exists_eq_right']

theorem isLive_of_node? (found : pool.node? id = some node) : pool.isLive id :=
  isLive_iff_node?.mpr ⟨node, found⟩

theorem childrenOf_of_node? (found : pool.node? id = some node) :
    pool.childrenOf id = node.children := by
  simp only [childrenOf, found, Option.map_some, Option.getD_some]

theorem refCount_of_slot? (found : pool.slot? id = some slot) :
    pool.refCount id = slot.refCount := by
  simp only [refCount, found, Option.map_some, Option.getD_some]

theorem not_isLive_empty (sizing : Sizing) (id : NodeId) : ¬ (empty sizing).isLive id := by
  simp [isLive, slot?, empty]

theorem refCount_pos_iff : 0 < (pool.refCount id).toNat ↔ pool.isLive id := by
  unfold refCount isLive
  cases found : pool.slot? id with
  | none => simp
  | some slot => simpa [UInt32.lt_iff_toNat_lt] using (slot?_eq_some_iff.mp found).2.2

theorem one_lt_refCount (live : pool.isLive id) (several : pool.refCount id ≠ 1) :
    1 < (pool.refCount id).toNat := by
  have positive := refCount_pos_iff.mpr live
  rw [ne_eq, ← UInt32.toNat_inj, UInt32.toNat_one] at several
  omega

theorem refCount_eq_zero (dead : ¬ pool.isLive id) : (pool.refCount id).toNat = 0 := by
  rw [← refCount_pos_iff] at dead
  omega

theorem eq_of_index_eq (first : pool.isLive id) (second : pool.isLive other)
    (same : id.index = other.index) : id = other := by
  obtain ⟨slot, found⟩ := isLive_iff.mp first
  obtain ⟨slot', found'⟩ := isLive_iff.mp second
  obtain ⟨here, generation, _⟩ := slot?_eq_some_iff.mp found
  obtain ⟨here', generation', _⟩ := slot?_eq_some_iff.mp found'
  rw [same] at here
  obtain rfl : slot = slot' := Option.some.inj (here.symm.trans here')
  cases id
  cases other
  simp_all

theorem mem_live : id ∈ pool.live ↔ pool.isLive id := by
  simp only [live, List.mem_toFinset, List.mem_filterMap, Prod.exists, List.mem_zipIdx_iff_getElem?,
    Array.getElem?_toList, isLive_iff, slot?_eq_some_iff]
  constructor
  · rintro ⟨slot, index, here, named⟩
    split at named
    case isTrue owned =>
      obtain rfl := Option.some.inj named
      exact ⟨slot, here, rfl, owned⟩
    case isFalse => cases named
  · rintro ⟨slot, here, generation, owned⟩
    refine ⟨slot, id.index, here, ?_⟩
    rw [if_pos owned, generation]

theorem Tidy.notMem_free (tidy : pool.Tidy) {index : Nat}
    (here : pool.slots[index]? = some slot) (owned : 0 < slot.refCount) : index ∉ pool.free := by
  rw [tidy.mem_free_iff]
  rintro ⟨slot', found, unowned⟩
  obtain rfl : slot = slot' := Option.some.inj (here.symm.trans found)
  exact UInt32.pos_iff_ne_zero.mp owned unowned

theorem Tidy.liveCount_eq_card (tidy : pool.Tidy) : pool.liveCount = pool.live.card := by
  have injective : Set.InjOn NodeId.index pool.live := fun first inFirst second inSecond =>
    eq_of_index_eq (mem_live.mp inFirst) (mem_live.mp inSecond)
  have disjoint : Disjoint (pool.live.image NodeId.index) pool.free.toFinset := by
    refine Finset.disjoint_left.mpr fun index inLive inFree => ?_
    obtain ⟨id, member, rfl⟩ := Finset.mem_image.mp inLive
    obtain ⟨slot, found⟩ := isLive_iff.mp (mem_live.mp member)
    obtain ⟨here, _, owned⟩ := slot?_eq_some_iff.mp found
    exact tidy.notMem_free here owned (List.mem_toFinset.mp inFree)
  have covers : pool.live.image NodeId.index ∪ pool.free.toFinset =
      Finset.range pool.slots.size := by
    ext index
    simp only [Finset.mem_union, Finset.mem_image, mem_live, List.mem_toFinset, Finset.mem_range,
      tidy.mem_free_iff]
    constructor
    · rintro (⟨id, live, rfl⟩ | ⟨slot, here, _⟩)
      · obtain ⟨slot, found⟩ := isLive_iff.mp live
        exact (Array.getElem?_eq_some_iff.mp (slot?_eq_some_iff.mp found).1).1
      · exact (Array.getElem?_eq_some_iff.mp here).1
    · intro inside
      have here := Array.getElem?_eq_getElem inside
      by_cases unowned : pool.slots[index].refCount = 0
      · exact .inr ⟨_, here, unowned⟩
      · refine .inl ⟨⟨index, pool.slots[index].generation⟩, ?_, rfl⟩
        refine isLive_iff.mpr ⟨pool.slots[index], ?_⟩
        exact slot?_eq_some_iff.mpr ⟨here, rfl, UInt32.pos_iff_ne_zero.mpr unowned⟩
  have counted := congrArg Finset.card covers
  rw [Finset.card_union_of_disjoint disjoint, Finset.card_image_of_injOn injective,
    List.toFinset_card_of_nodup tidy.nodup, Finset.card_range] at counted
  rw [liveCount]
  omega

end View

/-! ## Changes at one handle -/

section Change

variable {pool : Pool} {id : NodeId} {old new : Slot} {index : Nat}

/-- A slot is found under its own generation only, and only while it has owners. -/
theorem slot?_of_here (here : pool.slots[index]? = some old) (generation : Word) :
    pool.slot? ⟨index, generation⟩ =
      if old.generation = generation ∧ 0 < old.refCount then some old else none := by
  simp only [slot?, here, Option.filter_some, Bool.and_eq_true, decide_eq_true_eq]

theorem getElem?_setSlot (inside : index < pool.slots.size) (other : Nat) :
    (pool.setSlot index new).slots[other]? =
      if other = index then some new else pool.slots[other]? := by
  rw [setSlot]
  split
  case isTrue same => rw [same, Array.getElem?_setIfInBounds_self, if_pos inside]
  case isFalse differ => rw [Array.getElem?_setIfInBounds_ne (Ne.symm differ)]

theorem slot?_setSlot_here (inside : index < pool.slots.size) (generation : Word) :
    (pool.setSlot index new).slot? ⟨index, generation⟩ =
      if new.generation = generation ∧ 0 < new.refCount then some new else none := by
  apply slot?_of_here
  rw [getElem?_setSlot inside, if_pos rfl]

/-- Whatever is put in the place of a slot, only its own handles can tell. -/
theorem slot?_setSlot_eq_update {found : Option Slot} (inside : index < pool.slots.size)
    (generation : Word)
    (here : (pool.setSlot index new).slot? ⟨index, generation⟩ = found)
    (others : ∀ other, other ≠ generation →
      (pool.setSlot index new).slot? ⟨index, other⟩ = pool.slot? ⟨index, other⟩) :
    (pool.setSlot index new).slot? = Function.update pool.slot? ⟨index, generation⟩ found := by
  funext ⟨otherIndex, other⟩
  by_cases same : otherIndex = index
  · subst same
    by_cases equal : other = generation
    · rw [equal, Function.update_self, here]
    · rw [Function.update_of_ne (by simpa using equal), others other equal]
  · rw [Function.update_of_ne (by simp [same])]
    exact slot?_setSlot_of_ne new (Ne.symm same)

theorem slot?_setSlot_live (found : pool.slot? id = some old)
    (generation : new.generation = id.generation) (owned : 0 < new.refCount) :
    (pool.setSlot id.index new).slot? = Function.update pool.slot? id (some new) := by
  obtain ⟨here, oldGeneration, _⟩ := slot?_eq_some_iff.mp found
  have inside := (Array.getElem?_eq_some_iff.mp here).1
  apply slot?_setSlot_eq_update inside id.generation
  · rw [slot?_setSlot_here inside, if_pos ⟨generation, owned⟩]
  · intro other differ
    rw [slot?_setSlot_here inside, slot?_of_here here, if_neg (by rw [generation]; tauto),
      if_neg (by rw [oldGeneration]; tauto)]

theorem slot?_setSlot_dead (found : pool.slot? id = some old) (unowned : new.refCount = 0) :
    (pool.setSlot id.index new).slot? = Function.update pool.slot? id none := by
  obtain ⟨here, oldGeneration, _⟩ := slot?_eq_some_iff.mp found
  have inside := (Array.getElem?_eq_some_iff.mp here).1
  have gone : ¬ 0 < new.refCount := by simp [unowned]
  apply slot?_setSlot_eq_update inside id.generation
  · rw [slot?_setSlot_here inside, if_neg (by tauto)]
  · intro other differ
    rw [slot?_setSlot_here inside, slot?_of_here here, if_neg (by tauto),
      if_neg (by rw [oldGeneration]; tauto)]

theorem slot?_free (here : pool.slots[index]? = some old) (unowned : old.refCount = 0)
    (generation : Word) : pool.slot? ⟨index, generation⟩ = none := by
  rw [slot?_of_here here, if_neg (by simp [unowned])]

theorem slot?_setSlot_free (here : pool.slots[index]? = some old) (unowned : old.refCount = 0)
    (owned : 0 < new.refCount) :
    (pool.setSlot index new).slot? =
      Function.update pool.slot? ⟨index, new.generation⟩ (some new) := by
  have inside := (Array.getElem?_eq_some_iff.mp here).1
  apply slot?_setSlot_eq_update inside
  · rw [slot?_setSlot_here inside, if_pos ⟨rfl, owned⟩]
  · intro other differ
    rw [slot?_setSlot_here inside, slot?_free here unowned, if_neg (by tauto)]

theorem slot?_size (generation : Word) : pool.slot? ⟨pool.slots.size, generation⟩ = none := by
  simp [slot?]

theorem slot?_push (owned : 0 < new.refCount) :
    ({ pool with slots := pool.slots.push new } : Pool).slot? =
      Function.update pool.slot? ⟨pool.slots.size, new.generation⟩ (some new) := by
  funext ⟨otherIndex, other⟩
  by_cases same : otherIndex = pool.slots.size
  · subst same
    have here : (pool.slots.push new)[pool.slots.size]? = some new := by simp
    rw [slot?_of_here here]
    by_cases equal : other = new.generation
    · rw [equal, Function.update_self, if_pos ⟨rfl, owned⟩]
    · rw [Function.update_of_ne (by simpa using equal), slot?_size, if_neg (by tauto)]
  · rw [Function.update_of_ne (by simp [same])]
    simp only [slot?, Array.getElem?_push, if_neg same]

end Change

end SyntaxForest.Pool
