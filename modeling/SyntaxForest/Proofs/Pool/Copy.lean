import SyntaxForest.Proofs.Edit.Carry
import SyntaxForest.Proofs.Pool.Balance
import SyntaxForest.Proofs.Pool.Steady
import SyntaxForest.Proofs.Pool.Yields

/-! # Copies of shared nodes

A node is copied when it has an owner beside the one whose unit is in hand. Another unit that
reaches it is a sign of such an owner; where a node has only one, every way down to it is through
that owner. The copy has a handle of its own, and changes the number of owners of the node and of
its children alone.
-/

namespace SyntaxForest.Pool

open PoolM

/-! ## Owners seen from units -/

namespace Owned

variable {pool : Pool} {opened : Finset NodeId} {units : Multiset NodeId} {id child unit : NodeId}

/-- A node that another unit reaches has another owner. -/
theorem several_of_reaches (owned : pool.Owned opened (id ::ₘ units)) (held : unit ∈ units)
    (reaches : pool.Reaches unit id) : pool.refCount id ≠ 1 := by
  have owners := owned.balance id
  simp only [Multiset.count_add, Multiset.count_cons_self] at owners
  have second : 1 ≤ units.count id + (pool.entries opened).count id := by
    rcases reaches.cases_tail with same | ⟨parent, above, isChild⟩
    · have counted := Multiset.one_le_count_iff_mem.mpr held
      rw [← same] at counted
      omega
    · obtain ⟨live, closed⟩ :=
        owned.of_reaches (owned.of_unit (Multiset.mem_cons_of_mem held)) above
      have entry := mem_entries.mpr ⟨parent, live, closed, child_iff.mp isChild⟩
      have counted := Multiset.one_le_count_iff_mem.mpr entry
      omega
  intro single
  rw [single, UInt32.toNat_one] at owners
  omega

/-- A node with another owner is reached by another unit: no way leads from the node back to it. -/
theorem exists_reaches (owned : pool.Owned ∅ (id ::ₘ units)) (several : pool.refCount id ≠ 1) :
    ∃ unit ∈ units, pool.Reaches unit id := by
  have live := (owned.of_unit (Multiset.mem_cons_self id units)).1
  have owners := owned.refCount_eq id
  have shared := one_lt_refCount live several
  rw [Multiset.count_cons_self] at owners
  by_cases held : id ∈ units
  · exact ⟨id, held, .refl⟩
  · rw [Multiset.count_eq_zero.mpr held, ← count_entries] at owners
    have entry : id ∈ pool.entries ∅ := Multiset.count_pos.mp (by omega)
    obtain ⟨parent, alive, closed, member⟩ := mem_entries.mp entry
    have below := child_iff.mpr member
    obtain ⟨tree, shows⟩ := (owned.grounded parent alive closed).exists_shows
    obtain ⟨unit, isHeld, reaches⟩ := owned.exists_holder shows
    obtain rfl | isHeld := Multiset.mem_cons.mp isHeld
    · exact absurd reaches (shows.not_reaches_of_child below)
    · exact ⟨unit, isHeld, reaches.tail below⟩

/-- What reaches a node with one owner reaches that owner. -/
theorem reaches_parent (owned : pool.Owned opened units) (live : pool.isLive id ∧ id ∉ opened)
    (isChild : pool.Child id child) (single : pool.refCount child = 1) (held : unit ∈ units)
    (reaches : pool.Reaches unit child) : pool.Reaches unit id := by
  by_contra apart
  have owners := owned.balance child
  rw [entries_eq_add live.1 live.2, single, UInt32.toNat_one] at owners
  have here := Multiset.one_le_count_iff_mem.mpr (Multiset.mem_coe.mpr (child_iff.mp isChild))
  simp only [Multiset.count_add] at owners
  rcases reaches.cases_tail with same | ⟨parent, above, isChild'⟩
  · have counted := Multiset.one_le_count_iff_mem.mpr held
    rw [← same] at counted
    omega
  · have differ : parent ≠ id := fun same => apart (same ▸ above)
    obtain ⟨live', closed⟩ := owned.of_reaches (owned.of_unit held) above
    have entry : child ∈ pool.entries (insert id opened) :=
      mem_entries.mpr ⟨parent, live', by simp [differ, closed], child_iff.mp isChild'⟩
    have counted := Multiset.one_le_count_iff_mem.mpr entry
    omega

end Owned

/-! ## A node made unique -/

section Unique

variable {pool after : Pool} {child id other : NodeId}

theorem refCount_of_retainAll {ids : List NodeId} (ran : ids.forM retain pool = .ok () after)
    (apart : other ∉ ids) : after.refCount other = pool.refCount other := by
  induction ids generalizing pool with
  | nil =>
    cases ran
    rfl
  | cons first rest ih =>
    change (retain first >>= fun _ => rest.forM retain) pool = _ at ran
    obtain ⟨_, middle, ran, later⟩ := bind_eq_ok ran
    obtain ⟨slot, found⟩ := isLive_iff.mp (isLive_of_retain ran)
    obtain ⟨_, _, _, _, changed⟩ := (retain_computes found).result ran
    rw [List.mem_cons, not_or] at apart
    rw [ih later apart.2, changed.refCount_of_ne apart.1]

theorem makeUnique_cases (tidy : pool.Tidy) (ran : makeUnique child pool = .ok id after) :
    pool.refCount child = 1 ∧ id = child ∧ after = pool ∨
      pool.refCount child ≠ 1 ∧ ¬ pool.isLive id ∧ ∀ other, pool.isLive other → other ≠ child →
        other ∉ pool.childrenOf child → after.refCount other = pool.refCount other := by
  obtain ⟨node, read, ran⟩ := bind_query_eq_ok ran
  have found := node_eq_ok_iff.mp read
  change (if pool.refCount child = 1 then _ else _ : PoolM NodeId) pool = _ at ran
  split at ran
  case isTrue single =>
    cases ran
    exact .inl ⟨single, rfl, rfl⟩
  case isFalse several =>
    obtain ⟨_, retained, ran₁, ran⟩ := bind_eq_ok ran
    obtain ⟨_, acquired, ran₂, ran⟩ := bind_eq_ok ran
    obtain ⟨_, written, ran₃, ran⟩ := bind_eq_ok ran
    obtain ⟨_, released, ran₄, ran⟩ := bind_eq_ok ran
    cases ran
    have first := (ends_retainAll node.children pool).result ran₁
    have second := (ends_acquire (first.course.tidy tidy)).result ran₂
    obtain ⟨_, _, missing, acquires⟩ := (acquire_computes (first.course.tidy tidy)).result ran₂
    have third := (ends_write id node acquired).result ran₃
    have shared : 1 < (written.refCount child).toNat :=
      Nat.lt_of_lt_of_le (one_lt_refCount (isLive_of_node? found) several)
        (((first.trans second).trans third).owners child)
    obtain ⟨slot, here⟩ := isLive_iff.mp (refCount_pos_iff.mp (Nat.lt_of_succ_lt shared))
    obtain ⟨after', dropped, _, _, drops⟩ := dropUnit_shared here (refCount_of_slot? here ▸ shared)
    cases (release_of_dropUnit dropped).symm.trans ran₄
    have dead : ¬ pool.isLive id := by
      intro live
      have grown := Nat.lt_of_lt_of_le (refCount_pos_iff.mpr live) (first.owners id)
      simp [refCount, missing] at grown
    refine .inr ⟨several, dead, fun other live differ notChild => ?_⟩
    rw [childrenOf_of_node? found] at notChild
    have apart : other ≠ id := fun same => dead (same ▸ live)
    change released.refCount other = _
    rw [drops.refCount_of_ne differ, (Steady.of_write ran₃).refCount_eq,
      acquires.refCount_of_ne apart, refCount_of_retainAll ran₁ notChild]

end Unique

/-- The second handle has what the first had, to itself, for a unit of the first that was in hand
beside the others. What has been written since has left the child lists alone. -/
structure Taken (pool : Pool) (units : Multiset NodeId) (child id : NodeId) (after : Pool) :
    Prop where
  childrenOf_eq : after.childrenOf id = pool.childrenOf child
  sameBelow : ∀ unit ∈ child ::ₘ units, pool.SameBelow after unit
  grows : ∀ other, pool.isLive other → after.isLive other
  counts : ∀ other, pool.isLive other → ¬ pool.Reaches child other →
    after.refCount other = pool.refCount other
  alone_or_copied : pool.refCount child = 1 ∧ id = child ∧ pool.Steady after ∨
    pool.refCount child ≠ 1 ∧ ¬ pool.isLive id
  shared : ∀ unit ∈ units, pool.Reaches unit child → pool.refCount child ≠ 1

section Taken

variable {pool middle after : Pool} {opened : Finset NodeId} {units : Multiset NodeId}
  {child id : NodeId}

theorem Taken.mends (taken : pool.Taken units child id middle) (mends : middle.Mends after) :
    pool.Taken units child id after where
  childrenOf_eq := (mends.childrenOf_eq id).trans taken.childrenOf_eq
  sameBelow := fun unit held => (taken.sameBelow unit held).trans (mends.sameBelow unit)
  grows := fun other live => (mends.steady.isLive_iff other).mpr (taken.grows other live)
  counts := fun other live apart =>
    (mends.steady.refCount_eq other).trans (taken.counts other live apart)
  alone_or_copied := taken.alone_or_copied.imp_left fun ⟨single, same, steady⟩ =>
    ⟨single, same, steady.trans mends.steady⟩
  shared := taken.shared

theorem Taken.of_mends (mends : pool.Mends middle) (taken : middle.Taken units child id after) :
    pool.Taken units child id after where
  childrenOf_eq := taken.childrenOf_eq.trans (mends.childrenOf_eq child)
  sameBelow := fun unit held => (mends.sameBelow unit).trans (taken.sameBelow unit held)
  grows := fun other live => taken.grows other ((mends.steady.isLive_iff other).mpr live)
  counts := by
    intro other live apart
    rw [taken.counts other ((mends.steady.isLive_iff other).mpr live), mends.steady.refCount_eq]
    exact fun reaches => apart ((mends.sameBelow child).reaches_iff.mp reaches)
  alone_or_copied := by
    rw [← mends.steady.refCount_eq, ← mends.steady.isLive_iff]
    exact taken.alone_or_copied.imp_left fun ⟨single, same, steady⟩ =>
      ⟨single, same, mends.steady.trans steady⟩
  shared := by
    intro unit held reaches
    rw [← mends.steady.refCount_eq]
    exact taken.shared unit held ((mends.sameBelow unit).reaches_iff.mpr reaches)

theorem Taken.alone (taken : pool.Taken units child id after) (single : pool.refCount child = 1) :
    id = child ∧ pool.Steady after :=
  taken.alone_or_copied.elim And.right fun ⟨several, _⟩ => absurd single several

theorem Taken.copied (taken : pool.Taken units child id after) (several : pool.refCount child ≠ 1) :
    ¬ pool.isLive id :=
  taken.alone_or_copied.elim (fun ⟨single, _⟩ => absurd single several) And.right

namespace Owned

theorem taken_of_makeUnique (owned : pool.Owned opened (child ::ₘ units))
    (ran : Pool.makeUnique child pool = .ok id after) : pool.Taken units child id after := by
  obtain ⟨node, found⟩ :=
    isLive_iff_node?.mp (owned.of_unit (Multiset.mem_cons_self child units)).1
  obtain ⟨_, _, _, _, copied, others⟩ := (owned.makeUnique found).result ran
  constructor
  case childrenOf_eq => rw [childrenOf_of_node? copied, childrenOf_of_node? found]
  case sameBelow =>
    exact fun unit held => (owned.keeps fun other live _ => others other live).sameBelow held
  case grows =>
    intro other live
    rwa [isLive_congr (congrArg _ (others other live))]
  case counts =>
    intro other live apart
    obtain ⟨_, _, rfl⟩ | ⟨_, _, counts⟩ := makeUnique_cases owned.tidy ran
    · rfl
    · refine counts other live (fun same => apart (same ▸ .refl)) fun member => apart ?_
      exact .single (child_iff.mpr member)
  case alone_or_copied =>
    obtain ⟨single, same, rfl⟩ | ⟨several, dead, _⟩ := makeUnique_cases owned.tidy ran
    · exact .inl ⟨single, same, .refl _⟩
    · exact .inr ⟨several, dead⟩
  case shared => exact fun unit held => owned.several_of_reaches held

/-- The child list of an open node, which is told of the handle, is below no unit. -/
theorem taken_of_takeOver {link : Link}
    (owned : pool.Owned (insert link.parent opened) (child ::ₘ units))
    (ran : Pool.takeOver link child pool = .ok id after) : pool.Taken units child id after := by
  obtain ⟨_, middle, unique, ran⟩ := bind_eq_ok ran
  obtain ⟨_, _, attached, ran⟩ := bind_eq_ok ran
  cases ran
  obtain ⟨parent, _, wrote⟩ := bind_query_eq_ok attached
  have taken := owned.taken_of_makeUnique unique
  have steady := Steady.of_write wrote
  obtain ⟨_, _, changed⟩ := changed_of_write wrote
  obtain ⟨node, found⟩ :=
    isLive_iff_node?.mp (owned.of_unit (Multiset.mem_cons_self child units)).1
  obtain ⟨_, _, unopened, _, _, others⟩ := (owned.makeUnique found).result unique
  have same {other : NodeId} (closed : other ∉ insert link.parent opened) :
      after.node? other = middle.node? other :=
    changed.node?_of_ne fun same => closed (same ▸ Finset.mem_insert_self ..)
  constructor
  case childrenOf_eq => rw [← taken.childrenOf_eq, childrenOf, childrenOf, same unopened]
  case sameBelow =>
    refine fun unit held => (owned.keeps fun other live closed => ?_).sameBelow held
    rw [same closed, others other live]
  case grows => exact fun other live => (steady.isLive_iff other).mpr (taken.grows other live)
  case counts =>
    intro other live apart
    rw [steady.refCount_eq, taken.counts other live apart]
  case alone_or_copied =>
    refine taken.alone_or_copied.imp_left ?_
    rintro ⟨single, same, before⟩
    exact ⟨single, same, before.trans steady⟩
  case shared => exact taken.shared

end Owned

end Taken

end SyntaxForest.Pool
