import SyntaxForest.Proofs.Pool.Owned

/-! # Units that change hands

Every operation on units keeps a pool owned, with the units it takes and gives. Giving one up never
fails, whatever goes with it, and what the other units reach stays. Making a node unique opens it:
the only owner of the node, or of its copy, then holds the units of the children.
-/

namespace SyntaxForest.Pool

open PoolM

variable {pool : Pool} {opened : Finset NodeId} {units : Multiset NodeId} {id : NodeId}
  {node old : Node}

namespace Owned

theorem retain (owned : pool.Owned opened units) (target : pool.isLive id ∧ id ∉ opened) :
    Computes (Pool.retain id) pool (some ()) fun _ _ after =>
      after.Owned opened (id ::ₘ units) ∧ (∀ other, after.node? other = pool.node? other) ∧
        ∀ other, (pool.refCount other).toNat ≤ (after.refCount other).toNat := by
  obtain ⟨slot, found⟩ := isLive_iff.mp target.1
  apply (retain_computes found).mono
  rintro _ _ after _ ⟨refCount, counted, changed⟩
  have nodes := changed.node?_eq (node?_eq_some_iff.mpr ⟨slot, found, rfl⟩)
  have counts : ∀ other, (after.refCount other).toNat =
      (pool.refCount other).toNat + if other = id then 1 else 0 := by
    intro other
    by_cases same : other = id
    · rw [if_pos same, same, changed.refCount_self, refCount_of_slot? found, ← counted]
    · rw [if_neg same, changed.refCount_of_ne same, Nat.add_zero]
  refine ⟨owned.adjust (changed.tidy owned.tidy) (fun other _ => by rw [nodes]) ?_ ?_, nodes, ?_⟩
  · intro other
    rw [Multiset.count_cons, counts]
    omega
  · intro other isOpen
    exact changed.refCount_of_ne fun same => target.2 (same ▸ isOpen)
  · intro other
    exact counts other ▸ Nat.le_add_right ..

theorem retainAll {ids : List NodeId} (owned : pool.Owned opened units)
    (targets : ∀ id ∈ ids, pool.isLive id ∧ id ∉ opened) :
    Computes (ids.forM Pool.retain) pool (some ()) fun _ _ after =>
      after.Owned opened (units + ids) ∧ (∀ other, after.node? other = pool.node? other) ∧
        ∀ other, (pool.refCount other).toNat ≤ (after.refCount other).toNat := by
  induction ids generalizing pool units with
  | nil => exact .of_ok rfl ⟨by simpa using owned, fun _ => rfl, fun _ => Nat.le_refl _⟩
  | cons first rest ih =>
    change Computes (Pool.retain first >>= fun _ => rest.forM Pool.retain) pool (some ()) _
    apply (owned.retain (targets first List.mem_cons_self)).seq
    rintro _ middle ⟨owned', nodes, counts⟩
    refine (ih owned' fun id member => ?_).mono ?_
    · rw [isLive_congr (congrArg _ (nodes id))]
      exact targets id (List.mem_cons_of_mem _ member)
    · rintro _ _ after _ ⟨owned'', nodes', counts'⟩
      refine ⟨?_, fun other => (nodes' other).trans (nodes other),
        fun other => Nat.le_trans (counts other) (counts' other)⟩
      rwa [← Multiset.cons_coe, Multiset.add_cons, ← Multiset.cons_add]

theorem acquire (owned : pool.Owned opened units) :
    Computes Pool.acquire pool (some ()) fun _ id after =>
      ¬ pool.isLive id ∧ id ∉ opened ∧ after.Owned (insert id opened) units ∧
        after.node? id = some .blank ∧ ∀ other, other ≠ id →
          after.node? other = pool.node? other ∧ after.refCount other = pool.refCount other := by
  apply (acquire_computes owned.tidy).mono
  rintro _ id after _ ⟨missing, changed⟩
  have dead : ¬ pool.isLive id := by simp [isLive, missing]
  have unopened : id ∉ opened := fun isOpen => by
    have single := owned.alone id isOpen
    simp [refCount, missing] at single
  refine ⟨dead, unopened, ?_, changed.node?_self,
    fun _ differ => ⟨changed.node?_of_ne differ, changed.refCount_of_ne differ⟩⟩
  exact owned.appear (changed.tidy owned.tidy) dead changed.refCount_self
    (fun _ => changed.node?_of_ne) (fun _ => changed.refCount_of_ne)

/-- A node may be rewritten as long as its child list stays, and an open node anyhow. -/
theorem write (node : Node) (owned : pool.Owned opened units) (found : pool.node? id = some old)
    (allowed : id ∈ opened ∨ node.children = old.children) :
    ∃ after, Pool.write id node pool = .ok () after ∧ after.Owned opened units ∧
      after.node? id = some node ∧ (∀ other, other ≠ id → after.node? other = pool.node? other) ∧
        ∀ other, after.refCount other = pool.refCount other := by
  obtain ⟨slot, here, rfl⟩ := node?_eq_some_iff.mp found
  obtain ⟨after, ran, changed⟩ := write_ok node here
  have counts : ∀ other, after.refCount other = pool.refCount other := by
    intro other
    by_cases same : other = id
    · rw [same, changed.refCount_self, refCount_of_slot? here]
    · exact changed.refCount_of_ne same
  refine ⟨after, ran, owned.adjust (changed.tidy owned.tidy) (fun other closed => ?_)
    (fun other => by rw [counts]) (fun other _ => counts other), changed.node?_self,
    fun _ => changed.node?_of_ne, counts⟩
  by_cases same : other = id
  · subst same
    rw [changed.node?_self, found]
    simp only [Option.map_some, allowed.resolve_left closed]
  · rw [changed.node?_of_ne same]

theorem amend (change : NodeInfo → NodeInfo) (owned : pool.Owned opened units)
    (found : pool.node? id = some node) :
    ∃ after, Pool.amend id change pool = .ok () after ∧ after.Owned opened units ∧
      after.node? id = some { node with toNodeInfo := change node.toNodeInfo } ∧
      (∀ other, other ≠ id → after.node? other = pool.node? other) ∧
        ∀ other, after.refCount other = pool.refCount other := by
  obtain ⟨after, ran, facts⟩ :=
    owned.write { node with toNodeInfo := change node.toNodeInfo } found (.inr rfl)
  refine ⟨after, ?_, facts⟩
  rw [Pool.amend, bind_of_ok (query_node found), ran]

theorem keeps_of_write (owned : pool.Owned opened units) {after : Pool} (isOpen : id ∈ opened)
    (others : ∀ other, other ≠ id → after.node? other = pool.node? other) :
    pool.Keeps after units :=
  owned.keeps fun other _ closed => others other fun same => closed (same ▸ isOpen)

/-- A unit of a node with more owners is given up without any effect on nodes. -/
theorem dropUnit_shared (owned : pool.Owned opened (id ::ₘ units))
    (shared : 1 < (pool.refCount id).toNat) :
    ∃ after, Pool.dropUnit id pool = .ok [] after ∧ after.Owned opened units ∧
      ∀ other, after.node? other = pool.node? other := by
  obtain ⟨live, closed⟩ := owned.of_unit (Multiset.mem_cons_self id units)
  obtain ⟨slot, found⟩ := isLive_iff.mp live
  rw [refCount_of_slot? found] at shared
  obtain ⟨after, ran, refCount, counted, changed⟩ := Pool.dropUnit_shared found shared
  have nodes := changed.node?_eq (node?_eq_some_iff.mpr ⟨slot, found, rfl⟩)
  refine ⟨after, ran, owned.adjust (changed.tidy owned.tidy) (fun other _ => by rw [nodes]) ?_ ?_,
    nodes⟩
  · intro other
    rw [Multiset.count_cons]
    by_cases same : other = id
    · subst same
      rw [if_pos rfl, changed.refCount_self, refCount_of_slot? found]
      dsimp only
      omega
    · rw [if_neg same, changed.refCount_of_ne same, Nat.add_zero]
  · intro other isOpen
    exact changed.refCount_of_ne fun same => closed (same ▸ isOpen)

theorem dropUnit_last (owned : pool.Owned opened (id ::ₘ units))
    (single : (pool.refCount id).toNat = 1) (found : pool.node? id = some node) :
    ∃ after, Pool.dropUnit id pool = .ok node.children after ∧
      after.Owned opened (units + node.children) ∧ ¬ after.isLive id ∧
      ∀ other, other ≠ id → after.node? other = pool.node? other := by
  obtain ⟨_, closed⟩ := owned.of_unit (Multiset.mem_cons_self id units)
  obtain ⟨slot, here, rfl⟩ := node?_eq_some_iff.mp found
  have last : slot.refCount = 1 :=
    UInt32.toNat_inj.mp (by rw [← refCount_of_slot? here, single, UInt32.toNat_one])
  obtain ⟨after, ran, changed⟩ := Pool.dropUnit_last here last
  have dead : ¬ after.isLive id := by
    simp [isLive, changed.slot?_eq]
  refine ⟨after, ran, ?_, dead, fun _ => changed.node?_of_ne⟩
  exact (owned.opens single found).vanish closed (changed.tidy owned.tidy) dead
    (fun _ => changed.node?_of_ne) (fun _ => changed.refCount_of_ne)

/-- The units of the children take the place of the last unit of a node. -/
theorem dropUnit (owned : pool.Owned opened (id ::ₘ units)) :
    ∃ owed after, Pool.dropUnit id pool = .ok owed after ∧ after.Owned opened (units + owed) ∧
      pool.Keeps after units := by
  obtain ⟨live, closed⟩ := owned.of_unit (Multiset.mem_cons_self id units)
  obtain ⟨node, found⟩ := isLive_iff_node?.mp live
  have positive := refCount_pos_iff.mpr live
  by_cases shared : 1 < (pool.refCount id).toNat
  · obtain ⟨after, ran, owned', nodes⟩ := owned.dropUnit_shared shared
    exact ⟨[], after, ran, by simpa using owned', .of_node?_eq nodes⟩
  · have single : (pool.refCount id).toNat = 1 := by omega
    obtain ⟨after, ran, owned', _, nodes⟩ := owned.dropUnit_last single found
    have opened' := owned.opens single found
    refine ⟨node.children, after, ran, owned', ?_⟩
    exact (opened'.keeps_of_write (Finset.mem_insert_self ..) nodes).mono (Multiset.le_add_right ..)

/-- Giving up units ends, takes away nothing that another unit reaches, and leaks nothing. -/
theorem releaseAll (pending : List NodeId) (owned : pool.Owned opened (pending + units)) :
    ∃ after, Pool.releaseAll pending pool = .ok () after ∧ after.Owned opened units ∧
      pool.Keeps after units := by
  fun_induction Pool.releaseAll pending pool with
  | case1 pool => exact ⟨pool, rfl, by simpa using owned, .of_node?_eq fun _ => rfl⟩
  | case2 pool id rest owed middle ran ih =>
    rw [← Multiset.cons_coe, Multiset.cons_add] at owned
    obtain ⟨owed', middle', ran', owned', kept⟩ := owned.dropUnit
    obtain ⟨rfl, rfl⟩ : owed = owed' ∧ middle = middle' := by simpa [ran] using ran'
    obtain ⟨after, done, owned'', kept'⟩ := ih (by
      rw [← Multiset.coe_add, Multiset.coe_reverse]
      rwa [add_assoc, add_comm])
    refine ⟨after, done, owned'', ?_⟩
    exact (kept.mono (Multiset.le_add_left ..)).trans kept'
  | case3 pool id rest fault after ran =>
    rw [← Multiset.cons_coe, Multiset.cons_add] at owned
    obtain ⟨_, _, ran', _⟩ := owned.dropUnit
    rw [ran] at ran'
    cases ran'

theorem release (owned : pool.Owned opened (id ::ₘ units)) :
    ∃ after, Pool.release id pool = .ok () after ∧ after.Owned opened units ∧
      pool.Keeps after units :=
  releaseAll [id] (by simpa using owned)

theorem release_shared (owned : pool.Owned opened (id ::ₘ units))
    (shared : 1 < (pool.refCount id).toNat) :
    ∃ after, Pool.release id pool = .ok () after ∧ after.Owned opened units ∧
      ∀ other, after.node? other = pool.node? other := by
  obtain ⟨after, ran, owned', nodes⟩ := owned.dropUnit_shared shared
  exact ⟨after, release_of_dropUnit ran, owned', nodes⟩

theorem record (owned : pool.Owned opened units) (event : Event) :
    ∃ after, PoolM.record event pool = .ok () after ∧ after.Owned opened units ∧
      ∀ other, after.node? other = pool.node? other :=
  ⟨{ pool with journal := pool.journal.push event }, rfl,
    owned.adjust (owned.tidy.note _) (fun _ _ => rfl) (fun _ => rfl) (fun _ _ => rfl), fun _ => rfl⟩

/-- The node, or a copy of it if others own it too, is open; no node that was live is another. -/
theorem makeUnique (owned : pool.Owned opened (id ::ₘ units)) (found : pool.node? id = some node) :
    Computes (Pool.makeUnique id) pool (some ()) fun _ copy after =>
      copy ∉ opened ∧ after.Owned (insert copy opened) (units + node.children) ∧
        after.node? copy = some node ∧
          ∀ other, pool.isLive other → after.node? other = pool.node? other := by
  have here := owned.of_unit (Multiset.mem_cons_self id units)
  rw [Pool.makeUnique, computes_bind_of_ok (query_node found),
    computes_get]
  split
  case isTrue single =>
    have single' : (pool.refCount id).toNat = 1 := by rw [single, UInt32.toNat_one]
    exact .of_ok rfl ⟨here.2, owned.opens single' found, found, fun _ _ => rfl⟩
  case isFalse several =>
    have shared := one_lt_refCount here.1 several
    have targets : ∀ child ∈ node.children, pool.isLive child ∧ child ∉ opened :=
      fun child member => owned.of_child here ⟨node, found, member⟩
    apply (owned.retainAll targets).seq
    rintro _ retained ⟨owned₁, nodes₁, counts₁⟩
    apply owned₁.acquire.seq
    rintro copy acquired ⟨fresh, unopened, owned₂, blank, others₂⟩
    have dead : ¬ pool.isLive copy := by rwa [isLive_congr (congrArg _ (nodes₁ copy))] at fresh
    have differ : id ≠ copy := fun same => dead (same ▸ here.1)
    obtain ⟨written, ran₃, owned₃, copied, others₃, counts₃⟩ :=
      owned₂.write node blank (.inl (Finset.mem_insert_self ..))
    rw [computes_bind_of_ok ran₃]
    have shared' : 1 < (written.refCount id).toNat := by
      rw [counts₃, (others₂ id differ).2]
      exact Nat.lt_of_lt_of_le shared (counts₁ id)
    rw [Multiset.cons_add] at owned₃
    obtain ⟨released, ran₄, owned₄, nodes₄⟩ := owned₃.release_shared shared'
    obtain ⟨after, ran₅, owned₅, nodes₅⟩ := owned₄.record (.copied id copy)
    rw [computes_bind_of_ok ran₄, computes_bind_of_ok ran₅]
    refine .of_ok rfl ⟨unopened, owned₅, by rw [nodes₅, nodes₄, copied], fun other live => ?_⟩
    have apart : other ≠ copy := fun same => dead (same ▸ live)
    rw [nodes₅, nodes₄, others₃ other apart, (others₂ other apart).1, nodes₁]

end Owned

end SyntaxForest.Pool
