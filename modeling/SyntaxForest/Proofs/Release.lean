import SyntaxForest.Proofs.Pool.Wane
import SyntaxForest.Proofs.Session

/-! # What a release frees

A caller that gives up a unit of a node loses what no other of its units reaches, and nothing else.
Each node that goes does so once, however many ways led to it.
-/

namespace SyntaxForest

/-- What a unit of a node gives up, for a caller that keeps the other units. -/
structure Pool.Frees (pool : Pool) (units : Multiset NodeId) (id : NodeId) (freed : List NodeId)
    (after : Pool) : Prop where
  /-- What is freed was reached from the node, and is reached from no unit that is kept. -/
  mem_freed_iff : ∀ other, other ∈ freed ↔
    pool.Reaches id other ∧ ∀ unit ∈ units, ¬ pool.Reaches unit other
  /-- Exactly that dies. -/
  dies_iff : ∀ other, pool.isLive other ∧ ¬ after.isLive other ↔ other ∈ freed
  /-- The slot of each is put on the free list, and nothing else of the pool but slots changes. -/
  frame : after = { pool with slots := after.slots, free := freed.map (·.index) ++ pool.free }
  /-- No slot is listed twice. -/
  nodup : after.free.Nodup
  size_eq : after.slots.size = pool.slots.size
  /-- The slot moves on by one generation, and is blank. -/
  lost : ∀ (index : Nat) old, pool.slots[index]? = some old → index ∈ freed.map (·.index) →
    after.slots[index]? = some ⟨old.generation + 1, 0, .blank⟩
  /-- Any other slot has lost owners at most, and has one still if it had any. -/
  kept : ∀ (index : Nat) old, pool.slots[index]? = some old → index ∉ freed.map (·.index) →
    ∃ refCount, after.slots[index]? = some { old with refCount } ∧
      (refCount = 0 ↔ old.refCount = 0)
  /-- A node that stays has lost its places in the child lists of those that went, and the unit. -/
  refCount_eq : ∀ other, after.isLive other → (pool.refCount other).toNat =
    (after.refCount other).toNat + (freed.map fun dead => (pool.childrenOf dead).count other).sum +
      if other = id then 1 else 0

namespace Pool

variable {pool : Pool} {units : Multiset NodeId} {id second : NodeId}

theorem Owned.frees (owned : pool.Owned ∅ (id ::ₘ units)) :
    ∃ freed after, Pool.release id pool = .ok () after ∧ pool.Frees units id freed after := by
  obtain ⟨freed, after, ran, owned', keeps, wanes⟩ := owned.release_wanes
  refine ⟨freed, after, ran, ?_⟩
  constructor
  case mem_freed_iff =>
    intro other
    rw [wanes.mem_freed_iff_reaches owned' keeps, owned.isLive_iff_reaches]
    refine and_congr_left fun apart => ?_
    simp only [Multiset.mem_cons, exists_eq_or_imp, or_iff_left_iff_imp]
    rintro ⟨unit, isHeld, reaches⟩
    exact (apart unit isHeld reaches).elim
  case dies_iff => exact fun other => wanes.mem_freed_iff.symm
  case frame => exact wanes.frame
  case nodup => exact owned'.tidy.nodup
  case size_eq => exact wanes.size
  case lost => exact wanes.lost
  case kept => exact wanes.kept
  case refCount_eq =>
    intro other live
    rw [owned.refCount_eq, owned'.refCount_eq, wanes.occurrences_eq owned'.tidy,
      Multiset.count_cons]
    omega

/-- Two units are given up in either order with the same outcome, but for the order in which slots
will be used again. -/
theorem Owned.release_comm (owned : pool.Owned ∅ (id ::ₘ second ::ₘ units)) :
    ∃ middle last middle' last', Pool.release id pool = .ok () middle ∧
      Pool.release second middle = .ok () last ∧ Pool.release second pool = .ok () middle' ∧
      Pool.release id middle' = .ok () last' ∧ last'.slots = last.slots ∧ last'.free.Perm last.free := by
  obtain ⟨freed₁, middle, ran₁, owned₁, keeps₁, wanes₁⟩ := owned.release_wanes
  obtain ⟨freed₂, last, ran₂, owned₂, keeps₂, wanes₂⟩ := owned₁.release_wanes
  rw [Multiset.cons_swap] at owned
  obtain ⟨freed₃, middle', ran₃, owned₃, keeps₃, wanes₃⟩ := owned.release_wanes
  obtain ⟨freed₄, last', ran₄, owned₄, keeps₄, wanes₄⟩ := owned₃.release_wanes
  refine ⟨middle, last, middle', last', ran₁, ran₂, ran₃, ran₄, ?_⟩
  have less (first : NodeId) : units ≤ first ::ₘ units := Multiset.le_cons_self ..
  exact (wanes₁.trans wanes₂).confluent (wanes₃.trans wanes₄) owned₂ owned₄
    ((keeps₁.mono (less _)).trans keeps₂) ((keeps₃.mono (less _)).trans keeps₄)

end Pool

namespace Session

variable {allowed : Session → Call → Prop} {session : Session} {id : NodeId}

/-- A node over two others that share a leaf: one has it twice, and the other is held as well. -/
theorem reached_shared_twice : ∃ session : Session, Reached (fun _ _ => True) session ∧
    session.held = {⟨3, 0⟩, ⟨2, 0⟩} ∧ session.pool.refCount ⟨0, 0⟩ = 3 := by
  have leaf : Reached (fun _ _ => True) _ := .step
    (.makeLeaf .empty .endOfInput .zero ⟨2, ⟨0, 2⟩⟩) (.start .standard) trivial rfl
  have retained := (leaf.step (.retain ⟨0, 0⟩) trivial rfl).step (.retain ⟨0, 0⟩) trivial rfl
  have twice := retained.step (.makeNode .empty .endOfInput [⟨0, 0⟩, ⟨0, 0⟩]) trivial rfl
  have once := twice.step (.makeNode .empty .endOfInput [⟨0, 0⟩]) trivial rfl
  have kept := once.step (.retain ⟨2, 0⟩) trivial rfl
  have top := kept.step (.makeNode .empty .endOfInput [⟨1, 0⟩, ⟨2, 0⟩]) trivial rfl
  exact ⟨_, top, rfl, rfl⟩

/-- A unit that a caller holds can be given up. What no other of its units reaches goes, each node
once, and the rest only loses the owners that are gone. Two units may be given up in either order. -/
theorem Reached.release_frees (reached : Reached allowed session) (held : id ∈ session.held) :
    (∃ freed after, Pool.release id session.pool = .ok () after ∧
      session.pool.Frees (session.held.erase id) id freed after) ∧
    ∀ second ∈ session.held.erase id, ∃ middle last middle' last',
      Pool.release id session.pool = .ok () middle ∧ Pool.release second middle = .ok () last ∧
      Pool.release second session.pool = .ok () middle' ∧ Pool.release id middle' = .ok () last' ∧
      last'.slots = last.slots ∧ last'.free.Perm last.free := by
  have owned := reached.owned
  rw [← Multiset.cons_erase held] at owned
  refine ⟨owned.frees, fun second isHeld => ?_⟩
  rw [← Multiset.cons_erase isHeld] at owned
  exact owned.release_comm

theorem release_frees_of_shared_twice : ∃ session : Session,
    session.held = {⟨3, 0⟩, ⟨2, 0⟩} ∧ session.pool.refCount ⟨0, 0⟩ = 3 ∧
    (∃ freed after, Pool.release ⟨3, 0⟩ session.pool = .ok () after ∧
      session.pool.Frees (session.held.erase ⟨3, 0⟩) ⟨3, 0⟩ freed after) ∧
    ∀ second ∈ session.held.erase ⟨3, 0⟩, ∃ middle last middle' last',
      Pool.release ⟨3, 0⟩ session.pool = .ok () middle ∧
      Pool.release second middle = .ok () last ∧
      Pool.release second session.pool = .ok () middle' ∧
      Pool.release ⟨3, 0⟩ middle' = .ok () last' ∧
      last'.slots = last.slots ∧ last'.free.Perm last.free := by
  obtain ⟨session, reached, held, shared⟩ := reached_shared_twice
  exact ⟨session, held, shared, reached.release_frees (by rw [held]; decide)⟩

end Session

end SyntaxForest
