import SyntaxForest.Pool.Walk
import SyntaxForest.Proofs.Pool.Balance
import SyntaxForest.Sexpr

/-! # Ranks

The nodes of a pool in balance can be ranked so that each is above its children. A way down then
goes through ever lower ranks: it never comes back to where it was, and a walk that is given more
levels than the rank of its start comes to an end before they are used up.
-/

namespace SyntaxForest.Pool

variable {pool : Pool} {held : Multiset NodeId} {rank : NodeId → Nat} {id other child : NodeId}
  {depth : Nat} {node : Node}

/-- Every child is live and of lower rank than its parent. -/
structure Ranked (pool : Pool) (rank : NodeId → Nat) : Prop where
  tidy : pool.Tidy
  live : ∀ {parent child : NodeId}, pool.Child parent child → pool.isLive child
  lower : ∀ {parent child : NodeId}, pool.Child parent child → rank child < rank parent

/-- The height of the tree that a handle shows ranks it; there are more slots than ranks. -/
theorem Tidy.exists_ranked (tidy : pool.Tidy)
    (live : ∀ {parent child : NodeId}, pool.Child parent child → pool.isLive child)
    (grounded : ∀ id, pool.isLive id → pool.Grounded id) :
    ∃ rank, pool.Ranked rank ∧ ∀ id, pool.isLive id → rank id < pool.slots.size := by
  have ranks : ∀ id, ∃ rank : Nat, ∀ tree, pool.Shows id tree → tree.height = rank + 1 := by
    intro id
    by_cases shown : ∃ tree, pool.Shows id tree
    · obtain ⟨⟨handle, info, children⟩, shows⟩ := shown
      refine ⟨Tree.heightAll children, fun tree shows' => ?_⟩
      rw [shows'.height_eq shows, Tree.height]
    · exact ⟨0, fun tree shows => (shown ⟨tree, shows⟩).elim⟩
  choose rank height using ranks
  refine ⟨rank, ⟨tidy, live, ?_⟩, ?_⟩
  · intro parent child below
    obtain ⟨tree, shows⟩ := (grounded parent below.isLive_parent).exists_shows
    obtain ⟨tree', shows', lower⟩ := shows.of_child below
    rw [height parent tree shows, height child tree' shows'] at lower
    exact Nat.lt_of_succ_lt_succ lower
  · intro id alive
    obtain ⟨tree, shows⟩ := (grounded id alive).exists_shows
    have fits := shows.height_le_liveCount tidy
    rw [height id tree shows] at fits
    exact Nat.lt_of_lt_of_le fits (Nat.sub_le _ _)

theorem Owned.exists_ranked (owned : pool.Owned ∅ held) :
    ∃ rank, pool.Ranked rank ∧ ∀ id, pool.isLive id → rank id < pool.slots.size :=
  owned.tidy.exists_ranked owned.isLive_of_child fun id live =>
    owned.grounded id live (Finset.notMem_empty _)

/-- Every way down ends, since ranks cannot fall for ever. -/
theorem Ranked.grounded (ranked : pool.Ranked rank) (live : pool.isLive id) : pool.Grounded id := by
  generalize level : rank id = height
  induction height using Nat.strongRecOn generalizing id with
  | ind height ih =>
    obtain ⟨node, found⟩ := isLive_iff_node?.mp live
    refine .intro found fun child member => ?_
    have below := child_of_mem found member
    exact ih (rank child) (level ▸ ranked.lower below) (ranked.live below) rfl

/-- Ranks can always be chosen anew, so that there are more slots than ranks. -/
theorem Ranked.exists_low (ranked : pool.Ranked rank) :
    ∃ rank, pool.Ranked rank ∧ ∀ id, pool.isLive id → rank id < pool.slots.size :=
  ranked.tidy.exists_ranked ranked.live fun _ => ranked.grounded

/-- No way down comes back. -/
theorem Ranked.acyclic (ranked : pool.Ranked rank) (id : NodeId) :
    ¬ Relation.TransGen pool.Child id id := by
  have lower : ∀ {id other}, Relation.TransGen pool.Child id other → rank other < rank id := by
    intro id other way
    induction way with
    | single below => exact ranked.lower below
    | tail _ below ih => exact Nat.lt_trans (ranked.lower below) ih
  exact fun way => Nat.lt_irrefl _ (lower way)

/-! ## Walks -/

/-- The handle is live, and there are enough levels left for all below it. -/
structure Within (pool : Pool) (rank : NodeId → Nat) (depth : Nat) (id : NodeId) : Prop where
  live : pool.isLive id
  lower : rank id < depth

theorem Within.exists_node (within : pool.Within rank depth id) :
    ∃ node, pool.node id = .ok node ∧ pool.node? id = some node := by
  obtain ⟨node, found⟩ := isLive_iff_node?.mp within.live
  exact ⟨node, node_eq_ok_iff.mpr found, found⟩

namespace Ranked

/-- One level further down there is one level less to go. -/
theorem within_child (ranked : pool.Ranked rank) (within : pool.Within rank depth id)
    (found : pool.node? id = some node) (member : child ∈ node.children) :
    0 < depth ∧ pool.Within rank (depth - 1) child := by
  have below := child_of_mem found member
  have lower := ranked.lower below
  have room := within.lower
  exact ⟨by omega, ranked.live below, by omega⟩

theorem lastExternal?_ok (ranked : pool.Ranked rank) (within : pool.Within rank pool.walkDepth id) :
    ∃ last, pool.lastExternal? id = .ok last := by
  refine Agenda.search_total (fun depth id within => ?_) (by simpa using within)
  obtain ⟨node, read, found⟩ := within.exists_node
  simp only [externalOrChildren, read, bind, Except.bind, pure, Except.pure]
  refine ⟨_, rfl, fun follow same next member => ?_⟩
  split at same
  · cases same
  · cases same
    exact ranked.within_child within found (List.mem_reverse.mp member)

theorem sameTree_ok (ranked : pool.Ranked rank) (within : pool.Within rank pool.walkDepth id)
    (live : pool.isLive other) : ∃ same, pool.sameTree id other = .ok same := by
  have done : ∃ difference, pool.search pool.differenceOrPairs [(id, other)] = .ok difference := by
    refine @Agenda.search_total _ _ _ _
      (fun depth pair => pool.Within rank depth pair.1 ∧ pool.isLive pair.2) _ _ ?_ ?_
    · rintro depth ⟨left, right⟩ ⟨within, live⟩
      obtain ⟨node, read, found⟩ := within.exists_node
      obtain ⟨node', found'⟩ := isLive_iff_node?.mp live
      simp only [differenceOrPairs, read, node_eq_ok_iff.mpr found', bind, Except.bind, pure,
        Except.pure]
      split
      · exact ⟨_, rfl, fun follow same next member => by cases same; cases member⟩
      split
      · refine ⟨_, rfl, fun follow same next member => ?_⟩
        cases same
        obtain ⟨first, second⟩ := List.of_mem_zip (List.mem_reverse.mp member)
        obtain ⟨room, below⟩ := ranked.within_child within found first
        exact ⟨room, below, ranked.live (child_of_mem found' second)⟩
      · exact ⟨_, rfl, fun follow same => by cases same⟩
    · simpa using ⟨within, live⟩
  obtain ⟨difference, done⟩ := done
  exact ⟨difference.isNone, by rw [sameTree, done]; rfl⟩

/-- What is left to write has enough levels left. -/
def WithinTask (pool : Pool) (rank : NodeId → Nat) (depth : Nat) : SexprTask → Prop
  | .root id | .below id => pool.Within rank depth id
  | .close => True

theorem within_below (ranked : pool.Ranked rank) (within : pool.Within rank depth id)
    (found : pool.node? id = some node) :
    ∀ next ∈ node.children.map SexprTask.below, 0 < depth ∧ WithinTask pool rank (depth - 1) next := by
  intro next member
  obtain ⟨child, place, rfl⟩ := List.mem_map.mp member
  exact ranked.within_child within found place

theorem within_writeNode (ranked : pool.Ranked rank) (within : pool.Within rank depth id)
    (found : pool.node? id = some node) :
    ∀ next ∈ node.children.map SexprTask.below ++ [.close],
      0 < depth ∧ WithinTask pool rank (depth - 1) next := by
  intro next member
  rcases List.mem_append.mp member with below | last
  · exact ranked.within_below within found next below
  · rw [List.mem_singleton.mp last]
    exact ⟨Nat.zero_lt_of_lt within.lower, trivial⟩

theorem sexpr_ok (ranked : pool.Ranked rank) (within : pool.Within rank pool.walkDepth id)
    (table : SymbolTable) : ∃ text, pool.sexpr table id = .ok text := by
  have done : ∃ text, Agenda.run (pool.sexprStep table) .endless [(pool.walkDepth, .root id)] "" =
      .ok () text := by
    refine @Agenda.run_total _ _ _ _ (WithinTask pool rank) _ _ ?each
      (by simpa [WithinTask] using within) ""
    intro depth task text within
    cases task with
    | root id =>
      obtain ⟨node, read, found⟩ := within.exists_node
      simp only [sexprStep, read]
      exact ⟨_, _, rfl, ranked.within_writeNode within found⟩
    | below id =>
      obtain ⟨node, read, found⟩ := within.exists_node
      simp only [sexprStep, read]
      by_cases shown : node.visible
      · exact ⟨_, _, by simp only [orFault, pure_bind, shown]; rfl,
          ranked.within_writeNode within found⟩
      · exact ⟨_, _, by simp only [orFault, pure_bind, shown]; rfl,
          ranked.within_below within found⟩
    | close => exact ⟨[], _, rfl, by simp⟩
  obtain ⟨text, done⟩ := done
  exact ⟨text, by simp only [sexpr, walk, List.map_cons, List.map_nil, done]⟩

end Ranked

end SyntaxForest.Pool
