import SyntaxForest.Proofs.Pool.Gather
import SyntaxForest.Proofs.Pool.Handover

/-! # Open nodes

A node that is open stands over children whose units are in hand, and may be rewritten until it is
closed again. What is done to it spares all that the other units reach, and every other open node.
-/

namespace SyntaxForest.Pool

open PoolM

/-- What the units reach stays, and so do the nodes that are open. -/
structure Spares (pool after : Pool) (opened : Finset NodeId) (units : Multiset NodeId) : Prop where
  kept : pool.Keeps after units
  opened : ∀ id ∈ opened, after.node? id = pool.node? id

namespace Spares

variable {pool middle after : Pool} {opened fewer : Finset NodeId} {units less : Multiset NodeId}

theorem refl (pool : Pool) (opened : Finset NodeId) (units : Multiset NodeId) :
    pool.Spares pool opened units :=
  ⟨.of_node?_eq fun _ => rfl, fun _ _ => rfl⟩

theorem trans (first : pool.Spares middle opened units) (second : middle.Spares after opened units) :
    pool.Spares after opened units :=
  ⟨first.kept.trans second.kept, fun id isOpen =>
    (second.opened id isOpen).trans (first.opened id isOpen)⟩

theorem mono (spares : pool.Spares after opened units) (subset : fewer ⊆ opened) (le : less ≤ units) :
    pool.Spares after fewer less :=
  ⟨spares.kept.mono le, fun _ isOpen => spares.opened _ (subset isOpen)⟩

theorem of_le (spares : pool.Spares after opened units) (le : less ≤ units) :
    pool.Spares after opened less :=
  spares.mono (Finset.Subset.refl _) le

/-- The trees of units in hand stay. -/
theorem shows {ids : List NodeId} {trees : List Tree} (spares : pool.Spares after opened units)
    (held : (ids : Multiset NodeId) ≤ units) (all : List.Forall₂ pool.Shows ids trees) :
    List.Forall₂ after.Shows ids trees :=
  all.imp_of_mem fun _ member _ _ shows =>
    spares.kept.shows (Multiset.mem_of_le held (Multiset.mem_coe.mpr member)) shows

end Spares

namespace Owned

variable {pool : Pool} {opened : Finset NodeId} {units : Multiset NodeId} {id : NodeId}
  {node old : Node}

/-- An open node is rewritten at will. -/
theorem rewrite (owned : pool.Owned (insert id opened) units) (unopened : id ∉ opened)
    (found : pool.node? id = some old) (node : Node) :
    ∃ after, Pool.write id node pool = .ok () after ∧ after.Owned (insert id opened) units ∧
      after.node? id = some node ∧ pool.Spares after opened units := by
  obtain ⟨after, ran, owned', written, others, _⟩ :=
    owned.write node found (.inl (Finset.mem_insert_self ..))
  refine ⟨after, ran, owned', written, owned.keeps_of_write (Finset.mem_insert_self ..) others, ?_⟩
  intro other isOpen
  exact others other fun same => unopened (same ▸ isOpen)

end Owned

section Node

variable {pool : Pool} {opened : Finset NodeId} {units : Multiset NodeId} {id : NodeId}
  {info : NodeInfo} {ids : List NodeId} {trees : List Tree}

/-- The node is open and stands over the children, whose units are in hand and which show the
trees. -/
structure Opened (pool : Pool) (opened : Finset NodeId) (units : Multiset NodeId) (id : NodeId)
    (info : NodeInfo) (ids : List NodeId) (trees : List Tree) : Prop where
  owned : pool.Owned (insert id opened) (units + ids)
  unopened : id ∉ opened
  found : pool.node? id = some ⟨info, ids⟩
  below : List.Forall₂ pool.Shows ids trees

/-- The handle shows the tree, for one unit, and all else is as it was. -/
structure Settled (pool after : Pool) (opened : Finset NodeId) (units : Multiset NodeId)
    (id : NodeId) (tree : Tree) : Prop where
  owned : after.Owned opened (id ::ₘ units)
  shows : after.Shows id tree
  spares : pool.Spares after opened units

theorem Spares.settled {middle after : Pool} {tree : Tree}
    (spares : pool.Spares middle opened units) (settled : middle.Settled after opened units id tree) :
    pool.Settled after opened units id tree :=
  ⟨settled.owned, settled.shows, spares.trans settled.spares⟩

namespace Opened

/-- The node is changed, and its children are not. -/
theorem rewrite (state : pool.Opened opened units id info ids trees) (info' : NodeInfo) :
    ∃ after, Pool.write id ⟨info', ids⟩ pool = .ok () after ∧
      after.Opened opened units id info' ids trees ∧ pool.Spares after opened units := by
  obtain ⟨after, ran, owned, written, spares⟩ :=
    state.owned.rewrite state.unopened state.found ⟨info', ids⟩
  have below := spares.shows (Multiset.le_add_left ..) state.below
  exact ⟨after, ran, ⟨owned, state.unopened, written, below⟩,
    spares.of_le (Multiset.le_add_right ..)⟩

theorem closes (state : pool.Opened opened units id info ids trees) :
    pool.Settled pool opened units id (.node none info trees) where
  owned := Owned.closes state.owned state.unopened state.found
  shows := shows_iff.mpr ⟨by simp, ids, state.found, state.below⟩
  spares := .refl ..

theorem summarize (state : pool.Opened opened units id info ids trees) :
    Computes (Pool.summarize id) pool (Lengths.over? (trees.map Tree.lengths))
      fun lengths _ after => after.Opened opened units id { info with lengths } ids trees ∧
        pool.Spares after opened units := by
  rw [Pool.summarize, computes_bind_of_ok (query_node state.found)]
  apply (computes_query (lengthsOver_of_shows state.below)).bind_ok
  rintro _ lengths _ _ ⟨rfl, rfl⟩
  obtain ⟨after, ran, state', spares⟩ := state.rewrite { info with lengths }
  exact ⟨(), after, ran, state', spares⟩

/-- A node without children takes over children that are in hand. -/
theorem adopt (state : pool.Opened opened (units + ids) id info [] []) (info' : NodeInfo)
    (below : List.Forall₂ pool.Shows ids trees) :
    ∃ after, Pool.write id ⟨info', ids⟩ pool = .ok () after ∧
      after.Opened opened units id info' ids trees ∧ pool.Spares after opened units := by
  have owned := state.owned
  rw [Multiset.coe_nil, add_zero] at owned
  obtain ⟨after, ran, owned', written, spares⟩ :=
    owned.rewrite state.unopened state.found ⟨info', ids⟩
  have below' := spares.shows (Multiset.le_add_left ..) below
  exact ⟨after, ran, ⟨owned', state.unopened, written, below'⟩,
    spares.of_le (Multiset.le_add_right ..)⟩

end Opened

/-- A new node is open, and blank. -/
theorem Owned.acquiresOpen (owned : pool.Owned opened units) :
    Computes Pool.acquire pool (some ()) fun _ id after => ¬ pool.isLive id ∧
      after.Opened opened units id .blank [] [] ∧ pool.Spares after opened units := by
  apply owned.acquire.mono
  rintro _ id after _ ⟨fresh, unopened, owned', blank, others⟩
  have same (other : NodeId) (live : pool.isLive other) : after.node? other = pool.node? other :=
    (others other fun equal => fresh (equal ▸ live)).1
  refine ⟨fresh, ⟨by simpa using owned', unopened, blank, .nil⟩, ?_, ?_⟩
  · exact owned.keeps fun other live _ => same other live
  · exact fun other isOpen => same other (owned.of_open isOpen)

/-- The node, or a copy of it if others own it too, is opened. -/
theorem Owned.makesOpen {child : NodeId} {handle : Option NodeId}
    (owned : pool.Owned opened (child ::ₘ units))
    (shows : pool.Shows child (.node handle info trees)) :
    Computes (Pool.makeUnique child) pool (some ()) fun _ id after => ∃ ids,
      after.Opened opened units id info ids trees ∧ pool.Spares after opened units := by
  obtain ⟨_, ids, found, _⟩ := shows_iff.mp shows
  apply (owned.makeUnique found).mono
  rintro _ id after _ ⟨fresh, owned', copied, others⟩
  have kept : pool.Keeps after (child ::ₘ units) := owned.keeps fun id live _ => others id live
  refine ⟨ids, ⟨owned', fresh, copied, ?_⟩, kept.mono (Multiset.le_cons_self ..), ?_⟩
  · obtain ⟨_, ids', found', below⟩ := shows_iff.mp (kept.shows (Multiset.mem_cons_self ..) shows)
    rw [kept child (Multiset.mem_cons_self ..) child .refl, found] at found'
    cases found'
    exact below
  · exact fun other isOpen => others other (owned.of_open isOpen)

end Node

end SyntaxForest.Pool
