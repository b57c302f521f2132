import SyntaxForest.Proofs.Session
import SyntaxForest.Proofs.Tree.Measured

/-! # Pools that measure their text

A pool is measured when the lengths of every live node are those of its children. That is a fact
about each node and its children alone, so it is kept wherever units keep what they reach; a call
that makes a tree makes a measured one. Callers may write the lengths of a leaf as long as it has no
parent to fall out with.
-/

namespace SyntaxForest

namespace Pool

variable {pool after : Pool} {id : NodeId} {ids : List NodeId} {tree : Tree} {trees : List Tree}
  {units : Multiset NodeId}

def lengths? (pool : Pool) (id : NodeId) : Option Lengths := (pool.node? id).map (·.lengths)

/-- The node has the lengths that its children give it. -/
def MeasuredAt (pool : Pool) (id : NodeId) : Prop :=
  ∃ node below, pool.node? id = some node ∧
    node.children.map pool.lengths? = below.map some ∧ node.lengths.Measured below

/-- Every live node is measured. -/
def Measured (pool : Pool) : Prop := ∀ id, pool.isLive id → pool.MeasuredAt id

theorem lengths?_of_shows (all : List.Forall₂ pool.Shows ids trees) :
    ids.map pool.lengths? = (trees.map Tree.lengths).map some := by
  induction all with
  | nil => rfl
  | @cons id tree ids trees shows _ ih =>
    obtain ⟨_, found, _⟩ := shows.node?
    rw [List.map_cons, List.map_cons, List.map_cons, ih, lengths?, found]
    rfl

/-- Whether a node is measured depends on its lengths, its children and theirs. -/
theorem MeasuredAt.transfer (measured : pool.MeasuredAt id)
    (same : (after.node? id).map (fun node => (node.lengths, node.children)) =
      (pool.node? id).map (fun node => (node.lengths, node.children)))
    (below : ∀ child, pool.Child id child → after.lengths? child = pool.lengths? child) :
    after.MeasuredAt id := by
  obtain ⟨node, lengths, found, read, holds⟩ := measured
  rw [found, Option.map_some, Option.map_eq_some_iff] at same
  obtain ⟨node', found', same⟩ := same
  obtain ⟨sameLengths, sameChildren⟩ := Prod.mk.inj same
  refine ⟨node', lengths, found', ?_, sameLengths ▸ holds⟩
  rw [sameChildren, ← read]
  exact List.map_congr_left fun child member => below child ⟨node, found, member⟩

/-- A handle shows a measured tree if and only if all that it reaches is measured. -/
theorem Shows.measured_iff (shows : pool.Shows id tree) :
    tree.Measured ↔ ∀ other, pool.Reaches id other → pool.MeasuredAt other := by
  induction tree generalizing id with
  | node handle info children ih =>
    obtain ⟨_, ids, found, all⟩ := shows_iff.mp shows
    have read := lengths?_of_shows all
    constructor
    · rintro ⟨here, below⟩ other reaches
      rcases reaches.cases_head with rfl | ⟨child, ⟨node, found', member⟩, rest⟩
      · exact ⟨_, _, found, read, here⟩
      · cases found.symm.trans found'
        obtain ⟨tree, place, shows'⟩ := all.exists_of_mem member
        exact (ih tree place shows').mp (below tree place) other rest
    · intro reached
      refine .node ?_ fun tree place => ?_
      · obtain ⟨node, below, found', read', holds⟩ := reached id .refl
        cases found.symm.trans found'
        have same := List.map_injective_iff.mpr (Option.some_injective _) (read.symm.trans read')
        rwa [same]
      · obtain ⟨child, member, shows'⟩ := (List.Forall₂.flip all).exists_of_mem place
        refine (ih tree place shows').mpr fun other reaches => ?_
        exact reached other (reaches_of_mem found member reaches)

theorem Measured.shows (measured : pool.Measured) (shows : pool.Shows id tree) : tree.Measured :=
  shows.measured_iff.mpr fun _ reaches =>
    let ⟨_, shows', _⟩ := shows.of_reaches reaches
    measured _ shows'.isLive

theorem Keeps.measuredAt (keeps : pool.Keeps after units) (measured : pool.Measured)
    {unit : NodeId} (held : unit ∈ units) (reaches : after.Reaches unit id)
    (live : after.isLive id) : after.MeasuredAt id := by
  have before := (keeps.reaches_iff held).mp reaches
  have same := keeps unit held id before
  have measuredBefore := measured id (by rwa [← isLive_congr (congrArg _ same)])
  refine measuredBefore.transfer (by rw [same]) fun child below => ?_
  rw [lengths?, lengths?, keeps unit held child (before.tail below)]

end Pool

theorem Call.Makes.measured {pool : Pool} {call : Call} {tree : Tree} (measured : pool.Measured)
    (makes : call.Makes pool tree) : tree.Measured := by
  cases call with
  | acquire =>
    obtain rfl := makes
    exact .node (Lengths.measured_leaf_iff.mpr (Nat.zero_le _)) nofun
  | makeLeaf table symbol padding size =>
    obtain ⟨lengths, token, rfl⟩ := makes
    exact .node (Lengths.token?_measured token) nofun
  | makeError table padding size lookahead =>
    obtain ⟨lengths, token, rfl⟩ := makes
    exact .node (Lengths.token?_measured token) nofun
  | makeNode table symbol children =>
    obtain ⟨info, trees, inner, below, derived, rfl⟩ := makes
    refine .node ?_ fun tree place => ?_
    · obtain ⟨shown, _, derived⟩ := Option.bind_eq_some_iff.mp derived
      obtain ⟨lengths, gathered, rfl⟩ := Option.map_eq_some_iff.mp derived
      rw [List.map_map] at gathered
      cases below with
      | nil => exact (inner rfl).elim
      | cons => exact (Lengths.over?_derived gathered).measured
    · obtain ⟨child, _, shows⟩ := (List.Forall₂.flip below).exists_of_mem place
      exact measured.shows shows
  | edit root change =>
    obtain ⟨before, shows, revised⟩ := makes
    exact (measured.shows shows).revise? revised
  | retain | release | amend => exact makes.elim

namespace Session

variable {session after : Session} {call : Call}

/-- The caller writes the lengths of a node only while it has no children and no parent, and tells
that it was read to its end at least. -/
def WritesLeaves (session : Session) : Call → Prop
  | .amend id change => ∀ node, session.pool.node? id = some node →
    (change node.toNodeInfo).lengths = node.lengths ∨
      node.children = [] ∧ session.pool.occurrences id = 0 ∧
        (change node.toNodeInfo).lengths.bytes ≤ (change node.toNodeInfo).lengths.scanned.toNat
  | _ => True

theorem measured_amend {pool : Pool} {id : NodeId} {change : NodeInfo → NodeInfo} {node : Node}
    (measured : session.pool.Measured) (may : session.WritesLeaves (.amend id change))
    (found : session.pool.node? id = some node)
    (written : pool.node? id = some { node with toNodeInfo := change node.toNodeInfo })
    (others : ∀ other, other ≠ id → pool.node? other = session.pool.node? other) :
    pool.Measured := by
  have children (other : NodeId) : (pool.node? other).map (·.children) =
      (session.pool.node? other).map (·.children) := by
    by_cases same : other = id
    · rw [same, written, found]
      rfl
    · rw [others other same]
  intro other live
  have before := measured other ((Pool.isLive_congr (children other)).symm.trans live)
  rcases may node found with kept | ⟨leaf, parentless, read⟩
  · have lengths (other : NodeId) : pool.lengths? other = session.pool.lengths? other := by
      by_cases same : other = id
      · rw [same, Pool.lengths?, Pool.lengths?, written, found, Option.map_some, kept]
        rfl
      · rw [Pool.lengths?, Pool.lengths?, others other same]
    refine before.transfer ?_ fun child _ => lengths child
    by_cases same : other = id
    · rw [same, written, found, Option.map_some, Option.map_some, kept]
    · rw [others other same]
  · by_cases same : other = id
    · refine ⟨_, [], same ▸ written, ?_, Lengths.measured_leaf_iff.mpr read⟩
      rw [leaf, List.map_nil, List.map_nil]
    · refine before.transfer (by rw [others other same]) fun child below => ?_
      have differ : child ≠ id := fun equal =>
        Pool.occurrences_ne_zero_of_child (equal ▸ below) parentless
      rw [Pool.lengths?, Pool.lengths?, others child differ]

/-- Every live node stays measured, whatever is built, shared, edited and released. -/
theorem Reached.pool_measured (reached : Reached WritesLeaves session) : session.pool.Measured := by
  induction reached with
  | start sizing => exact fun id live => (Pool.not_isLive_empty sizing id live).elim
  | @step session after call before may stepped ih =>
    have owned := (before.step call may stepped).owned
    obtain ⟨rest, given, _, held, outcome⟩ := step?_outcome before.owned stepped
    intro id live
    obtain ⟨unit, isHeld, reaches⟩ := owned.isLive_iff_reaches.mp live
    rw [held] at isHeld
    cases outcome with
    | made makes settled =>
      rcases Multiset.mem_add.mp isHeld with isNew | isHeld
      · obtain rfl := Multiset.mem_singleton.mp isNew
        exact settled.shows.measured_iff.mp (makes.measured ih) id reaches
      · exact settled.spares.kept.measuredAt ih isHeld reaches live
    | handed _ kept => exact kept.measuredAt ih isHeld reaches live
    | amended _ found written others => exact measured_amend ih may found written others id live

/-- What every live node tells of its text, spelled out: it was read to its end, and over children it
has the padding of the first, the content that they add up to, and has been read as far as any of
them was. -/
theorem Reached.live_node_measured (reached : Reached WritesLeaves session) {id : NodeId}
    (live : session.pool.isLive id) :
    ∃ node below, session.pool.node? id = some node ∧
      node.children.map session.pool.lengths? = below.map some ∧
      node.lengths.bytes ≤ node.lengths.scanned.toNat ∧
      ∀ first rest, below = first :: rest →
        node.lengths.padding = first.padding ∧
        rest.foldlM Lengths.appendTo? first.size = some node.lengths.size ∧
        node.lengths.scanned.toNat = max node.lengths.bytes (Lengths.farthest 0 below) := by
  obtain ⟨node, below, found, read, measured⟩ := reached.pool_measured id live
  refine ⟨node, below, found, read, measured.read, ?_⟩
  rintro first rest rfl
  obtain ⟨padding, size, scanned⟩ := measured.derived first rest rfl
  exact ⟨padding, size, scanned⟩

/-- A leaf that was read past its end, twice below one node. -/
theorem live_node_measured_of_repeated_child : ∃ session : Session,
    session.pool.isLive ⟨1, 0⟩ ∧
      (session.pool.lengths? ⟨1, 0⟩).map (·.scanned) = some 8 ∧
      ∃ node below, session.pool.node? ⟨1, 0⟩ = some node ∧
        node.children.map session.pool.lengths? = below.map some ∧
        node.lengths.bytes ≤ node.lengths.scanned.toNat ∧
        ∀ first rest, below = first :: rest →
          node.lengths.padding = first.padding ∧
          rest.foldlM Lengths.appendTo? first.size = some node.lengths.size ∧
          node.lengths.scanned.toNat = max node.lengths.bytes (Lengths.farthest 0 below) := by
  have leaf : Reached WritesLeaves _ := .step
    (.makeLeaf .empty .endOfInput ⟨1, ⟨0, 1⟩⟩ ⟨2, ⟨0, 2⟩⟩) (.start .standard) trivial rfl
  have written := leaf.step (.amend ⟨0, 0⟩ fun info =>
    { info with lengths := { info.lengths with scanned := 5 } })
    (by rintro node found; cases found; exact .inr ⟨rfl, rfl, by decide⟩) rfl
  have retained := written.step (.retain ⟨0, 0⟩) trivial rfl
  have node := retained.step (.makeNode .empty .endOfInput [⟨0, 0⟩, ⟨0, 0⟩]) trivial rfl
  exact ⟨_, rfl, rfl, node.live_node_measured rfl⟩

end Session

end SyntaxForest
