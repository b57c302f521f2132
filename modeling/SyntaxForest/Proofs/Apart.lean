import SyntaxForest.Proofs.Edit.Refinement
import SyntaxForest.Proofs.Measured
import SyntaxForest.Proofs.Tree.Apart

/-! # What an edit leaves alone in a session

An edit copies what is shared on its way and changes the rest where it stands. What is out of its
reach is neither copied nor changed: the same handle stands in the same place, over the same nodes.
-/

namespace SyntaxForest

open SyntaxForest.Tree

namespace Pool

/-- A handle that is found below another one. -/
structure Spot where
  /-- The byte at which its text starts. -/
  start : Nat
  id : NodeId

/-- What is found at the end of a path, which tells the index of a child at each step down. -/
def spotAt? (pool : Pool) (id : NodeId) : List Nat → Option Spot
  | [] => some ⟨0, id⟩
  | index :: path => do
    let node ← pool.node? id
    let child ← node.children[index]?
    let spot ← pool.spotAt? child path
    return { spot with start := Lengths.startOf (node.children.filterMap pool.lengths?) index + spot.start }

variable {pool after : Pool} {id id' other : NodeId} {ids ids' : List NodeId} {tree : Tree}
  {trees : List Tree} {path : List Nat} {index : Nat} {spot : Spot} {place : Place}

theorem spotAt?_cons_eq_some_iff : pool.spotAt? id (index :: path) = some spot ↔
    ∃ node child below, pool.node? id = some node ∧ node.children[index]? = some child ∧
      pool.spotAt? child path = some below ∧
        spot = ⟨Lengths.startOf (node.children.filterMap pool.lengths?) index + below.start, below.id⟩ := by
  simp only [spotAt?, Option.bind_eq_bind, Option.bind_eq_some_iff, Option.pure_def,
    Option.some.injEq, eq_comm (b := spot), exists_and_left]

theorem filterMap_lengths?_of_shows (all : List.Forall₂ pool.Shows ids trees) :
    ids.filterMap pool.lengths? = trees.map Tree.lengths := by
  have read := congrArg (List.filterMap fun lengths => lengths) (lengths?_of_shows all)
  simpa only [List.filterMap_map, Function.comp_def, List.filterMap_eq_map'] using read

/-- A handle is found wherever the tree has a place. -/
theorem Shows.spotAt? (shows : pool.Shows id tree) (found : tree.at? path = some place) :
    ∃ spot, pool.spotAt? id path = some spot ∧ spot.start = place.start ∧
      pool.Shows spot.id place.tree := by
  induction path generalizing id tree place with
  | nil =>
    cases found
    exact ⟨_, rfl, rfl, shows⟩
  | cons index path ih =>
    obtain ⟨child, below, isChild, deeper, rfl⟩ := at?_cons_eq_some_iff.mp found
    obtain ⟨ids, node, all⟩ := shows.node?
    obtain ⟨childId, isEntry, shows'⟩ := (List.Forall₂.flip all).getElem? isChild
    obtain ⟨spot, deeper', start, shows''⟩ := ih shows' deeper
    refine ⟨_, spotAt?_cons_eq_some_iff.mpr ⟨_, _, _, node, isEntry, deeper', rfl⟩, ?_, shows''⟩
    rw [start, filterMap_lengths?_of_shows all]
    rfl

theorem Shows.at? (shows : pool.Shows id tree) (found : pool.spotAt? id path = some spot) :
    ∃ place, tree.at? path = some place ∧ spot.start = place.start ∧
      pool.Shows spot.id place.tree := by
  induction path generalizing id tree spot with
  | nil =>
    cases found
    exact ⟨_, rfl, rfl, shows⟩
  | cons index path ih =>
    obtain ⟨node, childId, below, found', isEntry, deeper, rfl⟩ := spotAt?_cons_eq_some_iff.mp found
    obtain ⟨ids, found'', all⟩ := shows.node?
    cases found'.symm.trans found''
    obtain ⟨child, isChild, shows'⟩ := all.getElem? isEntry
    obtain ⟨place, deeper', start, shows''⟩ := ih shows' deeper
    refine ⟨_, at?_cons_eq_some_iff.mpr ⟨child, place, isChild, deeper', rfl⟩, ?_, shows''⟩
    rw [start, filterMap_lengths?_of_shows all]
    rfl

end Pool

/-! ## Named trees -/

namespace Tree.Named

open Pool

variable {pool after : Pool} {id id' other : NodeId} {ids ids' : List NodeId} {tree : Tree}
  {trees : List Tree} {path : List Nat} {place : Place}

/-- Only the handle that it tells shows a named tree. -/
theorem unique (named : tree.Named) (shows : pool.Shows id tree) (shows' : after.Shows id' tree) :
    id = id' := by
  cases named with
  | @node name info children below =>
    have first := (shows_iff.mp shows).1 name rfl
    have second := (shows_iff.mp shows').1 name rfl
    exact first.symm.trans second

theorem unique_all (named : ∀ tree ∈ trees, tree.Named) (all : List.Forall₂ pool.Shows ids trees)
    (all' : List.Forall₂ after.Shows ids' trees) : ids = ids' := by
  induction all generalizing ids' with
  | nil => exact (List.forall₂_nil_right_iff.mp all').symm
  | cons shows _ ih =>
    obtain ⟨id', rest, shows', later, rfl⟩ := List.forall₂_cons_right_iff.mp all'
    rw [(named _ List.mem_cons_self).unique shows shows',
      ih (fun tree member => named tree (List.mem_cons_of_mem _ member)) later]

/-- Where a named tree is shown again, all its nodes are as they were. -/
theorem node?_eq (named : tree.Named) (shows : pool.Shows id tree) (shows' : after.Shows id tree)
    (reaches : pool.Reaches id other) : after.node? other = pool.node? other := by
  induction named generalizing id with
  | @node name info children below ih =>
    obtain ⟨_, ids, found, all⟩ := shows_iff.mp shows
    obtain ⟨_, ids', found', all'⟩ := shows_iff.mp shows'
    obtain rfl := unique_all below all all'
    rcases reaches.cases_head with rfl | ⟨child, ⟨node, again, member⟩, rest⟩
    · rw [found, found']
    · cases found.symm.trans again
      obtain ⟨index, isEntry⟩ := List.getElem?_of_mem member
      obtain ⟨tree, isChild, shows⟩ := all.getElem? isEntry
      obtain ⟨tree', isChild', shows'⟩ := all'.getElem? isEntry
      cases isChild.symm.trans isChild'
      exact ih tree (List.mem_of_getElem? isChild) shows shows' rest

theorem of_at? (named : tree.Named) (found : tree.at? path = some place) : place.tree.Named := by
  induction path generalizing tree place with
  | nil =>
    cases found
    exact named
  | cons index path ih =>
    obtain ⟨child, below, isChild, deeper, rfl⟩ := at?_cons_eq_some_iff.mp found
    cases named with
    | node each =>
      have named := ih (each child (List.mem_of_getElem? isChild)) deeper
      exact named

end Tree.Named

/-! ## Edits -/

namespace Session

variable {allowed : Session → Call → Prop} {session : Session} {root edited : NodeId}
  {edit : TextEdit} {after : Pool}

/-- What was read only up to a byte before the edit, and what starts after its start and no earlier
than its end, stays in its place under the same handle, and all nodes below it stay as they are. -/
theorem Reached.edit_keeps_apart (reached : Reached allowed session) (held : root ∈ session.held)
    (measured : ∀ id, session.pool.Reaches root id → session.pool.MeasuredAt id)
    (ran : Pool.edit root edit session.pool = .ok (.ok edited) after) {path : List Nat}
    {spot : Pool.Spot} {node : Node} (found : session.pool.spotAt? root path = some spot)
    (here : session.pool.node? spot.id = some node)
    (apart : spot.start + node.lengths.scanned.toNat < edit.startByte ∨
      edit.startByte < spot.start ∧ edit.stopByte ≤ spot.start) :
    (∃ spot', after.spotAt? edited path = some spot' ∧ spot'.id = spot.id) ∧
      ∀ id, session.pool.Reaches spot.id id →
        ∃ node, session.pool.node? id = some node ∧ after.node? id = some node := by
  obtain ⟨tree, shows, named⟩ := (reached.owned.grounded_of_unit held).exists_named
  obtain ⟨tree', revised, settled⟩ := reached.revise?_of_edit held shows ran
  obtain ⟨place, isPlace, start, showsHere⟩ := shows.at? found
  have apart' : place.Apart edit.startByte edit.stopByte := by
    obtain ⟨_, here', _⟩ := showsHere.node?
    cases here.symm.trans here'
    rwa [start] at apart
  obtain ⟨place', isPlace', same⟩ :=
    (shows.measured_iff.mpr measured).at?_of_revise? revised isPlace apart'
  obtain ⟨spot', found', _, showsAfter⟩ := settled.shows.spotAt? isPlace'
  rw [same] at showsAfter
  have sameId := (named.of_at? isPlace).unique showsAfter showsHere
  refine ⟨⟨spot', found', sameId⟩, fun id reaches => ?_⟩
  obtain ⟨_, shows', _⟩ := showsHere.of_reaches reaches
  obtain ⟨node, before⟩ := Pool.isLive_iff_node?.mp shows'.isLive
  rw [sameId] at showsAfter
  exact ⟨node, before, ((named.of_at? isPlace).node?_eq showsHere showsAfter reaches).trans before⟩

/-- Two tokens of three bytes, under a node of which the caller has two units. -/
def paired : Session where
  pool :=
    { slots := #[⟨0, 1, ⟨{ NodeInfo.blank with lengths := ⟨.zero, ⟨3, ⟨0, 3⟩⟩, 3⟩ }, []⟩⟩,
        ⟨0, 1, ⟨{ NodeInfo.blank with lengths := ⟨.zero, ⟨3, ⟨0, 3⟩⟩, 3⟩ }, []⟩⟩,
        ⟨0, 2, ⟨{ NodeInfo.blank with lengths := ⟨.zero, ⟨6, ⟨0, 6⟩⟩, 6⟩ }, [⟨0, 0⟩, ⟨1, 0⟩]⟩⟩]
      free := [], journal := #[], sizing := .standard }
  held := {⟨2, 0⟩, ⟨2, 0⟩}

theorem reached_paired : Reached WritesLeaves paired := by
  have first : Reached WritesLeaves _ := .step
    (.makeLeaf .empty .endOfInput .zero ⟨3, ⟨0, 3⟩⟩) (.start .standard) trivial rfl
  have second := first.step (.makeLeaf .empty .endOfInput .zero ⟨3, ⟨0, 3⟩⟩) trivial rfl
  have node := second.step (.makeNode .empty .endOfInput [⟨0, 0⟩, ⟨1, 0⟩]) trivial rfl
  have retained := node.step (.retain ⟨2, 0⟩) trivial rfl
  exact retained

/-- Text is put into the second token. The node is copied for the other unit, and the copy has the
first token itself in its place. -/
theorem edit_keeps_apart_of_paired : ∃ after spot,
    Pool.edit ⟨2, 0⟩ ⟨⟨5, ⟨0, 5⟩⟩, .zero, ⟨1, ⟨0, 1⟩⟩⟩ paired.pool = .ok (.ok ⟨3, 0⟩) after ∧
      after.spotAt? ⟨3, 0⟩ [0] = some spot ∧ spot.id = ⟨0, 0⟩ ∧
        after.node? ⟨0, 0⟩ = paired.pool.node? ⟨0, 0⟩ := by
  have copied : paired.pool.editPasses ⟨2, 0⟩ ⟨⟨5, ⟨0, 5⟩⟩, .zero, ⟨1, ⟨0, 1⟩⟩⟩
      (fun edited _ => decide (edited = ⟨3, 0⟩)) = true := by
    rw [Pool.editPasses, Pool.edit_eq_descendEdit]
    decide +kernel
  obtain ⟨edited, after, ran, isThird⟩ := Pool.editPasses_iff.mp copied
  obtain rfl := of_decide_eq_true isThird
  have held : ⟨2, 0⟩ ∈ paired.held := by decide
  have owned := reached_paired.owned
  have found : paired.pool.spotAt? ⟨2, 0⟩ [0] = some ⟨0, ⟨0, 0⟩⟩ := rfl
  obtain ⟨⟨spot, found', same⟩, kept⟩ := reached_paired.edit_keeps_apart held
    (fun id reaches => reached_paired.pool_measured id (owned.of_reaches (owned.of_unit held) reaches).1)
    ran found rfl (.inl (by decide))
  obtain ⟨node, before, later⟩ := kept ⟨0, 0⟩ .refl
  exact ⟨after, spot, ran, found', same, later.trans before.symm⟩

end Session

end SyntaxForest
