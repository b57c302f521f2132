import Mathlib.Data.Multiset.Basic
import Mathlib.Logic.Relation
import SyntaxForest.Proofs.Pool.View
import SyntaxForest.Proofs.Tree.Basic

/-! # The tree below a handle

Child lists turn a pool into a graph. A handle is grounded when every way down from it ends, which
is when it shows a tree; a node that is shared is shown in each of its places. What a handle shows
depends only on the nodes that it reaches, so it stays as long as those do.
-/

namespace SyntaxForest.Pool

/-- The second handle stands in the child list of the first. -/
def Child (pool : Pool) (parent child : NodeId) : Prop :=
  ∃ node, pool.node? parent = some node ∧ child ∈ node.children

/-- The second handle is the first, or is found below it. -/
def Reaches (pool : Pool) : NodeId → NodeId → Prop := Relation.ReflTransGen pool.Child

/-- Every way down from the handle ends. -/
inductive Grounded (pool : Pool) : NodeId → Prop where
  | intro {id : NodeId} {node : Node} (found : pool.node? id = some node)
    (below : ∀ child ∈ node.children, Grounded pool child) : Grounded pool id

mutual

/-- The handle shows the tree: its node and all below it are as in the tree, and have the handles
that the tree tells. -/
def Shows (pool : Pool) (id : NodeId) : Tree → Prop
  | .node handle info children =>
    (∀ known ∈ handle, known = id) ∧
      ∃ ids, pool.node? id = some ⟨info, ids⟩ ∧ ShowsAll pool ids children

def ShowsAll (pool : Pool) (ids : List NodeId) : List Tree → Prop
  | [] => ids = []
  | tree :: trees => ∃ id rest, ids = id :: rest ∧ Shows pool id tree ∧ ShowsAll pool rest trees

end

/-- Whatever the units reach is the same node afterwards. -/
def Keeps (pool after : Pool) (units : Multiset NodeId) : Prop :=
  ∀ id ∈ units, ∀ other, pool.Reaches id other → after.node? other = pool.node? other

section Reaches

variable {pool after : Pool} {id other : NodeId} {node : Node}

theorem Child.isLive_parent {parent : NodeId} (below : pool.Child parent other) :
    pool.isLive parent := by
  obtain ⟨_, found, _⟩ := below
  exact isLive_of_node? found

theorem child_of_mem (found : pool.node? id = some node) (member : other ∈ node.children) :
    pool.Child id other := ⟨node, found, member⟩

theorem reaches_of_mem (found : pool.node? id = some node) {child : NodeId}
    (member : child ∈ node.children) (reaches : pool.Reaches child other) :
    pool.Reaches id other := .head (child_of_mem found member) reaches

/-- A set that holds all children of its members holds what they reach. -/
theorem Reaches.closed {inside : NodeId → Prop} (reaches : pool.Reaches id other) (start : inside id)
    (step : ∀ parent child, inside parent → pool.Child parent child → inside child) :
    inside other := by
  induction reaches with
  | refl => exact start
  | tail _ last ih => exact step _ _ ih last

/-- Reachability depends only on the nodes that are reached. -/
theorem Reaches.transfer (reaches : pool.Reaches id other)
    (same : ∀ reached, pool.Reaches id reached → after.node? reached = pool.node? reached) :
    after.Reaches id other := by
  induction reaches with
  | refl => exact .refl
  | tail before last ih =>
    obtain ⟨node, found, member⟩ := last
    exact ih.tail ⟨node, (same _ before).trans found, member⟩

theorem Reaches.transfer_back (reaches : after.Reaches id other)
    (same : ∀ reached, pool.Reaches id reached → after.node? reached = pool.node? reached) :
    pool.Reaches id other := by
  induction reaches with
  | refl => exact .refl
  | tail _ last ih =>
    obtain ⟨node, found, member⟩ := last
    exact ih.tail ⟨node, (same _ ih).symm.trans found, member⟩

end Reaches

section Grounded

variable {pool after : Pool} {id : NodeId}

theorem Grounded.transfer (grounded : pool.Grounded id)
    (same : ∀ other, pool.Reaches id other → (after.node? other).map (·.children) =
      (pool.node? other).map (·.children)) : after.Grounded id := by
  induction grounded with
  | @intro id node found _ ih =>
    have children := same id .refl
    rw [found, Option.map_some, Option.map_eq_some_iff] at children
    obtain ⟨node', found', children⟩ := children
    refine .intro found' fun child member => ?_
    rw [children] at member
    exact ih child member fun other reaches => same other (reaches_of_mem found member reaches)

end Grounded

section Shows

variable {pool after : Pool} {id : NodeId} {ids : List NodeId} {handle : Option NodeId}
  {info : NodeInfo} {tree other : Tree} {children trees : List Tree}

theorem showsAll_iff : pool.ShowsAll ids trees ↔ List.Forall₂ pool.Shows ids trees := by
  induction trees generalizing ids with
  | nil => simp [ShowsAll]
  | cons tree trees ih =>
    simp only [ShowsAll, List.forall₂_cons_right_iff, ih]
    constructor
    · rintro ⟨id, rest, rfl, shows, all⟩
      exact ⟨id, rest, shows, all, rfl⟩
    · rintro ⟨id, rest, shows, all, rfl⟩
      exact ⟨id, rest, rfl, shows, all⟩

theorem shows_iff : pool.Shows id (.node handle info children) ↔
    (∀ known ∈ handle, known = id) ∧
      ∃ ids, pool.node? id = some ⟨info, ids⟩ ∧ List.Forall₂ pool.Shows ids children := by
  rw [Shows]
  simp only [showsAll_iff]

theorem Shows.node? (shows : pool.Shows id tree) :
    ∃ ids, pool.node? id = some ⟨tree.info, ids⟩ ∧
      List.Forall₂ pool.Shows ids tree.children := by
  obtain ⟨handle, info, children⟩ := tree
  exact (shows_iff.mp shows).2

theorem Shows.isLive (shows : pool.Shows id tree) : pool.isLive id :=
  let ⟨_, found, _⟩ := shows.node?
  isLive_of_node? found

theorem Shows.transfer (shows : pool.Shows id tree)
    (same : ∀ other, pool.Reaches id other → after.node? other = pool.node? other) :
    after.Shows id tree := by
  induction tree generalizing id with
  | node handle info children ih =>
    obtain ⟨named, ids, found, below⟩ := shows_iff.mp shows
    refine shows_iff.mpr ⟨named, ids, (same id .refl).trans found, ?_⟩
    refine below.imp_of_mem fun child member tree place shows => ?_
    exact ih tree place shows fun other reaches => same other (reaches_of_mem found member reaches)

theorem Shows.grounded (shows : pool.Shows id tree) : pool.Grounded id := by
  induction tree generalizing id with
  | node handle info children ih =>
    obtain ⟨_, ids, found, below⟩ := shows_iff.mp shows
    refine .intro found fun child member => ?_
    obtain ⟨tree, place, shows⟩ := below.exists_of_mem member
    exact ih tree place shows

/-- What a grounded handle shows can tell the handles of all its nodes. -/
theorem Grounded.exists_named (grounded : pool.Grounded id) :
    ∃ tree, pool.Shows id tree ∧ tree.Named := by
  induction grounded with
  | @intro id node found _ ih =>
    obtain ⟨trees, all⟩ := List.Forall₂.exists_of_forall ih
    refine ⟨.node (some id) node.toNodeInfo trees, ?_, .node fun tree place => ?_⟩
    · exact shows_iff.mpr ⟨by simp, node.children, found, all.imp fun _ _ both => both.1⟩
    · obtain ⟨_, _, _, named⟩ := (List.Forall₂.flip all).exists_of_mem place
      exact named

theorem Grounded.exists_shows (grounded : pool.Grounded id) : ∃ tree, pool.Shows id tree :=
  let ⟨tree, shows, _⟩ := grounded.exists_named
  ⟨tree, shows⟩

end Shows

namespace Keeps

variable {pool middle after : Pool} {units fewer : Multiset NodeId} {id other : NodeId} {tree : Tree}

theorem of_node?_eq (same : ∀ id, after.node? id = pool.node? id) : pool.Keeps after units :=
  fun _ _ other _ => same other

theorem mono (keeps : pool.Keeps after units) (sub : fewer ≤ units) : pool.Keeps after fewer :=
  fun id member => keeps id (Multiset.mem_of_le sub member)

theorem reaches_iff (keeps : pool.Keeps after units) (held : id ∈ units) :
    after.Reaches id other ↔ pool.Reaches id other :=
  ⟨fun reaches => reaches.transfer_back (keeps id held), fun reaches => reaches.transfer (keeps id held)⟩

theorem trans (first : pool.Keeps middle units) (second : middle.Keeps after units) :
    pool.Keeps after units := by
  intro id held other reaches
  rw [second id held other ((first.reaches_iff held).mpr reaches), first id held other reaches]

theorem shows (keeps : pool.Keeps after units) (held : id ∈ units) (shows : pool.Shows id tree) :
    after.Shows id tree := shows.transfer (keeps id held)

end Keeps

end SyntaxForest.Pool
