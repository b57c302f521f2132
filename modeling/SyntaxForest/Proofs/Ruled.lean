import SyntaxForest.Proofs.Kind

/-! # Rules of a node and its children

Much of what a node is was derived from its children when it was built. Such a rule is about each
node and the views that its children offer, so it is kept wherever units keep what they reach; a call
that makes a tree makes one that obeys it, and so does an edit, which leaves alone what the rule is
about. Callers may write whatever keeps a node to the rule, and the view that it offers as long as it
has no parent to see it.
-/

namespace SyntaxForest

/-- What a node must be over children that offer these views. -/
structure Rule (View : Type) where
  view : NodeInfo → View
  Holds : NodeInfo → List View → Prop

/-- The rule holds of what is built, and does not ask for what an edit can change. -/
structure Rule.Derived {View : Type} (rule : Rule View) : Prop where
  leaf : ∀ info : NodeInfo, info.shown = ⟨0, 0⟩ → rule.Holds info []
  inner : ∀ table symbol children info, NodeInfo.over? table symbol children = some info →
    rule.Holds info (children.map rule.view)
  kind : ∀ info info' below, info.kind = info'.kind → rule.Holds info below → rule.Holds info' below
  view_kind : ∀ info, rule.view info.kind = rule.view info

variable {View : Type} {rule : Rule View}

namespace Tree

/-- Every node of the tree obeys the rule. -/
inductive Obeys (rule : Rule View) : Tree → Prop where
  | node {handle : Option NodeId} {info : NodeInfo} {children : List Tree}
    (here : rule.Holds info (children.map fun child => rule.view child.info))
    (below : ∀ child ∈ children, Obeys rule child) : Obeys rule (node handle info children)

variable {tree tree' : Tree} {trees trees' : List Tree}

theorem map_view_of_kind (derived : rule.Derived)
    (same : trees'.map (image NodeInfo.kind) = trees.map (image NodeInfo.kind)) :
    trees'.map (fun tree => rule.view tree.info) = trees.map fun tree => rule.view tree.info := by
  have views := congrArg (List.map fun tree => rule.view tree.info) same
  simp only [List.map_map] at views
  refine (List.map_congr_left fun tree _ => ?_).trans
    (views.trans (List.map_congr_left fun tree _ => ?_))
  all_goals rw [Function.comp_apply, image_eq]
  · exact (derived.view_kind tree.info).symm
  · exact derived.view_kind tree.info

/-- Trees of one kind obey the same rules. -/
theorem Obeys.of_kind (derived : rule.Derived) (obeys : tree.Obeys rule)
    (same : tree'.image NodeInfo.kind = tree.image NodeInfo.kind) : tree'.Obeys rule := by
  induction obeys generalizing tree' with
  | @node handle info children here _ ih =>
    obtain ⟨handle', info', children'⟩ := tree'
    obtain ⟨kind, below⟩ := image_eq_iff.mp same
    simp only [Tree.children, Tree.info] at kind below
    refine .node ?_ fun child' place => ?_
    · rw [map_view_of_kind derived below]
      exact derived.kind info info' _ kind.symm here
    · obtain ⟨index, found⟩ := List.mem_iff_getElem?.mp place
      obtain ⟨child, found', alike⟩ := image_of_map_eq below.symm found
      exact ih child (List.mem_of_getElem? found') alike.symm

end Tree

namespace Pool

variable {pool after : Pool} {id : NodeId} {ids : List NodeId} {tree : Tree} {trees : List Tree}
  {units : Multiset NodeId}

/-- The view that a live node offers. -/
def view? (pool : Pool) (rule : Rule View) (id : NodeId) : Option View :=
  (pool.node? id).map fun node => rule.view node.toNodeInfo

/-- The node obeys the rule over its children. -/
def ObeysAt (pool : Pool) (rule : Rule View) (id : NodeId) : Prop :=
  ∃ node below, pool.node? id = some node ∧
    node.children.map (pool.view? rule) = below.map some ∧ rule.Holds node.toNodeInfo below

/-- Every live node obeys the rule. -/
def Obeys (pool : Pool) (rule : Rule View) : Prop := ∀ id, pool.isLive id → pool.ObeysAt rule id

theorem view?_of_shows (rule : Rule View) (all : List.Forall₂ pool.Shows ids trees) :
    ids.map (pool.view? rule) = (trees.map fun tree => rule.view tree.info).map some := by
  induction all with
  | nil => rfl
  | @cons id tree ids trees shows _ ih =>
    obtain ⟨_, found, _⟩ := shows.node?
    rw [List.map_cons, List.map_cons, List.map_cons, ih, view?, found]
    rfl

/-- A node goes on to obey a rule if it keeps its children, they offer the same views, and the rule
holds of what it has become. -/
theorem ObeysAt.transfer (obeys : pool.ObeysAt rule id) {node node' : Node}
    (found : pool.node? id = some node) (found' : after.node? id = some node')
    (children : node'.children = node.children)
    (holds : ∀ below, rule.Holds node.toNodeInfo below → rule.Holds node'.toNodeInfo below)
    (views : ∀ child, pool.Child id child → after.view? rule child = pool.view? rule child) :
    after.ObeysAt rule id := by
  obtain ⟨_, below, again, read, held⟩ := obeys
  cases found.symm.trans again
  refine ⟨node', below, found', ?_, holds below held⟩
  rw [children, ← read]
  exact List.map_congr_left fun child member => views child ⟨node, found, member⟩

theorem ObeysAt.of_node?_eq (obeys : pool.ObeysAt rule id) (same : after.node? id = pool.node? id)
    (views : ∀ child, pool.Child id child → after.view? rule child = pool.view? rule child) :
    after.ObeysAt rule id := by
  obtain ⟨node, below, found, held⟩ := obeys
  exact transfer ⟨node, below, found, held⟩ found (same.trans found) rfl (fun _ holds => holds) views

/-- A handle shows a tree that obeys a rule if and only if all that it reaches does. -/
theorem Shows.obeys_iff (shows : pool.Shows id tree) :
    tree.Obeys rule ↔ ∀ other, pool.Reaches id other → pool.ObeysAt rule other := by
  induction tree generalizing id with
  | node handle info children ih =>
    obtain ⟨_, ids, found, all⟩ := shows_iff.mp shows
    have read := view?_of_shows rule all
    constructor
    · rintro ⟨here, below⟩ other reaches
      rcases reaches.cases_head with rfl | ⟨child, ⟨node, found', member⟩, rest⟩
      · exact ⟨_, _, found, read, here⟩
      · cases found.symm.trans found'
        obtain ⟨tree, place, shows'⟩ := all.exists_of_mem member
        exact (ih tree place shows').mp (below tree place) other rest
    · intro reached
      refine .node ?_ fun tree place => ?_
      · obtain ⟨node, below, found', read', holds⟩ := reached id .refl
        cases found.symm.trans found'
        have same := List.map_injective_iff.mpr (Option.some_injective _) (read.symm.trans read')
        rwa [same]
      · obtain ⟨child, member, shows'⟩ := (List.Forall₂.flip all).exists_of_mem place
        refine (ih tree place shows').mpr fun other reaches => ?_
        exact reached other (reaches_of_mem found member reaches)

theorem Obeys.shows (obeys : pool.Obeys rule) (shows : pool.Shows id tree) : tree.Obeys rule :=
  shows.obeys_iff.mpr fun _ reaches =>
    let ⟨_, shows', _⟩ := shows.of_reaches reaches
    obeys _ shows'.isLive

theorem Keeps.obeysAt (keeps : pool.Keeps after units) (obeys : pool.Obeys rule)
    {unit : NodeId} (held : unit ∈ units) (reaches : after.Reaches unit id)
    (live : after.isLive id) : after.ObeysAt rule id := by
  have before := (keeps.reaches_iff held).mp reaches
  have same := keeps unit held id before
  have obeysBefore := obeys id (by rwa [← isLive_congr (congrArg _ same)])
  refine obeysBefore.of_node?_eq same fun child below => ?_
  rw [view?, view?, keeps unit held child (before.tail below)]

end Pool

theorem Call.Makes.obeys {pool : Pool} {call : Call} {tree : Tree} (derived : rule.Derived)
    (obeys : pool.Obeys rule) (makes : call.Makes pool tree) : tree.Obeys rule := by
  cases call with
  | acquire =>
    obtain rfl := makes
    exact .node (derived.leaf _ rfl) nofun
  | makeLeaf table symbol padding size =>
    obtain ⟨lengths, _, rfl⟩ := makes
    exact .node (derived.leaf _ rfl) nofun
  | makeError table padding size lookahead =>
    obtain ⟨lengths, _, rfl⟩ := makes
    exact .node (derived.leaf _ rfl) nofun
  | makeNode table symbol children =>
    obtain ⟨info, trees, _, below, summed, rfl⟩ := makes
    refine .node ?_ fun tree place => ?_
    · have here := derived.inner _ _ _ _ summed
      rwa [List.map_map] at here
    · obtain ⟨child, _, shows⟩ := (List.Forall₂.flip below).exists_of_mem place
      exact obeys.shows shows
  | edit root change =>
    obtain ⟨before, shows, revised⟩ := makes
    exact (obeys.shows shows).of_kind derived (Tree.kind_of_revise? revised)
  | retain | release | amend => exact makes.elim

namespace Session

variable {allowed : Session → Call → Prop} {session : Session}

/-- What the caller writes keeps a node to the rule, and keeps the view that it offers as long as it
stands in a child list. -/
def Respects (rule : Rule View) (session : Session) : Call → Prop
  | .amend id change => ∀ node, session.pool.node? id = some node →
    (∀ below, rule.Holds node.toNodeInfo below → rule.Holds (change node.toNodeInfo) below) ∧
      (rule.view (change node.toNodeInfo) = rule.view node.toNodeInfo ∨
        session.pool.occurrences id = 0)
  | _ => True

theorem obeys_amend {pool : Pool} {id : NodeId} {change : NodeInfo → NodeInfo} {node : Node}
    (obeys : session.pool.Obeys rule) (may : session.Respects rule (.amend id change))
    (found : session.pool.node? id = some node)
    (written : pool.node? id = some { node with toNodeInfo := change node.toNodeInfo })
    (others : ∀ other, other ≠ id → pool.node? other = session.pool.node? other) :
    pool.Obeys rule := by
  obtain ⟨keeps, seen⟩ := may node found
  have view (parent child : NodeId) (below : session.pool.Child parent child) :
      pool.view? rule child = session.pool.view? rule child := by
    by_cases same : child = id
    · rcases seen with seen | parentless
      · rw [same, Pool.view?, Pool.view?, written, found, Option.map_some, Option.map_some, seen]
      · exact (Pool.occurrences_ne_zero_of_child (same ▸ below) parentless).elim
    · rw [Pool.view?, Pool.view?, others child same]
  intro other live
  by_cases same : other = id
  · subst same
    exact (obeys other (Pool.isLive_of_node? found)).transfer found written rfl keeps (view other)
  · have unchanged := others other same
    have live' := (Pool.isLive_congr (congrArg _ unchanged)).symm.trans live
    exact (obeys other live').of_node?_eq unchanged (view other)

/-- Every live node obeys a rule that is derived and that callers respect. -/
theorem Reached.pool_obeys (derived : rule.Derived)
    (respects : ∀ session call, allowed session call → Respects rule session call)
    (reached : Reached allowed session) : session.pool.Obeys rule := by
  induction reached with
  | start sizing => exact fun id live => (Pool.not_isLive_empty sizing id live).elim
  | @step session after call before may stepped ih =>
    have owned := (before.step call may stepped).owned
    obtain ⟨rest, given, _, held, outcome⟩ := step?_outcome before.owned stepped
    intro id live
    obtain ⟨unit, isHeld, reaches⟩ := owned.isLive_iff_reaches.mp live
    rw [held] at isHeld
    cases outcome with
    | made makes settled =>
      rcases Multiset.mem_add.mp isHeld with isNew | isHeld
      · obtain rfl := Multiset.mem_singleton.mp isNew
        exact settled.shows.obeys_iff.mp (makes.obeys derived ih) id reaches
      · exact settled.spares.kept.obeysAt ih isHeld reaches live
    | handed _ kept => exact kept.obeysAt ih isHeld reaches live
    | amended _ found written others =>
      exact obeys_amend ih (respects _ _ may) found written others id live

end Session

end SyntaxForest
