import Mathlib.Data.Option.Defs
import SyntaxForest.Proofs.Outline

/-! # Trees in post-order

The nodes of a tree in post-order are those below each child in turn, and then the node itself. The
search for the last node of an outside scanner goes the other way, each node before its children and
the last child first, and stops at the first one that it comes upon; this is the last one in
post-order, and no node is passed over.
-/

namespace SyntaxForest

namespace Tree

/-- The handle that a node tells. -/
def handle : Tree → Option NodeId
  | node handle _ _ => handle

mutual

/-- The trees at all places, each after the trees below it and those to the left of it. -/
def postorder : Tree → List Tree
  | node handle info children => postorderAll children ++ [node handle info children]

def postorderAll : List Tree → List Tree
  | [] => []
  | tree :: trees => tree.postorder ++ postorderAll trees

end

theorem mem_postorderAll {trees : List Tree} {place : Tree} :
    place ∈ postorderAll trees ↔ ∃ tree ∈ trees, place ∈ tree.postorder := by
  induction trees with
  | nil => simp [postorderAll]
  | cons first rest ih => simp [postorderAll, ih]

/-- The last of these trees whose node an outside scanner produced. -/
def lastExternal? (trees : List Tree) : Option Tree :=
  (trees.filter (·.info.external)).getLast?

theorem lastExternal?_append (first second : List Tree) :
    lastExternal? (first ++ second) = (lastExternal? second).or (lastExternal? first) := by
  rw [lastExternal?, List.filter_append, List.getLast?_append]
  rfl

theorem lastExternal?_eq_none_iff {trees : List Tree} :
    lastExternal? trees = none ↔ ∀ tree ∈ trees, tree.info.external = false := by
  simp only [lastExternal?, List.getLast?_eq_none_iff, List.filter_eq_nil_iff, Bool.not_eq_true]

theorem lastExternal?_singleton (tree : Tree) :
    lastExternal? [tree] = if tree.info.external then some tree else none := by
  cases external : tree.info.external <;> simp [lastExternal?, external]

theorem lastExternal?_postorder (handle : Option NodeId) (info : NodeInfo) (children : List Tree) :
    lastExternal? (node handle info children).postorder =
      if info.external then some (node handle info children)
      else lastExternal? (postorderAll children) := by
  rw [postorder, lastExternal?_append, lastExternal?_singleton, Tree.info]
  split <;> rfl

end Tree

namespace Pool

variable {pool : Pool} {id other : NodeId} {ids : List NodeId} {tree place : Tree}
  {trees : List Tree} {depth : Nat}

/-- What stands in the post-order of a tree has been found below its handle. -/
theorem Shows.exists_reaches_of_mem_postorder (shows : pool.Shows id tree)
    (member : place ∈ tree.postorder) : ∃ other, pool.Reaches id other ∧ pool.Shows other place := by
  induction tree generalizing id with
  | node handle info children ih =>
    rw [Tree.postorder, List.mem_append, List.mem_singleton] at member
    rcases member with below | rfl
    · obtain ⟨tree, isChild, member⟩ := Tree.mem_postorderAll.mp below
      obtain ⟨_, ids, found, all⟩ := shows_iff.mp shows
      obtain ⟨child, isEntry, shows'⟩ := (List.Forall₂.flip all).exists_of_mem isChild
      obtain ⟨other, reaches, shows''⟩ := ih tree isChild shows' member
      exact ⟨other, reaches_of_mem found isEntry reaches, shows''⟩
    · exact ⟨id, .refl, shows⟩

/-- Whatever is found below a handle stands in the post-order of its tree. -/
theorem Shows.exists_mem_postorder_of_reaches (shows : pool.Shows id tree)
    (reaches : pool.Reaches id other) : ∃ place ∈ tree.postorder, pool.Shows other place := by
  induction tree generalizing id with
  | node handle info children ih =>
    rw [Tree.postorder]
    rcases reaches.cases_head with rfl | ⟨child, ⟨node, found, isEntry⟩, rest⟩
    · exact ⟨_, List.mem_append_right _ (List.mem_singleton_self _), shows⟩
    · obtain ⟨_, ids, found', all⟩ := shows_iff.mp shows
      cases found.symm.trans found'
      obtain ⟨tree, isChild, shows'⟩ := all.exists_of_mem isEntry
      obtain ⟨place, member, shows''⟩ := ih tree isChild shows' rest
      exact ⟨place, List.mem_append_left _ (Tree.mem_postorderAll.mpr ⟨tree, isChild, member⟩),
        shows''⟩

/-- An outside scanner produced no node of a tree if and only if it produced none that is found below
the handle. -/
theorem Shows.forall_postorder_iff (shows : pool.Shows id tree) :
    (∀ place ∈ tree.postorder, place.info.external = false) ↔
      ∀ other node, pool.Reaches id other → pool.node? other = some node →
        node.external = false := by
  constructor
  · intro each other node reaches found
    obtain ⟨place, member, shows'⟩ := shows.exists_mem_postorder_of_reaches reaches
    obtain ⟨_, found', _⟩ := shows'.node?
    cases found.symm.trans found'
    exact each place member
  · intro each place member
    obtain ⟨other, reaches, shows'⟩ := shows.exists_reaches_of_mem_postorder member
    obtain ⟨_, found, _⟩ := shows'.node?
    exact each other _ reaches found

/-! ## The search -/

/-- The search from a place has this outcome: the handle of the tree, or nothing. -/
def Finds (pool : Pool) (agenda : List (Nat × NodeId)) (last : Option Tree) : Prop :=
  ∃ found, Agenda.search pool.externalOrChildren .endless agenda = .ok found ∧
    Option.Rel (fun id place => place.handle = some id) found last

/-- What is searched later counts only if nothing was found before. -/
theorem Finds.append {first second : List (Nat × NodeId)} {last earlier : Option Tree}
    (finds : pool.Finds first last) (rest : pool.Finds second earlier) :
    pool.Finds (first ++ second) (last.or earlier) := by
  obtain ⟨found, searched, same⟩ := finds
  rw [Finds, Agenda.search_append, searched]
  cases same with
  | some same => exact ⟨_, rfl, .some same⟩
  | none => exact rest

/-- Children are searched from the last. -/
theorem finds_reverse (all : List.Forall₂ pool.Shows ids trees)
    (each : ∀ tree ∈ trees, ∀ id, pool.Shows id tree →
      pool.Finds [(depth, id)] (Tree.lastExternal? tree.postorder)) :
    pool.Finds (ids.reverse.map (depth, ·)) (Tree.lastExternal? (Tree.postorderAll trees)) := by
  induction all with
  | nil => exact ⟨none, by rw [List.reverse_nil, List.map_nil, Agenda.search], .none⟩
  | cons shows _ ih =>
    rw [List.reverse_cons, List.map_append, Tree.postorderAll, Tree.lastExternal?_append]
    have later := ih fun tree member => each tree (List.mem_cons_of_mem _ member)
    exact later.append (each _ List.mem_cons_self _ shows)

theorem externalOrChildren_of_node? {node : Node} (found : pool.node? id = some node) :
    pool.externalOrChildren id =
      .ok (if node.external then .inl id else .inr node.children.reverse) := by
  rw [externalOrChildren, node_eq_ok_iff.mpr found]
  rfl

/-- From a handle with depth enough below it the last one in post-order is found. -/
theorem Shows.finds (shows : pool.Shows id tree) (named : tree.Named)
    (deep : tree.height ≤ depth) :
    pool.Finds [(depth, id)] (Tree.lastExternal? tree.postorder) := by
  induction named generalizing id depth with
  | @node name info children named ih =>
    obtain ⟨told, ids, found, all⟩ := shows_iff.mp shows
    obtain rfl : name = id := told name rfl
    obtain ⟨depth, rfl, shallow⟩ := Tree.exists_depth_below deep
    have below := finds_reverse all fun tree isChild _ shows =>
      ih tree isChild shows (shallow tree isChild)
    rw [Tree.lastExternal?_postorder, Finds, Agenda.search_one,
      externalOrChildren_of_node? found]
    by_cases external : info.external = true
    · rw [if_pos external, if_pos external]
      exact ⟨some name, rfl, .some rfl⟩
    · rw [if_neg external, if_neg external]
      exact below

end Pool

namespace Session

variable {allowed : Session → Call → Prop} {session : Session} {id : NodeId}

/-- The search from a live node ends with the handle of the last node in post-order that an outside
scanner produced, wherever in the tree such nodes stand, and without one if and only if none is found
below the node. -/
theorem Reached.last_in_postorder (reached : Reached allowed session)
    (live : session.pool.isLive id) :
    (∃ tree, session.pool.Shows id tree ∧ tree.Named) ∧
      ∀ tree, session.pool.Shows id tree → tree.Named →
        ∃ found, session.pool.lastExternal? id = .ok found ∧
          Option.Rel (fun last place => place.handle = some last) found
            (tree.postorder.filter (·.info.external)).getLast? ∧
          (found = none ↔ ∀ other node, session.pool.Reaches id other →
            session.pool.node? other = some node → node.external = false) := by
  have owned := reached.owned
  refine ⟨(owned.grounded_of_live live).exists_named, fun tree shows named => ?_⟩
  obtain ⟨found, searched, same⟩ := shows.finds named (owned.height_le_walkDepth shows)
  refine ⟨found, searched, same, ?_⟩
  rw [← shows.forall_postorder_iff, ← Tree.lastExternal?_eq_none_iff]
  generalize Tree.lastExternal? tree.postorder = last at same
  cases same <;> simp

/-- A token that an outside scanner produced, twice below a node that it produced as well, and after
these a token of the grammar. -/
def nested : Session where
  pool :=
    { slots := #[⟨0, 2, ⟨{ NodeInfo.blank with external := true }, []⟩⟩, ⟨0, 1, .blank⟩,
        ⟨0, 1, ⟨{ NodeInfo.blank with external := true }, [⟨0, 0⟩, ⟨0, 0⟩]⟩⟩,
        ⟨0, 1, ⟨.blank, [⟨2, 0⟩, ⟨1, 0⟩]⟩⟩]
      free := [], journal := #[], sizing := .standard }
  held := {⟨3, 0⟩}

theorem reached_nested : Reached (fun _ _ => True) nested := by
  have token : Reached (fun _ _ => True) _ := .step
    (.makeLeaf .empty .endOfInput .zero .zero) (.start .standard) trivial rfl
  have written := token.step (.amend ⟨0, 0⟩ fun info => { info with external := true }) trivial rfl
  have retained := written.step (.retain ⟨0, 0⟩) trivial rfl
  have after := retained.step (.makeLeaf .empty .endOfInput .zero .zero) trivial rfl
  have inner := after.step (.makeNode .empty .endOfInput [⟨0, 0⟩, ⟨0, 0⟩]) trivial rfl
  have flagged := inner.step (.amend ⟨2, 0⟩ fun info => { info with external := true }) trivial rfl
  have root := flagged.step (.makeNode .empty .endOfInput [⟨2, 0⟩, ⟨1, 0⟩]) trivial rfl
  exact root

/-- The node is the last one, and stands after the tokens below it. -/
theorem last_in_postorder_of_nested : ∃ tree place,
    nested.pool.Shows ⟨3, 0⟩ tree ∧ nested.pool.lastExternal? ⟨3, 0⟩ = .ok (some ⟨2, 0⟩) ∧
      (tree.postorder.filter (·.info.external)).getLast? = some place ∧
        place.handle = some ⟨2, 0⟩ := by
  obtain ⟨⟨tree, shows, named⟩, each⟩ :=
    reached_nested.last_in_postorder (show nested.pool.isLive ⟨3, 0⟩ from rfl)
  obtain ⟨found, searched, same, _⟩ := each tree shows named
  have second : (nested.pool.lastExternal? ⟨3, 0⟩).toOption = some (some ⟨2, 0⟩) := by
    rw [Pool.lastExternal?, Pool.search_eq_findSomeM?]
    decide +kernel
  rw [searched] at second
  obtain rfl := Option.some.inj second
  generalize last : (tree.postorder.filter (·.info.external)).getLast? = place at same
  cases same with
  | some told => exact ⟨tree, _, shows, searched, last, told⟩

end Session

end SyntaxForest
