import SyntaxForest.Proofs.Outline
import SyntaxForest.Proofs.Pool.Steady
import SyntaxForest.Proofs.Traversal

/-! # What it is for trees to compare equal

A comparison of two live nodes always ends, and finds them equal if and only if every path from the
one leads somewhere exactly if it does from the other, to nodes that agree. Which nodes the two share
has no say in that. So trees that compare equal make up classes, and nodes that are built alike over
children of the same classes are in one class again.
-/

namespace List.Forall₂

variable {α β : Type*} {R : α → β → Prop}

theorem iff_getElem? {left : List α} {right : List β} :
    Forall₂ R left right ↔ ∀ index : Nat, Option.Rel R left[index]? right[index]? := by
  induction left generalizing right with
  | nil =>
    cases right with
    | nil => exact iff_of_true .nil fun _ => .none
    | cons b right => exact iff_of_false nofun fun each => nomatch each 0
  | cons a left ih =>
    cases right with
    | nil => exact iff_of_false nofun fun each => nomatch each 0
    | cons b right =>
      rw [forall₂_cons, ih]
      constructor
      · rintro ⟨first, rest⟩ (_ | index)
        · exact .some first
        · exact rest index
      · exact fun each => ⟨Option.rel_some_some.mp (each 0), fun index => each (index + 1)⟩

end List.Forall₂

namespace SyntaxForest

theorem NodeInfo.outline_of_over? {table : SymbolTable} {symbol : Symbol} {info info' : NodeInfo}
    {trees trees' : List Tree} (same : trees.map Tree.outline = trees'.map Tree.outline)
    (derived : over? table symbol (trees.map Tree.info) = some info)
    (derived' : over? table symbol (trees'.map Tree.info) = some info') :
    info.outline = info'.outline := by
  obtain ⟨_, _, derived⟩ := Option.bind_eq_some_iff.mp derived
  obtain ⟨_, _, derived'⟩ := Option.bind_eq_some_iff.mp derived'
  obtain ⟨lengths, gathered, rfl⟩ := Option.map_eq_some_iff.mp derived
  obtain ⟨lengths', gathered', rfl⟩ := Option.map_eq_some_iff.mp derived'
  rw [List.map_map] at gathered gathered'
  exact NodeInfo.outline_eq_iff.mpr ⟨rfl, rfl,
    Lengths.outline_of_over? (Tree.map_lengths_of_outline same) gathered gathered'⟩

namespace Pool

variable {pool : Pool} {left right : NodeId} {ids ids' : List NodeId} {tree tree' : Tree}
  {trees trees' : List Tree}

/-- The nodes have the same symbol, are both shown or both hidden, and have as many bytes of padding
and of content. -/
def Agree (pool : Pool) (left right : NodeId) : Prop :=
  ∃ node node', pool.node? left = some node ∧ pool.node? right = some node' ∧
    node.symbol = node'.symbol ∧ node.visible = node'.visible ∧
    node.lengths.padding.bytes = node'.lengths.padding.bytes ∧
    node.lengths.size.bytes = node'.lengths.size.bytes

/-- The same paths lead somewhere from both, to nodes that agree. -/
def AgreeThroughout (pool : Pool) (left right : NodeId) : Prop :=
  ∀ path, Option.Rel pool.Agree (pool.idAt? left path) (pool.idAt? right path)

theorem Shows.agree_iff (shows : pool.Shows left tree) (shows' : pool.Shows right tree') :
    pool.Agree left right ↔ tree.info.outline = tree'.info.outline := by
  obtain ⟨_, found, _⟩ := shows.node?
  obtain ⟨_, found', _⟩ := shows'.node?
  rw [NodeInfo.outline_eq_iff, Lengths.outline_eq_iff]
  constructor
  · rintro ⟨node, node', here, here', agree⟩
    cases found.symm.trans here
    cases found'.symm.trans here'
    exact agree
  · exact fun agree => ⟨_, _, found, found', agree⟩

/-- The children of a node that shows a tree. -/
theorem Shows.childrenOf (shows : pool.Shows left tree) :
    List.Forall₂ pool.Shows (pool.childrenOf left) tree.children := by
  obtain ⟨_, found, all⟩ := shows.node?
  rwa [childrenOf_of_node? found]

theorem agreeThroughout_iff : pool.AgreeThroughout left right ↔ pool.Agree left right ∧
    List.Forall₂ pool.AgreeThroughout (pool.childrenOf left) (pool.childrenOf right) := by
  rw [List.Forall₂.iff_getElem?]
  constructor
  · refine fun agree => ⟨Option.rel_some_some.mp (agree []), fun index => ?_⟩
    have child := agree [index]
    have below := fun path => agree (index :: path)
    simp only [idAt?] at child below
    generalize (pool.childrenOf left)[index]? = first at child below ⊢
    generalize (pool.childrenOf right)[index]? = second at child below ⊢
    cases first <;> cases second
    · exact .none
    · cases child
    · cases child
    · exact .some below
  · rintro ⟨here, below⟩ (_ | ⟨index, path⟩)
    · exact .some here
    · have child := below index
      rw [idAt?, idAt?]
      generalize (pool.childrenOf left)[index]? = first at child ⊢
      generalize (pool.childrenOf right)[index]? = second at child ⊢
      cases child with
      | some agree => exact agree path
      | none => exact .none

/-- Children agree throughout if and only if their trees have the same outlines. -/
theorem forall₂_agreeThroughout_iff (all : List.Forall₂ pool.Shows ids trees)
    (all' : List.Forall₂ pool.Shows ids' trees')
    (each : ∀ tree ∈ trees, ∀ left right tree', pool.Shows left tree → pool.Shows right tree' →
      (pool.AgreeThroughout left right ↔ tree.outline = tree'.outline)) :
    List.Forall₂ pool.AgreeThroughout ids ids' ↔
      trees.map Tree.outline = trees'.map Tree.outline := by
  induction all generalizing ids' trees' with
  | nil =>
    cases all' with
    | nil => exact iff_of_true .nil rfl
    | cons => exact iff_of_false nofun nofun
  | cons shows _ ih =>
    cases all' with
    | nil => exact iff_of_false nofun nofun
    | cons shows' rest' =>
      rw [List.forall₂_cons, List.map_cons, List.map_cons, List.cons.injEq,
        each _ List.mem_cons_self _ _ _ shows shows',
        ih rest' fun tree member => each tree (List.mem_cons_of_mem _ member)]

/-- Trees agree throughout if and only if they have the same outline. -/
theorem Shows.agreeThroughout_iff (shows : pool.Shows left tree) (shows' : pool.Shows right tree') :
    pool.AgreeThroughout left right ↔ tree.outline = tree'.outline := by
  induction tree using Tree.induct_below generalizing left right tree' with
  | step tree ih =>
    rw [Pool.agreeThroughout_iff, shows.agree_iff shows', Tree.outline_eq_iff,
      forall₂_agreeThroughout_iff shows.childrenOf shows'.childrenOf
        fun tree isChild _ _ _ => ih tree isChild]

namespace Owned

variable {units : Multiset NodeId} {id : NodeId} {table : SymbolTable} {symbol : Symbol}
  {middle after : Pool}

theorem sameTree_iff (owned : pool.Owned ∅ units) (shows : pool.Shows left tree)
    (shows' : pool.Shows right tree') :
    pool.sameTree left right = .ok true ↔ tree.outline = tree'.outline :=
  shows.sameTree_iff shows' (owned.height_le_walkDepth shows)

/-- To compare equal is an equivalence of live nodes. -/
theorem sameTree_equivalence (owned : pool.Owned ∅ units) :
    Equivalence fun left right : { id // pool.isLive id } =>
      pool.sameTree left right = .ok true where
  refl id := by
    obtain ⟨tree, shows⟩ := owned.exists_shows_of_live id.2
    exact (owned.sameTree_iff shows shows).mpr rfl
  symm {left right} same := by
    obtain ⟨tree, shows⟩ := owned.exists_shows_of_live left.2
    obtain ⟨tree', shows'⟩ := owned.exists_shows_of_live right.2
    exact (owned.sameTree_iff shows' shows).mpr ((owned.sameTree_iff shows shows').mp same).symm
  trans {left middle right} first second := by
    obtain ⟨tree, shows⟩ := owned.exists_shows_of_live left.2
    obtain ⟨between, showsBetween⟩ := owned.exists_shows_of_live middle.2
    obtain ⟨tree', shows'⟩ := owned.exists_shows_of_live right.2
    exact (owned.sameTree_iff shows shows').mpr
      (((owned.sameTree_iff shows showsBetween).mp first).trans
        ((owned.sameTree_iff showsBetween shows').mp second))

theorem outlines_of_sameTree (owned : pool.Owned ∅ units) (all : List.Forall₂ pool.Shows ids trees)
    (all' : List.Forall₂ pool.Shows ids' trees')
    (same : List.Forall₂ (fun left right => pool.sameTree left right = .ok true) ids ids') :
    trees.map Tree.outline = trees'.map Tree.outline := by
  rw [← forall₂_agreeThroughout_iff all all' fun _ _ _ _ _ => Shows.agreeThroughout_iff]
  refine same.imp_of_mem fun left isLeft right isRight same => ?_
  obtain ⟨tree, _, shows⟩ := all.exists_of_mem isLeft
  obtain ⟨tree', _, shows'⟩ := all'.exists_of_mem isRight
  exact (shows.agreeThroughout_iff shows').mpr ((owned.sameTree_iff shows shows').mp same)

/-- A node that was built stands over children, and all that units reach is as it was. -/
theorem exists_settled_of_makeNode (owned : pool.Owned ∅ (units + ids))
    (all : List.Forall₂ pool.Shows ids trees)
    (ran : Pool.makeNode table symbol ids pool = .ok id after) :
    ∃ info, NodeInfo.over? table symbol (trees.map Tree.info) = some info ∧
      pool.Settled after ∅ units id (.node none info trees) := by
  have inner : ids ≠ [] := by
    rintro rfl
    cases ran
  exact (owned.makeNode table symbol inner all).result ran

/-- Nodes of one symbol over children that compare equal one by one compare equal. -/
theorem sameTree_of_makeNode (owned : pool.Owned ∅ (units + ids' + ids))
    (same : List.Forall₂ (fun left right => pool.sameTree left right = .ok true) ids ids')
    (ran : Pool.makeNode table symbol ids pool = .ok left middle)
    (ran' : Pool.makeNode table symbol ids' middle = .ok right after) :
    after.sameTree left right = .ok true := by
  obtain ⟨trees, all⟩ := List.Forall₂.exists_of_forall (R := pool.Shows) fun child member =>
    owned.exists_shows (Multiset.mem_add.mpr (.inr (Multiset.mem_coe.mpr member)))
  obtain ⟨trees', all'⟩ := List.Forall₂.exists_of_forall (R := pool.Shows) fun child member =>
    owned.exists_shows
      (Multiset.mem_add.mpr (.inl (Multiset.mem_add.mpr (.inr (Multiset.mem_coe.mpr member)))))
  have outlines := owned.outlines_of_sameTree all all' same
  obtain ⟨info, derived, settled⟩ := owned.exists_settled_of_makeNode all ran
  have owned' := settled.owned
  rw [← Multiset.cons_add] at owned'
  obtain ⟨info', derived', settled'⟩ := owned'.exists_settled_of_makeNode
    (settled.spares.shows (Multiset.le_add_left ..) all') ran'
  -- The second node is built beside the first, which the caller has a unit of.
  have shows := settled'.spares.kept.shows (Multiset.mem_cons_self ..) settled.shows
  exact (settled'.owned.sameTree_iff shows settled'.shows).mpr (Tree.outline_eq_iff.mpr
    ⟨NodeInfo.outline_of_over? outlines derived derived', outlines⟩)

end Owned

end Pool

namespace Session

variable {allowed : Session → Call → Prop} {session : Session}

/-- A comparison of live nodes ends, and tells whether they agree throughout. To compare equal is an
equivalence, and a congruence of building: nodes of one symbol over children that compare equal one
by one do so as well. -/
theorem Reached.sameTree_congruence (reached : Reached allowed session) :
    (∀ left right, session.pool.isLive left → session.pool.isLive right →
      ∃ same, session.pool.sameTree left right = .ok same ∧
        (same = true ↔ session.pool.AgreeThroughout left right)) ∧
    (Equivalence fun left right : { id // session.pool.isLive id } =>
      session.pool.sameTree left right = .ok true) ∧
    ∀ (table : SymbolTable) (symbol : Symbol) (ids ids' : List NodeId) (node node' : NodeId)
      (middle after : Pool), (ids : Multiset NodeId) + ids' ≤ session.held →
      List.Forall₂ (fun left right => session.pool.sameTree left right = .ok true) ids ids' →
      Pool.makeNode table symbol ids session.pool = .ok node middle →
      Pool.makeNode table symbol ids' middle = .ok node' after →
        after.sameTree node node' = .ok true := by
  have owned := reached.owned
  refine ⟨fun left right live live' => ?_, owned.sameTree_equivalence, ?_⟩
  · obtain ⟨tree, shows⟩ := owned.exists_shows_of_live live
    obtain ⟨tree', shows'⟩ := owned.exists_shows_of_live live'
    obtain ⟨same, compared⟩ := (owned.endsBelow live).compares right live'
    refine ⟨same, compared, ?_⟩
    rw [shows.agreeThroughout_iff shows', ← owned.sameTree_iff shows shows', compared,
      Except.ok.injEq]
  · intro table symbol ids ids' node node' middle after held same ran ran'
    obtain ⟨rest, whole⟩ := Multiset.le_iff_exists_add.mp held
    rw [whole, add_comm, add_comm (ids : Multiset NodeId), ← add_assoc] at owned
    exact owned.sameTree_of_makeNode same ran ran'

/-- The node over one token twice and the node over two tokens agree throughout, and so do two nodes
that are built over them. -/
theorem sameTree_congruence_of_doubled : doubled.pool.AgreeThroughout ⟨1, 0⟩ ⟨4, 0⟩ ∧
    ∃ node node' middle after,
      Pool.makeNode .empty .endOfInput [⟨1, 0⟩] doubled.pool = .ok node middle ∧
        Pool.makeNode .empty .endOfInput [⟨4, 0⟩] middle = .ok node' after ∧
          after.sameTree node node' = .ok true := by
  obtain ⟨decides, _, congruent⟩ := reached_doubled.sameTree_congruence
  obtain ⟨same, compared, agree⟩ := decides ⟨1, 0⟩ ⟨4, 0⟩ rfl rfl
  refine ⟨agree.mp (Except.ok.inj (compared.symm.trans sameTree_of_doubled)), _, _, _, _, rfl, rfl,
    congruent .empty .endOfInput [⟨1, 0⟩] [⟨4, 0⟩] _ _ _ _ (by decide) ?_ rfl rfl⟩
  exact .cons sameTree_of_doubled .nil

end Session

end SyntaxForest
