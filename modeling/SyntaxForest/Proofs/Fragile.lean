import SyntaxForest.Proofs.Recorded
import SyntaxForest.Proofs.Ruled

/-! # How fragility reaches a node

Fragility comes from leaves that were made as errors, and passes to a parent through the extras at
one of its edges. Told of whole trees, a node is fragile at an edge if and only if a way leads down
from it to such a leaf along which, at every step, nothing but extras stand between the edge and the
child, nor is the child itself anything else. What comes after the first child that is no extra has no
say in it.
-/

namespace List

variable {α : Type*} {p q : α → Bool} {items : List α}

theorem any_takeWhile_iff : (items.takeWhile p).any q = true ↔ ∃ before item after,
    items = before ++ item :: after ∧ (∀ other ∈ before ++ [item], p other = true) ∧
      q item = true := by
  induction items with
  | nil => simp
  | cons first rest ih =>
    cases holds : p first with
    | false =>
      rw [takeWhile_cons_of_neg (by simp [holds])]
      refine iff_of_false nofun ?_
      rintro ⟨_ | ⟨head, before⟩, item, after, same, all, _⟩ <;> cases same
      all_goals exact Bool.false_ne_true (holds.symm.trans (all first (by simp)))
    | true =>
      rw [takeWhile_cons_of_pos holds, any_cons, Bool.or_eq_true, ih]
      constructor
      · rintro (found | ⟨before, item, after, rfl, all, found⟩)
        · exact ⟨[], first, rest, rfl, by simpa using holds, found⟩
        · exact ⟨first :: before, item, after, rfl, forall_mem_cons.mpr ⟨holds, all⟩, found⟩
      · rintro ⟨_ | ⟨head, before⟩, item, after, same, all, found⟩ <;> cases same
        · exact .inl found
        · exact .inr ⟨before, item, after, rfl, (forall_mem_cons.mp all).2, found⟩

end List

namespace SyntaxForest

/-- An edge of a node, from which its children are told in order. -/
inductive Edge where
  | left
  | right

namespace Edge

def order {α : Type} : Edge → List α → List α
  | left, items => items
  | right, items => items.reverse

/-- The node may read differently beyond the edge than it did. -/
def fragile : Edge → NodeInfo → Bool
  | left, info => info.fragileLeft
  | right, info => info.fragileRight

/-- Fragility passes to the parent of these children at the edge. -/
def passes (edge : Edge) (children : List NodeInfo) : Bool :=
  ((edge.order children).takeWhile (·.extra)).any edge.fragile

variable {α β : Type} {edge : Edge} {items : List α}

theorem order_map (edge : Edge) (f : α → β) (items : List α) :
    edge.order (items.map f) = (edge.order items).map f := by
  cases edge with
  | left => rfl
  | right => exact List.map_reverse.symm

theorem mem_order (edge : Edge) {item : α} : item ∈ edge.order items ↔ item ∈ items := by
  cases edge with
  | left => exact Iff.rfl
  | right => exact List.mem_reverse

theorem mem_of_order {item : α} {before after : List α}
    (place : edge.order items = before ++ item :: after) : item ∈ items := by
  rw [← mem_order edge, place]
  exact List.mem_append_right before List.mem_cons_self

theorem fragile_kind (edge : Edge) (info : NodeInfo) : edge.fragile info.kind = edge.fragile info := by
  cases edge <;> rfl

theorem passes_map_kind (edge : Edge) (children : List NodeInfo) :
    edge.passes (children.map NodeInfo.kind) = edge.passes children := by
  rw [passes, order_map, List.takeWhile_map, List.any_map]
  simp only [Function.comp_def, fragile_kind]
  rfl

theorem fragile_of_over? {table : SymbolTable} {symbol : Symbol} {children : List NodeInfo}
    {info : NodeInfo} (derived : NodeInfo.over? table symbol children = some info) (edge : Edge) :
    edge.fragile info = edge.passes children := by
  obtain ⟨_, _, derived⟩ := Option.bind_eq_some_iff.mp derived
  obtain ⟨_, _, rfl⟩ := Option.map_eq_some_iff.mp derived
  cases edge <;> rfl

/-- A node over children is fragile where they pass it on. -/
def rule : Rule NodeInfo where
  view := NodeInfo.kind
  Holds info below := below ≠ [] → ∀ edge : Edge, edge.fragile info = edge.passes below

theorem rule_derived : rule.Derived where
  leaf := fun _ _ inner => (inner rfl).elim
  inner := fun _ _ children _ derived _ edge =>
    (fragile_of_over? derived edge).trans (passes_map_kind edge children).symm
  kind := by
    intro info info' below same holds inner edge
    rw [← fragile_kind, ← same, fragile_kind]
    exact holds inner edge
  view_kind := fun _ => rfl

end Edge

/-- The call that made the node made an error. -/
def MadeAsError (maker : Option Call) : Prop :=
  ∃ table padding size lookahead, maker = some (.makeError table padding size lookahead)

/-- A node without children is fragile, at either edge, if and only if it was made as an error, and
none with children was. -/
structure Node.Marked (node : Node) (maker : Option Call) : Prop where
  childless : MadeAsError maker → node.children = []
  fragile_iff : node.children = [] → ∀ edge : Edge,
    edge.fragile node.toNodeInfo = true ↔ MadeAsError maker

theorem Call.Makes.marked {pool : Pool} {call : Call} {node : Node} {trees : List Tree}
    (creates : call.creates = true) (makes : call.Makes pool (.node none node.toNodeInfo trees))
    (sameLength : node.children.length = trees.length) : node.Marked (some call) := by
  have leaf (empty : trees = []) : node.children = [] :=
    List.eq_nil_of_length_eq_zero (sameLength.trans (by rw [empty, List.length_nil]))
  cases call with
  | acquire =>
    obtain ⟨_, info, _⟩ := Tree.node.inj makes
    refine ⟨nofun, fun _ edge => iff_of_false ?_ nofun⟩
    rw [info]
    cases edge <;> exact Bool.false_ne_true
  | makeLeaf table symbol padding size =>
    obtain ⟨lengths, _, same⟩ := makes
    obtain ⟨_, info, _⟩ := Tree.node.inj same
    refine ⟨nofun, fun _ edge => iff_of_false ?_ nofun⟩
    rw [info]
    cases edge <;> exact Bool.false_ne_true
  | makeError table padding size lookahead =>
    obtain ⟨lengths, _, same⟩ := makes
    obtain ⟨_, info, empty⟩ := Tree.node.inj same
    refine ⟨fun _ => leaf empty, fun _ edge => iff_of_true ?_ ⟨_, _, _, _, rfl⟩⟩
    rw [info]
    cases edge <;> rfl
  | makeNode table symbol children =>
    obtain ⟨info, below, inner, all, _, same⟩ := makes
    obtain ⟨_, _, rfl⟩ := Tree.node.inj same
    refine ⟨nofun, fun empty => (inner ?_).elim⟩
    exact List.eq_nil_of_length_eq_zero
      (all.length_eq.trans (sameLength.symm.trans (by rw [empty, List.length_nil])))
  | retain | release | edit | amend => cases creates

namespace Pool

variable {pool after : Pool} {edge : Edge} {id child leaf : NodeId} {ids ids' : List NodeId}
  {trees : List Tree} {below : List NodeInfo} {node : Node} {makers : NodeId → Option Call}

def isExtra (pool : Pool) (id : NodeId) : Bool := (pool.node? id).any (·.extra)

def isFragile (pool : Pool) (edge : Edge) (id : NodeId) : Bool :=
  (pool.node? id).any fun node => edge.fragile node.toNodeInfo

/-- The second handle is found from the first going down through children that are extras with none
but extras between them and the edge. -/
inductive OnEdge (pool : Pool) (edge : Edge) : NodeId → NodeId → Prop where
  | here (id : NodeId) : OnEdge pool edge id id
  | down {id child leaf : NodeId} {node : Node} {before after : List NodeId}
    (found : pool.node? id = some node)
    (place : edge.order node.children = before ++ child :: after)
    (extras : ∀ other ∈ before ++ [child], pool.isExtra other = true)
    (deeper : OnEdge pool edge child leaf) : OnEdge pool edge id leaf

/-- Whether fragility passes can be read off the handles of the children. -/
theorem passes_eq (read : ids.map (pool.view? Edge.rule) = below.map some) :
    edge.passes below = ((edge.order ids).takeWhile pool.isExtra).any (pool.isFragile edge) := by
  have views := congrArg edge.order read
  rw [Edge.order_map, Edge.order_map] at views
  have taken := congrArg
    (fun views => (views.takeWhile (·.any (·.extra))).any (·.any edge.fragile)) views
  simp only [List.takeWhile_map, List.any_map] at taken
  refine taken.symm.trans ?_
  simp only [Function.comp_def, view?, Option.any_map, Edge.rule, Edge.fragile_kind]
  rfl

theorem ObeysAt.fragile_eq (obeys : pool.ObeysAt Edge.rule id) (found : pool.node? id = some node)
    (inner : node.children ≠ []) (edge : Edge) : edge.fragile node.toNodeInfo =
      ((edge.order node.children).takeWhile pool.isExtra).any (pool.isFragile edge) := by
  obtain ⟨_, below, found', read, holds⟩ := obeys
  cases found.symm.trans found'
  rw [← passes_eq read]
  refine holds (fun empty => inner ?_) edge
  rw [empty, List.map_nil] at read
  exact List.map_eq_nil_iff.mp read

/-- A node is fragile at an edge if and only if a leaf on that edge was made as an error. -/
theorem isFragile_iff (marked : ∀ id node, pool.node? id = some node → node.Marked (makers id))
    (obeys : pool.Obeys Edge.rule) (grounded : pool.Grounded id) (edge : Edge) :
    pool.isFragile edge id = true ↔
      ∃ leaf, pool.OnEdge edge id leaf ∧ MadeAsError (makers leaf) := by
  induction grounded with
  | @intro id node found _ ih =>
    have here := marked id node found
    rw [isFragile, found, Option.any_some]
    by_cases inner : node.children = []
    · rw [here.fragile_iff inner edge]
      refine ⟨fun made => ⟨id, .here id, made⟩, ?_⟩
      rintro ⟨leaf, onEdge, made⟩
      cases onEdge with
      | here => exact made
      | down found' place =>
        cases found.symm.trans found'
        exact (List.ne_nil_of_mem (Edge.mem_of_order place) inner).elim
    · rw [(obeys id (isLive_of_node? found)).fragile_eq found inner, List.any_takeWhile_iff]
      constructor
      · rintro ⟨before, child, after, place, extras, fragile⟩
        obtain ⟨leaf, deeper, made⟩ := (ih child (Edge.mem_of_order place)).mp fragile
        exact ⟨leaf, .down found place extras deeper, made⟩
      · rintro ⟨leaf, onEdge, made⟩
        cases onEdge with
        | here => exact (inner (here.childless made)).elim
        | @down _ child _ _ before after found' place extras deeper =>
          cases found.symm.trans found'
          exact ⟨before, child, after, place, extras,
            (ih child (Edge.mem_of_order place)).mpr ⟨leaf, deeper, made⟩⟩

/-- What comes after the first child that is no extra has no say. -/
theorem any_takeWhile_isExtra {front rest : List NodeId} (first : NodeId)
    (stops : pool.isExtra first = false) (edge : Edge) :
    ((front ++ first :: rest).takeWhile pool.isExtra).any (pool.isFragile edge) =
      (front.takeWhile pool.isExtra).any (pool.isFragile edge) := by
  induction front with
  | nil => rw [List.nil_append, List.takeWhile_cons_of_neg (by simp [stops]), List.takeWhile_nil]
  | cons child front ih =>
    rw [List.cons_append, List.takeWhile_cons, List.takeWhile_cons]
    split
    · rw [List.any_cons, List.any_cons, ih]
    · rfl

/-- Children that show the same trees pass on the same. -/
theorem any_takeWhile_of_shows {front front' : List NodeId} (all : List.Forall₂ pool.Shows front trees)
    (all' : List.Forall₂ after.Shows front' trees) (edge : Edge) :
    (front.takeWhile pool.isExtra).any (pool.isFragile edge) =
      (front'.takeWhile after.isExtra).any (after.isFragile edge) := by
  induction all generalizing front' with
  | nil =>
    obtain rfl := List.forall₂_nil_right_iff.mp all'
    rfl
  | cons shows _ ih =>
    obtain ⟨id', rest', shows', below', rfl⟩ := List.forall₂_cons_right_iff.mp all'
    obtain ⟨_, found, _⟩ := shows.node?
    obtain ⟨_, found', _⟩ := shows'.node?
    simp only [List.takeWhile_cons, isExtra, found, found', Option.any_some]
    split
    · rw [List.any_cons, List.any_cons, isFragile, isFragile, found, found', ih below']
      rfl
    · rfl

end Pool

namespace Session

variable {session : Session} {makers : NodeId → Option Call} {id : NodeId}

/-- The caller makes leaves, errors and nodes and writes of a node only that it is an extra, while it
has no parent. Nothing is edited. -/
def SetsExtra (session : Session) : Call → Prop
  | .amend id change => session.pool.occurrences id = 0 ∧
    ∀ node, session.pool.node? id = some node →
      ∃ extra, change node.toNodeInfo = { node.toNodeInfo with extra }
  | .edit .. => False
  | _ => True

theorem SetsExtra.respects (session : Session) (call : Call) (may : session.SetsExtra call) :
    session.Respects Edge.rule call := by
  cases call with
  | amend id change =>
    obtain ⟨parentless, writes⟩ := may
    intro node found
    obtain ⟨extra, same⟩ := writes node found
    refine ⟨fun below holds inner edge => ?_, .inr parentless⟩
    rw [same, ← holds inner edge]
    cases edge <;> rfl
  | acquire | makeLeaf | makeError | makeNode | retain | release | edit => exact trivial

theorem Recorded.marked (recorded : Recorded SetsExtra session makers) {node : Node}
    (found : session.pool.node? id = some node) : node.Marked (makers id) := by
  refine recorded.forall_node Node.Marked (fun _ _ _ => not_false)
    (fun _ _ _ _ => Call.Makes.marked) ?_ found
  intro session id change node maker may found told
  obtain ⟨extra, same⟩ := may.2 node found
  refine ⟨told.childless, fun leaf edge => ?_⟩
  rw [← told.fragile_iff leaf edge, same]
  cases edge <;> exact Iff.rfl

/-- A node is fragile at an edge if and only if it has, or is, a leaf that was made as an error and
stands on that edge but for extras. Whatever comes after its first child that is no extra may be
another without a change to that. -/
theorem Recorded.fragile_iff_onEdge (recorded : Recorded SetsExtra session makers)
    (live : session.pool.isLive id) (edge : Edge) :
    ∃ node, session.pool.node? id = some node ∧
      (edge.fragile node.toNodeInfo = true ↔
        ∃ leaf, session.pool.OnEdge edge id leaf ∧ MadeAsError (makers leaf)) ∧
      ∀ session' makers' id' node', Recorded SetsExtra session' makers' →
        session'.pool.node? id' = some node' →
        ∀ front first rest front' first' rest' trees,
          edge.order node.children = front ++ first :: rest →
          edge.order node'.children = front' ++ first' :: rest' →
          List.Forall₂ session.pool.Shows front trees →
          List.Forall₂ session'.pool.Shows front' trees →
          session.pool.isExtra first = false → session'.pool.isExtra first' = false →
            edge.fragile node'.toNodeInfo = edge.fragile node.toNodeInfo := by
  have obeys := recorded.reached.pool_obeys Edge.rule_derived SetsExtra.respects
  have grounded := recorded.reached.owned.grounded_of_live live
  have onEdge := Pool.isFragile_iff (fun _ _ => recorded.marked) obeys grounded edge
  obtain ⟨node, found⟩ := Pool.isLive_iff_node?.mp live
  rw [Pool.isFragile, found, Option.any_some] at onEdge
  refine ⟨node, found, onEdge, ?_⟩
  intro session' makers' id' node' recorded' found' front first rest front' first' rest' trees place
    place' all all' stops stops'
  have obeys' := recorded'.reached.pool_obeys Edge.rule_derived SetsExtra.respects
  have inner := List.ne_nil_of_mem (Edge.mem_of_order place)
  have inner' := List.ne_nil_of_mem (Edge.mem_of_order place')
  rw [(obeys id live).fragile_eq found inner,
    (obeys' id' (Pool.isLive_of_node? found')).fragile_eq found' inner', place, place',
    Pool.any_takeWhile_isExtra first stops, Pool.any_takeWhile_isExtra first' stops',
    Pool.any_takeWhile_of_shows all all']

/-- An error below an extra, which stands before a token in one node and before two in another. -/
def edged : Session where
  pool :=
    { slots := #[
        ⟨0, 1, ⟨{ NodeInfo.ofSymbol .error .ofRule with
          extra := true, fragileLeft := true, fragileRight := true }, []⟩⟩,
        ⟨0, 2, ⟨{ NodeInfo.blank with
          extra := true, fragileLeft := true, fragileRight := true, shown := ⟨1, 1⟩ }, [⟨0, 0⟩]⟩⟩,
        ⟨0, 3, .blank⟩,
        ⟨0, 1, ⟨{ NodeInfo.blank with fragileLeft := true, shown := ⟨1, 1⟩ }, [⟨1, 0⟩, ⟨2, 0⟩]⟩⟩,
        ⟨0, 1, ⟨{ NodeInfo.blank with fragileLeft := true, shown := ⟨1, 1⟩ },
          [⟨1, 0⟩, ⟨2, 0⟩, ⟨2, 0⟩]⟩⟩]
      free := [], journal := #[], sizing := .standard }
  held := {⟨4, 0⟩, ⟨3, 0⟩}

theorem exists_recorded_edged : ∃ makers, Recorded SetsExtra edged makers := by
  have error : Recorded SetsExtra _ _ := .step
    (.makeError .empty .zero .zero none) (.start .standard) trivial (Multiset.zero_le _) rfl
  have extra := error.step (.amend ⟨0, 0⟩ fun info => { info with extra := true })
    ⟨rfl, fun _ _ => ⟨true, rfl⟩⟩ (Multiset.zero_le _) rfl
  have group := extra.step (.makeNode .empty .endOfInput [⟨0, 0⟩]) trivial (by decide +kernel) rfl
  have extra := group.step (.amend ⟨1, 0⟩ fun info => { info with extra := true })
    ⟨rfl, fun _ _ => ⟨true, rfl⟩⟩ (Multiset.zero_le _) rfl
  have retained := extra.step (.retain ⟨1, 0⟩) trivial (Multiset.zero_le _) rfl
  have token := retained.step .acquire trivial (Multiset.zero_le _) rfl
  have retained := token.step (.retain ⟨2, 0⟩) trivial (Multiset.zero_le _) rfl
  have retained := retained.step (.retain ⟨2, 0⟩) trivial (Multiset.zero_le _) rfl
  have node := retained.step (.makeNode .empty .endOfInput [⟨1, 0⟩, ⟨2, 0⟩]) trivial
    (by decide +kernel) rfl
  have node := node.step (.makeNode .empty .endOfInput [⟨1, 0⟩, ⟨2, 0⟩, ⟨2, 0⟩]) trivial
    (by decide +kernel) rfl
  exact ⟨_, node⟩

/-- Fragility reaches the left edges of both nodes, from the same error, and the right edge of
neither. -/
theorem fragile_iff_onEdge_of_edged : ∃ makers, Recorded SetsExtra edged makers ∧
    (∃ leaf, edged.pool.OnEdge .left ⟨3, 0⟩ leaf ∧ MadeAsError (makers leaf)) ∧
    (¬ ∃ leaf, edged.pool.OnEdge .right ⟨3, 0⟩ leaf ∧ MadeAsError (makers leaf)) ∧
    edged.pool.isFragile .left ⟨4, 0⟩ = true := by
  obtain ⟨makers, recorded⟩ := exists_recorded_edged
  have live : edged.pool.isLive ⟨3, 0⟩ := rfl
  obtain ⟨_, found, left, alike⟩ := recorded.fragile_iff_onEdge live .left
  obtain ⟨_, found', right, _⟩ := recorded.fragile_iff_onEdge live .right
  cases found
  cases found'
  obtain ⟨tree, shows⟩ := recorded.reached.owned.exists_shows_of_live
    (show edged.pool.isLive ⟨1, 0⟩ from rfl)
  have second := alike edged makers ⟨4, 0⟩ _ recorded rfl [⟨1, 0⟩] ⟨2, 0⟩ [] [⟨1, 0⟩] ⟨2, 0⟩ [⟨2, 0⟩]
    [tree] rfl rfl (.cons shows .nil) (.cons shows .nil) rfl rfl
  exact ⟨makers, recorded, left.mp rfl, fun onEdge => Bool.false_ne_true (right.mpr onEdge), second⟩

end Session

end SyntaxForest
