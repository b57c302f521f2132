import SyntaxForest.Proofs.Apart
import SyntaxForest.Proofs.Commons

/-! # Sessions that are recorded

A record tells of every node by which call it was made. A call that makes a node leaves all nodes that
were there as they are, so what is told of a node and its maker when it is made stays as long as the
node does, if it stays where the caller writes.
-/

namespace SyntaxForest

open PoolM

variable {pool after : Pool} {units rest given : Multiset NodeId} {ids : List NodeId}
  {id other : NodeId} {info : NodeInfo} {trees : List Tree} {call : Call}

/-- Beside a new node over children that were there nothing has changed. -/
theorem Pool.Settled.node?_eq (settled : pool.Settled after ∅ units id (.node none info trees))
    (all : List.Forall₂ pool.Shows ids trees) (named : ∀ tree ∈ trees, tree.Named)
    (live : after.isLive other) (differs : other ≠ id) : after.node? other = pool.node? other := by
  obtain ⟨unit, held, reaches⟩ := settled.owned.isLive_iff_reaches.mp live
  rcases Multiset.mem_cons.mp held with rfl | held
  · rcases reaches.cases_head with rfl | ⟨child, ⟨node, found, member⟩, below⟩
    · exact (differs rfl).elim
    · obtain ⟨_, ids', found', all'⟩ := shows_iff.mp settled.shows
      cases found.symm.trans found'
      obtain ⟨tree, place, shows'⟩ := all'.exists_of_mem member
      obtain ⟨child', _, shows⟩ := (List.Forall₂.flip all).exists_of_mem place
      obtain rfl := (named tree place).unique shows shows'
      exact ((named tree place).node?_eq shows' shows below).symm
  · have before := (settled.spares.kept.reaches_iff held).mp reaches
    exact settled.spares.kept unit held other before

namespace Call

/-- The call has made a node, of which this is told, and has changed no other. -/
structure Creates (pool : Pool) (call : Call) (id : NodeId) (node : Node) (after : Pool) : Prop where
  makes : ∃ trees, call.Makes pool (.node none node.toNodeInfo trees) ∧
    node.children.length = trees.length
  found : after.node? id = some node
  others : ∀ other, after.isLive other → other ≠ id → after.node? other = pool.node? other

theorem Creates.of_settled (makes : call.Makes pool (.node none info trees))
    (settled : pool.Settled after ∅ units id (.node none info trees))
    (all : List.Forall₂ pool.Shows ids trees) (named : ∀ tree ∈ trees, tree.Named) :
    ∃ node, call.Creates pool id node after := by
  obtain ⟨_, ids', found, all'⟩ := Pool.shows_iff.mp settled.shows
  exact ⟨⟨info, ids'⟩, ⟨trees, makes, all'.length_eq⟩, found, fun other live differs =>
    settled.node?_eq all named live differs⟩

theorem Creates.of_leaf (makes : call.Makes pool (.node none info []))
    (settled : pool.Settled after ∅ units id (.node none info [])) :
    ∃ node, call.Creates pool id node after :=
  of_settled makes settled .nil fun _ place => (List.not_mem_nil place).elim

private theorem exists_creates_of_computes {α : Type} {action : PoolM NodeId} {value : Option α}
    {post : α → NodeId → Pool → Prop} (computes : action.Computes pool value post)
    (makes : ∀ result id after, value = some result → post result id after →
      ∃ node, call.Creates pool id node after)
    (ran : (action >>= fun id => pure ({id} : Multiset NodeId)) pool = .ok given after) :
    ∃ id node, given = {id} ∧ call.Creates pool id node after := by
  obtain ⟨id, after, first, last⟩ := bind_eq_ok ran
  cases last
  obtain ⟨result, fits, holds⟩ := computes.result first
  obtain ⟨node, creates⟩ := makes result id _ fits holds
  exact ⟨id, node, rfl, creates⟩

/-- What a call does that makes a node. -/
theorem exists_creates (creates : call.creates = true) (owned : pool.Owned ∅ (call.spends + rest))
    (ran : call.perform pool = .ok given after) :
    ∃ id node, given = {id} ∧ call.Creates pool id node after := by
  cases call with
  | acquire =>
    rw [spends, zero_add] at owned
    exact exists_creates_of_computes owned.acquire_settled
      (fun _ id after _ settled => Creates.of_leaf rfl settled) ran
  | makeLeaf table symbol padding size =>
    rw [spends, zero_add] at owned
    exact exists_creates_of_computes (owned.makeLeaf table symbol padding size)
      (fun lengths id after fits made => Creates.of_leaf ⟨lengths, fits, rfl⟩ made.2) ran
  | makeError table padding size lookahead =>
    rw [spends, zero_add] at owned
    exact exists_creates_of_computes (owned.makeError table padding size lookahead)
      (fun lengths id after fits settled => Creates.of_leaf ⟨lengths, fits, rfl⟩ settled) ran
  | makeNode table symbol children =>
    have inner : children ≠ [] := by
      rintro rfl
      obtain ⟨_, _, first, _⟩ := bind_eq_ok ran
      cases first
    obtain ⟨trees, both⟩ := List.Forall₂.exists_of_forall
      (R := fun child tree => pool.Shows child tree ∧ tree.Named) fun child member =>
        (owned.grounded_of_unit
          (Multiset.mem_add.mpr (.inl (Multiset.mem_coe.mpr member)))).exists_named
    have all : List.Forall₂ pool.Shows children trees := both.imp fun _ _ each => each.1
    rw [spends, add_comm] at owned
    have named (tree : Tree) (place : tree ∈ trees) : tree.Named := by
      obtain ⟨_, _, _, named⟩ := (List.Forall₂.flip both).exists_of_mem place
      exact named
    exact exists_creates_of_computes (owned.makeNode table symbol inner all)
      (fun info id after fits settled =>
        Creates.of_settled ⟨info, trees, inner, all, fits, rfl⟩ settled all named) ran
  | retain | release | edit | amend => cases creates

end Call

/-- The record of who made which node, after a call that has given these units. -/
def Call.record (call : Call) (given : Multiset NodeId) (makers : NodeId → Option Call) (id : NodeId) :
    Option Call :=
  if call.creates ∧ id ∈ given then some call else makers id

namespace Session

/-- The session can be reached by calls that are allowed where they are made, and these calls are the
makers of its nodes. -/
inductive Recorded (allowed : Session → Call → Prop) : Session → (NodeId → Option Call) → Prop where
  | start (sizing : Sizing) : Recorded allowed (start sizing) fun _ => none
  | step {session : Session} {makers : NodeId → Option Call} {given : Multiset NodeId} {after : Pool}
    (call : Call) (before : Recorded allowed session makers) (may : allowed session call)
    (held : call.spends ≤ session.held) (ran : call.perform session.pool = .ok given after) :
    Recorded allowed ⟨after, given + (session.held - call.spends)⟩ (call.record given makers)

variable {allowed : Session → Call → Prop} {session : Session} {makers : NodeId → Option Call}

theorem Recorded.reached (recorded : Recorded allowed session makers) : Reached allowed session := by
  induction recorded with
  | start sizing => exact .start sizing
  | step call _ may held ran ih => exact .step call ih may (by rw [step?, if_pos held, ran])

/-- What is true of a node and its maker when it is made stays true, as long as what the caller writes
is in keeping with it and nothing is edited. -/
theorem Recorded.forall_node (recorded : Recorded allowed session makers)
    (Told : Node → Option Call → Prop)
    (unedited : ∀ session root edit, ¬ allowed session (.edit root edit))
    (makes : ∀ pool call node trees, call.creates = true →
      call.Makes pool (.node none node.toNodeInfo trees) →
        node.children.length = trees.length → Told node (some call))
    (writes : ∀ session id change node maker, allowed session (.amend id change) →
      session.pool.node? id = some node → Told node maker →
        Told { node with toNodeInfo := change node.toNodeInfo } maker)
    {id : NodeId} {node : Node} (found : session.pool.node? id = some node) :
    Told node (makers id) := by
  induction recorded generalizing id node with
  | start sizing => exact (Pool.not_isLive_empty sizing id (Pool.isLive_of_node? found)).elim
  | @step session makers given after call before may held ran ih =>
    have whole := (add_tsub_cancel_of_le held).symm
    have owned := whole ▸ before.reached.owned
    have live := Pool.isLive_of_node? found
    by_cases creates : call.creates = true
    · obtain ⟨new, made, rfl, created⟩ := Call.exists_creates creates owned ran
      by_cases same : id = new
      · subst same
        cases created.found.symm.trans found
        obtain ⟨trees, makesTree, sameLength⟩ := created.makes
        rw [Call.record, if_pos ⟨creates, Multiset.mem_singleton_self id⟩]
        exact makes _ call node trees creates makesTree sameLength
      · rw [Call.record, if_neg fun both => same (Multiset.mem_singleton.mp both.2)]
        exact ih ((created.others id live same).symm.trans found)
    · rw [Call.record, if_neg fun both => creates both.1]
      cases Call.outcome owned ran with
      | made makes settled =>
        cases call with
        | edit root change => exact (unedited _ _ _ may).elim
        | retain | release | amend => exact makes.elim
        | acquire | makeLeaf | makeError | makeNode => exact (creates rfl).elim
      | handed owned' kept =>
        obtain ⟨unit, isHeld, reaches⟩ := owned'.isLive_iff_reaches.mp live
        have same := kept unit isHeld id ((kept.reaches_iff isHeld).mp reaches)
        exact ih (same.symm.trans found)
      | @amended changed change old _ owned' found' written others =>
        by_cases same : id = changed
        · subst same
          cases written.symm.trans found
          exact writes _ id change old _ may found' (ih found')
        · exact ih ((others id same).symm.trans found)

end Session

end SyntaxForest
