import SyntaxForest.Proofs.Edit.Carry
import SyntaxForest.Proofs.Pool.Balance
import SyntaxForest.Proofs.Pool.Build

/-! # Sessions

A session is a pool beside the units that its caller holds. A call spends units, which the caller
must hold, and gives others; a call that stops half-way ends the session. What a call does is said
once, in `Call.Outcome`, and whatever holds along every session is derived from that.
-/

namespace SyntaxForest

open PoolM

/-- The calls by which a pool is changed. -/
inductive Call where
  | acquire
  | makeLeaf (table : SymbolTable) (symbol : Symbol) (padding size : Span)
  | makeError (table : SymbolTable) (padding size : Span) (lookahead : Option Char)
  | makeNode (table : SymbolTable) (symbol : Symbol) (children : List NodeId)
  | retain (id : NodeId)
  | release (id : NodeId)
  | edit (root : NodeId) (edit : TextEdit)
  /-- Writes to the public fields of a node. -/
  | amend (id : NodeId) (change : NodeInfo → NodeInfo)

namespace Call

/-- The units that a call takes from its caller. -/
def spends : Call → Multiset NodeId
  | .makeNode _ _ children => children
  | .release id => {id}
  | .edit root _ => {root}
  | .acquire | .makeLeaf .. | .makeError .. | .retain .. | .amend .. => 0

/-- Does the call and answers with the units that it gives. A refused edit gives back its own. -/
def perform : Call → PoolM (Multiset NodeId)
  | .acquire => do
    return {← Pool.acquire}
  | .makeLeaf table symbol padding size => do
    return {← Pool.makeLeaf table symbol padding size}
  | .makeError table padding size lookahead => do
    return {← Pool.makeError table padding size lookahead}
  | .makeNode table symbol children => do
    return {← Pool.makeNode table symbol children}
  | .retain id => do
    Pool.retain id
    return {id}
  | .release id => do
    Pool.release id
    return 0
  | .edit root change => do
    match ← Pool.edit root change with
    | .ok edited => return {edited}
    | .error _ => return {root}
  | .amend id change => do
    Pool.amend id change
    return 0

/-- The tree that a call makes, where it makes one. -/
def Makes (pool : Pool) : Call → Tree → Prop
  | .acquire, tree => tree = .node none .blank []
  | .makeLeaf table symbol padding size, tree => ∃ lengths,
    Lengths.token? padding size = some lengths ∧
      tree = .node none { NodeInfo.ofSymbol symbol (table.traits symbol) with lengths } []
  | .makeError table padding size lookahead, tree => ∃ lengths,
    Lengths.token? padding size = some lengths ∧
      tree = .node none { NodeInfo.ofSymbol .error (table.traits .error) with
        lengths, lookahead, fragileLeft := true, fragileRight := true } []
  | .makeNode table symbol children, tree => ∃ info trees, children ≠ [] ∧
    List.Forall₂ pool.Shows children trees ∧
      NodeInfo.over? table symbol (trees.map Tree.info) = some info ∧ tree = .node none info trees
  | .edit root change, tree => ∃ before,
    pool.Shows root before ∧ before.revise? change = some (.ok tree)
  | _, _ => False

/-- What a call that ends has done, as the units see it that were not spent. -/
inductive Outcome (pool : Pool) (rest : Multiset NodeId) : Call → Multiset NodeId → Pool → Prop where
  | made {call : Call} {id : NodeId} {tree : Tree} {after : Pool} (makes : call.Makes pool tree)
    (settled : pool.Settled after ∅ rest id tree) : Outcome pool rest call {id} after
  | handed {call : Call} {given : Multiset NodeId} {after : Pool}
    (owned : after.Owned ∅ (given + rest)) (kept : pool.Keeps after (given + rest)) :
    Outcome pool rest call given after
  | amended {id : NodeId} {change : NodeInfo → NodeInfo} {node : Node} {after : Pool}
    (owned : after.Owned ∅ rest) (found : pool.node? id = some node)
    (written : after.node? id = some { node with toNodeInfo := change node.toNodeInfo })
    (others : ∀ other, other ≠ id → after.node? other = pool.node? other) :
    Outcome pool rest (.amend id change) 0 after

section Outcome

variable {pool after : Pool} {rest given : Multiset NodeId}

private theorem outcome_of_makes {α : Type} {call : Call} {action : PoolM NodeId}
    {value : Option α} {post : α → NodeId → Pool → Prop}
    (computes : action.Computes pool value post)
    (makes : ∀ result id after, value = some result → post result id after →
      ∃ tree, call.Makes pool tree ∧ pool.Settled after ∅ rest id tree)
    (ran : (action >>= fun id => pure ({id} : Multiset NodeId)) pool = .ok given after) :
    call.Outcome pool rest given after := by
  obtain ⟨id, after, first, last⟩ := bind_eq_ok ran
  cases last
  obtain ⟨result, fits, holds⟩ := computes.result first
  obtain ⟨tree, makesTree, settled⟩ := makes result id _ fits holds
  exact .made makesTree settled

theorem outcome {call : Call} (owned : pool.Owned ∅ (call.spends + rest))
    (ran : call.perform pool = .ok given after) : call.Outcome pool rest given after := by
  cases call with
  | acquire =>
    rw [spends, zero_add] at owned
    refine outcome_of_makes owned.acquire_settled ?_ ran
    exact fun _ id after _ settled => ⟨_, rfl, settled⟩
  | makeLeaf table symbol padding size =>
    rw [spends, zero_add] at owned
    refine outcome_of_makes (owned.makeLeaf table symbol padding size) ?_ ran
    exact fun lengths id after fits ⟨_, settled⟩ => ⟨_, ⟨lengths, fits, rfl⟩, settled⟩
  | makeError table padding size lookahead =>
    rw [spends, zero_add] at owned
    refine outcome_of_makes (owned.makeError table padding size lookahead) ?_ ran
    exact fun lengths id after fits settled => ⟨_, ⟨lengths, fits, rfl⟩, settled⟩
  | makeNode table symbol children =>
    have inner : children ≠ [] := by
      rintro rfl
      obtain ⟨_, _, first, _⟩ := bind_eq_ok ran
      cases first
    obtain ⟨trees, below⟩ := List.Forall₂.exists_of_forall (R := pool.Shows) fun child member =>
      owned.exists_shows (Multiset.mem_add.mpr (.inl (Multiset.mem_coe.mpr member)))
    rw [spends, add_comm] at owned
    refine outcome_of_makes (owned.makeNode table symbol inner below) ?_ ran
    exact fun info id after fits settled =>
      ⟨_, ⟨info, trees, inner, below, fits, rfl⟩, settled⟩
  | retain id =>
    obtain ⟨_, middle, first, last⟩ := bind_eq_ok ran
    cases last
    rw [spends, zero_add] at owned
    have target := And.intro (Pool.isLive_of_retain first) (Finset.notMem_empty id)
    obtain ⟨_, _, owned', nodes, _⟩ := (owned.retain target).result first
    exact .handed (by rwa [Multiset.singleton_add]) (.of_node?_eq nodes)
  | release id =>
    obtain ⟨_, middle, first, last⟩ := bind_eq_ok ran
    cases last
    obtain ⟨after, released, owned', kept⟩ := owned.release
    rw [first] at released
    cases released
    exact .handed (by rwa [zero_add]) (by rwa [zero_add])
  | edit root change =>
    obtain ⟨answer, middle, first, last⟩ := bind_eq_ok ran
    obtain ⟨tree, shows⟩ := owned.exists_shows (Multiset.mem_cons_self root rest)
    obtain ⟨result, fits, answers⟩ := (owned.edit shows change).result first
    cases answer with
    | ok edited =>
      cases last
      cases result with
      | ok tree' => exact .made ⟨tree, shows, fits⟩ answers
      | error => exact answers.elim
    | error refusal =>
      cases last
      cases result with
      | ok => exact answers.elim
      | error =>
        obtain ⟨_, rfl⟩ := answers
        exact .handed owned (.of_node?_eq fun _ => rfl)
  | amend id change =>
    obtain ⟨_, middle, first, last⟩ := bind_eq_ok ran
    cases last
    rw [spends, zero_add] at owned
    obtain ⟨node, _, read, _⟩ := bind_eq_ok first
    have found := Pool.node_eq_ok_iff.mp (query_eq_ok read).1
    obtain ⟨after, amended, owned', written, others, _⟩ := owned.amend change found
    rw [first] at amended
    cases amended
    exact .amended owned' found written others

end Outcome

end Call

structure Session where
  pool : Pool
  /-- The units that the caller holds. -/
  held : Multiset NodeId

namespace Session

def start (sizing : Sizing) : Session := ⟨.empty sizing, 0⟩

/-- The session after a call, unless the caller does not hold what it spends or it stops. -/
def step? (session : Session) (call : Call) : Option Session :=
  if call.spends ≤ session.held then
    match call.perform session.pool with
    | .ok given after => some ⟨after, given + (session.held - call.spends)⟩
    | .error _ _ => none
  else none

/-- The session can be reached by calls that are allowed where they are made. -/
inductive Reached (allowed : Session → Call → Prop) : Session → Prop where
  | start (sizing : Sizing) : Reached allowed (start sizing)
  | step {session after : Session} (call : Call) (before : Reached allowed session)
    (may : allowed session call) (stepped : session.step? call = some after) :
    Reached allowed after

variable {allowed : Session → Call → Prop} {session after : Session} {call : Call}

theorem Reached.mono {more : Session → Call → Prop}
    (implies : ∀ session call, allowed session call → more session call)
    (reached : Reached allowed session) : Reached more session := by
  induction reached with
  | start sizing => exact .start sizing
  | step call _ may stepped ih => exact .step call ih (implies _ call may) stepped

/-- What a step does, with the units that the caller keeps. -/
theorem step?_outcome (owned : session.pool.Owned ∅ session.held)
    (stepped : session.step? call = some after) : ∃ rest given,
      session.held = call.spends + rest ∧ after.held = given + rest ∧
        call.Outcome session.pool rest given after.pool := by
  unfold step? at stepped
  split at stepped
  case isTrue affordable =>
    split at stepped
    case h_1 given pool ran =>
      cases stepped
      have whole := (add_tsub_cancel_of_le affordable).symm
      exact ⟨_, given, whole, rfl, Call.outcome (whole ▸ owned) ran⟩
    case h_2 => cases stepped
  case isFalse => cases stepped

theorem owned_start (sizing : Sizing) : (start sizing).pool.Owned ∅ (start sizing).held := by
  have dead := Pool.not_isLive_empty sizing
  refine ⟨Pool.tidy_empty sizing, fun id => ?_, nofun, fun id live => (dead id live).elim⟩
  have unowned : id ∉ (Pool.empty sizing).entries ∅ := by simp [Pool.mem_entries, dead]
  rw [start, Pool.refCount_eq_zero (dead id), Finset.empty_val, add_zero, zero_add,
    Multiset.count_eq_zero.mpr unowned]

/-- Along every session the pool is in balance with what the caller holds. -/
theorem Reached.owned (reached : Reached allowed session) :
    session.pool.Owned ∅ session.held := by
  induction reached with
  | start sizing => exact owned_start sizing
  | step _ _ _ stepped ih =>
    obtain ⟨rest, given, _, held, outcome⟩ := step?_outcome ih stepped
    rw [held]
    cases outcome with
    | made makes settled => simpa only [Multiset.singleton_add] using settled.owned
    | handed owned _ => exact owned
    | amended owned _ _ _ => simpa only [zero_add] using owned

/-- The owners of every node are the units that the caller holds and the entries of child lists,
and nothing is live that no unit reaches. -/
structure Balanced (session : Session) : Prop where
  counts : ∀ id, (session.pool.refCount id).toNat =
    session.held.count id + session.pool.occurrences id
  closed : ∀ parent child, session.pool.Child parent child → session.pool.isLive child
  live : ∀ id, session.pool.isLive id ↔ ∃ unit ∈ session.held, session.pool.Reaches unit id
  counted : ∃ nodes : Finset NodeId,
    (∀ id, id ∈ nodes ↔ ∃ unit ∈ session.held, session.pool.Reaches unit id) ∧
      session.pool.liveCount = nodes.card
  returned : session.held = 0 → session.pool.liveCount = 0

/-- No run of calls loses count of an owner, and none leaks a node. -/
theorem Reached.balanced (reached : Reached allowed session) : session.Balanced := by
  have owned := reached.owned
  have counted := owned.tidy.liveCount_eq_card
  refine ⟨owned.refCount_eq, fun _ _ => owned.isLive_of_child, fun _ => owned.isLive_iff_reaches,
    ⟨session.pool.live, fun id => ?_, counted⟩, fun returned => ?_⟩
  · rw [Pool.mem_live, owned.isLive_iff_reaches]
  · rw [counted, Finset.card_eq_zero, Finset.eq_empty_iff_forall_notMem]
    intro id member
    rw [Pool.mem_live, owned.isLive_iff_reaches, returned] at member
    obtain ⟨_, none, _⟩ := member
    exact Multiset.notMem_zero _ none

/-- A node that stands in a child list twice, for a caller that holds its parent. -/
theorem balanced_of_repeated_child : ∃ session : Session, session.held = {⟨1, 0⟩} ∧
    session.pool.refCount ⟨0, 0⟩ = 2 ∧ session.Balanced := by
  have acquired : Reached (fun _ _ => True) _ := .step .acquire (.start .standard) trivial rfl
  have retained := acquired.step (.retain ⟨0, 0⟩) trivial rfl
  have made := retained.step (.makeNode .empty .endOfInput [⟨0, 0⟩, ⟨0, 0⟩]) trivial rfl
  exact ⟨_, rfl, rfl, made.balanced⟩

end Session

end SyntaxForest
