import SyntaxForest.Proofs.Session

/-! # What an edit does in a session

A caller that edits a tree it holds gets the tree that the recursion gives, however the tree is
shared, and sees no change in any other tree that it holds.
-/

namespace SyntaxForest

open PoolM

namespace Pool.Answers

variable {pool after : Pool} {units : Multiset NodeId} {root : NodeId}
  {result : Except TextEdit.Refusal Tree} {answer : Except TextEdit.Refusal NodeId}

theorem cases (answers : pool.Answers units result answer after) :
    (∃ refusal, result = .error refusal ∧ answer = .error refusal ∧ after = pool) ∨
      ∃ tree edited, result = .ok tree ∧ answer = .ok edited ∧
        pool.Settled after ∅ units edited tree := by
  cases result with
  | ok tree =>
    cases answer with
    | ok edited => exact .inr ⟨tree, edited, rfl, rfl, answers⟩
    | error => exact answers.elim
  | error refusal =>
    cases answer with
    | ok => exact answers.elim
    | error =>
      obtain ⟨rfl, rfl⟩ := answers
      exact .inl ⟨_, rfl, rfl, rfl⟩

theorem keeps (answers : pool.Answers units result answer after) : pool.Keeps after units := by
  obtain ⟨_, _, _, rfl⟩ | ⟨_, _, _, _, settled⟩ := answers.cases
  · exact .of_node?_eq fun _ => rfl
  · exact settled.spares.kept

/-- The caller has a unit again: of the edited tree, or its own. -/
theorem exists_unit (answers : pool.Answers units result answer after)
    (owned : pool.Owned ∅ (root ::ₘ units)) :
    ∃ unit, after.Owned ∅ (unit ::ₘ units) ∧ ∀ edited, answer = .ok edited → unit = edited := by
  obtain ⟨_, _, rfl, rfl⟩ | ⟨_, edited, _, rfl, settled⟩ := answers.cases
  · exact ⟨root, owned, nofun⟩
  · exact ⟨edited, settled.owned, fun _ => Except.ok.inj⟩

end Pool.Answers

/-- An edit that was carried out has made the tree that the recursion gives. -/
theorem Pool.Owned.settled_of_edit {pool after : Pool} {units : Multiset NodeId}
    {root edited : NodeId} {tree : Tree} {edit : TextEdit} (owned : pool.Owned ∅ (root ::ₘ units))
    (shows : pool.Shows root tree) (ran : Pool.edit root edit pool = .ok (.ok edited) after) :
    ∃ tree', tree.revise? edit = some (.ok tree') ∧ pool.Settled after ∅ units edited tree' := by
  obtain ⟨result, fits, answers⟩ := (owned.edit shows edit).result ran
  obtain ⟨_, _, none, _⟩ | ⟨tree', _, rfl, same, settled⟩ := answers.cases
  · cases none
  · obtain rfl := Except.ok.inj same
    exact ⟨tree', fits, settled⟩

namespace Pool

variable {pool : Pool} {root : NodeId} {edit : TextEdit}

/-- Whether an edit is carried out. -/
def carriesOut (pool : Pool) (root : NodeId) (edit : TextEdit) : Bool :=
  match Pool.edit root edit pool with
  | .ok (.ok _) _ => true
  | _ => false

theorem carriesOut_iff : pool.carriesOut root edit = true ↔
    ∃ edited after, Pool.edit root edit pool = .ok (.ok edited) after := by
  unfold carriesOut
  split <;> simp_all

/-- Whether an edit is carried out, with a root and a pool that pass a check. -/
def editPasses (pool : Pool) (root : NodeId) (edit : TextEdit) (check : NodeId → Pool → Bool) :
    Bool :=
  match Pool.edit root edit pool with
  | .ok (.ok edited) after => check edited after
  | _ => false

theorem editPasses_iff {check : NodeId → Pool → Bool} : pool.editPasses root edit check = true ↔
    ∃ edited after, Pool.edit root edit pool = .ok (.ok edited) after ∧
      check edited after = true := by
  unfold editPasses
  split <;> simp_all

end Pool

namespace Session

variable {allowed : Session → Call → Prop} {session : Session} {root : NodeId}

theorem Reached.computes_edit (reached : Reached allowed session) (held : root ∈ session.held)
    {tree : Tree} (shows : session.pool.Shows root tree) (edit : TextEdit) :
    Computes (Pool.edit root edit) session.pool (tree.revise? edit)
      (session.pool.Answers (session.held.erase root)) := by
  have owned := reached.owned
  rw [← Multiset.cons_erase held] at owned
  exact owned.edit shows edit

theorem Reached.revise?_of_edit (reached : Reached allowed session) (held : root ∈ session.held)
    {tree : Tree} (shows : session.pool.Shows root tree) {edit : TextEdit} {edited : NodeId}
    {after : Pool} (ran : Pool.edit root edit session.pool = .ok (.ok edited) after) :
    ∃ tree', tree.revise? edit = some (.ok tree') ∧
      session.pool.Settled after ∅ (session.held.erase root) edited tree' := by
  have owned := reached.owned
  rw [← Multiset.cons_erase held] at owned
  exact owned.settled_of_edit shows ran

/-- The session after an edit that was carried out. -/
theorem step?_edit (held : root ∈ session.held) {edit : TextEdit} {edited : NodeId} {after : Pool}
    (ran : Pool.edit root edit session.pool = .ok (.ok edited) after) :
    session.step? (.edit root edit) = some ⟨after, {edited} + (session.held - {root})⟩ := by
  have performed : (Call.edit root edit).perform session.pool = .ok {edited} after := by
    change EStateM.bind _ _ _ = _
    rw [EStateM.bind, ran]
    rfl
  rw [step?, Call.spends, if_pos (Multiset.singleton_le.mpr held), performed]

/-- A caller may hold a leaf beside a node over it, so that an edit of the node has to copy. -/
theorem reached_shared_leaf : ∃ session : Session, Reached (fun _ _ => True) session ∧
    session.held = {⟨1, 0⟩, ⟨0, 0⟩} ∧ session.pool.refCount ⟨0, 0⟩ = 2 := by
  have leaf : Reached (fun _ _ => True) _ := .step
    (.makeLeaf .empty .endOfInput ⟨0, ⟨0, 0⟩⟩ ⟨2, ⟨0, 2⟩⟩) (.start .standard) trivial rfl
  have retained := leaf.step (.retain ⟨0, 0⟩) trivial rfl
  have node := retained.step (.makeNode .empty .endOfInput [⟨0, 0⟩]) trivial rfl
  exact ⟨_, node, rfl, rfl⟩

/-- An edit in a pool is the edit of the tree that the root shows: it answers with the same refusal,
or with a handle that shows the edited tree. It stops only where a sum does not fit, or where a node
has as many owners as can be counted or the pool has no slot left for a copy. -/
theorem Reached.edit_refines (reached : Reached allowed session) (held : root ∈ session.held)
    (edit : TextEdit) :
    (∃ tree, session.pool.Shows root tree) ∧ ∀ tree, session.pool.Shows root tree →
      match Pool.edit root edit session.pool with
      | .ok (.ok edited) after =>
        ∃ tree', tree.revise? edit = some (.ok tree') ∧ after.Shows edited tree'
      | .ok (.error refusal) after =>
        tree.revise? edit = some (.error refusal) ∧ after = session.pool
      | .error fault after =>
        after.AtLimit fault ∨ fault = .overflow ∧ tree.revise? edit = none := by
  refine ⟨reached.owned.exists_shows held, fun tree shows => ?_⟩
  have computes := reached.computes_edit held shows edit
  split
  case h_1 edited after ran =>
    obtain ⟨result, fits, answers⟩ := computes.result ran
    cases result with
    | ok tree' => exact ⟨tree', fits, answers.shows⟩
    | error => exact answers.elim
  case h_2 refusal after ran =>
    obtain ⟨result, fits, answers⟩ := computes.result ran
    cases result with
    | ok => exact answers.elim
    | error =>
      obtain ⟨rfl, rfl⟩ := answers
      exact ⟨fits, rfl⟩
  case h_3 fault after stopped => exact computes.fault stopped

theorem edit_refines_of_shared_leaf : ∃ session : Session, session.held = {⟨1, 0⟩, ⟨0, 0⟩} ∧
    (∃ tree, session.pool.Shows ⟨1, 0⟩ tree) ∧ ∀ tree, session.pool.Shows ⟨1, 0⟩ tree →
      match Pool.edit ⟨1, 0⟩ (.removal ⟨1, ⟨0, 1⟩⟩) session.pool with
      | .ok (.ok edited) after => ∃ tree',
        tree.revise? (.removal ⟨1, ⟨0, 1⟩⟩) = some (.ok tree') ∧ after.Shows edited tree'
      | .ok (.error refusal) after =>
        tree.revise? (.removal ⟨1, ⟨0, 1⟩⟩) = some (.error refusal) ∧ after = session.pool
      | .error fault after => after.AtLimit fault ∨
        fault = .overflow ∧ tree.revise? (.removal ⟨1, ⟨0, 1⟩⟩) = none := by
  obtain ⟨session, reached, held, _⟩ := reached_shared_leaf
  exact ⟨session, held, reached.edit_refines (by rw [held]; decide) _⟩

/-- An edit leaves alone what any other unit reaches, another unit of the same root for one. -/
theorem Reached.edit_spares (reached : Reached allowed session) (held : root ∈ session.held)
    (edit : TextEdit) :
    match Pool.edit root edit session.pool with
    | .ok _ after => ∀ unit ∈ session.held.erase root, ∀ id,
      (after.Reaches unit id ↔ session.pool.Reaches unit id) ∧
        (session.pool.Reaches unit id →
          ∃ node, session.pool.node? id = some node ∧ after.node? id = some node)
    | .error _ _ => True := by
  obtain ⟨tree, shows⟩ := reached.owned.exists_shows held
  have computes := reached.computes_edit held shows edit
  split
  case h_1 answer after ran =>
    obtain ⟨_, _, answers⟩ := computes.result ran
    intro unit isHeld id
    refine ⟨answers.keeps.reaches_iff isHeld, fun reaches => ?_⟩
    have owner := reached.owned.of_unit (Multiset.mem_of_mem_erase isHeld)
    obtain ⟨node, found⟩ := Pool.isLive_iff_node?.mp (reached.owned.of_reaches owner reaches).1
    exact ⟨node, found, (answers.keeps unit isHeld id reaches).trans found⟩
  case h_2 => trivial

theorem edit_spares_of_shared_leaf : ∃ session : Session, session.held.erase ⟨1, 0⟩ = {⟨0, 0⟩} ∧
    match Pool.edit ⟨1, 0⟩ (.removal ⟨1, ⟨0, 1⟩⟩) session.pool with
    | .ok _ after => ∀ unit ∈ session.held.erase ⟨1, 0⟩, ∀ id,
      (after.Reaches unit id ↔ session.pool.Reaches unit id) ∧
        (session.pool.Reaches unit id →
          ∃ node, session.pool.node? id = some node ∧ after.node? id = some node)
    | .error _ _ => True := by
  obtain ⟨session, reached, held, _⟩ := reached_shared_leaf
  exact ⟨session, by rw [held]; decide, reached.edit_spares (by rw [held]; decide) _⟩

end Session

end SyntaxForest
