import SyntaxForest.Proofs.Edit.Refinement
import SyntaxForest.Proofs.Tree.Rewriting

/-! # Texts in a session

A caller may keep a text beside a tree that spells it, and edit both alike. However often that is
done, and whatever else is done to the pool meanwhile, the tree goes on to spell the text, with
every row and column right.
-/

namespace SyntaxForest

/-- The tree of this handle spells the text. -/
def Pool.Spells (pool : Pool) (id : NodeId) (text : Text) : Prop :=
  ∃ tree, pool.Shows id tree ∧ tree.Spells text

theorem Pool.Keeps.spells {pool after : Pool} {units : Multiset NodeId} {id : NodeId} {text : Text}
    (keeps : pool.Keeps after units) (held : id ∈ units) (spells : pool.Spells id text) :
    after.Spells id text := by
  obtain ⟨tree, shows, spells⟩ := spells
  exact ⟨tree, keeps.shows held shows, spells⟩

namespace Session

variable {allowed : Session → Call → Prop} {session middle after : Session} {root edited : NodeId}
  {text text' text'' : Text}

/-- How a session goes on in which the caller holds a tree of a text. The tree is edited as the text
is, and then the caller goes on with the edited one; or something else is done, which writes to no
node and leaves the caller a unit of the tree. -/
inductive Follows (session : Session) (root : NodeId) (text : Text) :
    Session → NodeId → Text → Prop where
  | refl : Follows session root text session root text
  | edit {middle : Session} {id edited : NodeId} {text' text'' : Text} {edit : TextEdit}
    {pool : Pool} (before : Follows session root text middle id text')
    (rewrites : edit.Rewrites text' text'')
    (ran : Pool.edit id edit middle.pool = .ok (.ok edited) pool) :
    Follows session root text ⟨pool, {edited} + (middle.held - {id})⟩ edited text''
  | other {middle after : Session} {id : NodeId} {text' : Text} {call : Call}
    (before : Follows session root text middle id text')
    (writes : ∀ node change, call ≠ .amend node change) (keeps : id ∈ middle.held - call.spends)
    (stepped : middle.step? call = some after) :
    Follows session root text after id text'

/-- What a call that writes to no node leaves alone. -/
theorem spells_step? {call : Call} (owned : session.pool.Owned ∅ session.held)
    (writes : ∀ node change, call ≠ .amend node change) (keeps : root ∈ session.held - call.spends)
    (stepped : session.step? call = some after) (spells : session.pool.Spells root text) :
    root ∈ after.held ∧ after.pool.Spells root text := by
  obtain ⟨rest, given, whole, held, outcome⟩ := step?_outcome owned stepped
  rw [whole, add_tsub_cancel_left] at keeps
  have still : root ∈ after.held := held ▸ Multiset.mem_add.mpr (.inr keeps)
  refine ⟨still, ?_⟩
  cases outcome with
  | made _ settled => exact settled.spares.kept.spells keeps spells
  | handed _ kept => exact kept.spells (held ▸ still) spells
  | amended => exact (writes _ _ rfl).elim

/-- The edited tree spells the edited text, whose bytes can be numbered. -/
theorem Reached.spells_edit (reached : Reached allowed session) (held : root ∈ session.held)
    (spells : session.pool.Spells root text) {edit : TextEdit} {pool : Pool}
    (rewrites : edit.Rewrites text text')
    (ran : Pool.edit root edit session.pool = .ok (.ok edited) pool) :
    pool.Spells edited text' ∧ text'.length < UInt32.size := by
  obtain ⟨tree, shows, spells⟩ := spells
  obtain ⟨tree', revised, settled⟩ := reached.revise?_of_edit held shows ran
  obtain ⟨spells', numbered⟩ := spells.revise? rewrites revised
  exact ⟨⟨tree', settled.shows, spells'⟩, numbered⟩

/-- However the session goes on, the caller holds a tree that spells the text. -/
theorem Follows.spells (follows : Follows session root text middle edited text')
    (reached : Reached (fun _ _ => True) session) (held : root ∈ session.held)
    (spells : session.pool.Spells root text) :
    Reached (fun _ _ => True) middle ∧ edited ∈ middle.held ∧ middle.pool.Spells edited text' := by
  induction follows with
  | refl => exact ⟨reached, held, spells⟩
  | edit _ rewrites ran ih =>
    obtain ⟨reached, held, spells⟩ := ih
    refine ⟨reached.step _ trivial (step?_edit held ran), ?_,
      (reached.spells_edit held spells rewrites ran).1⟩
    exact Multiset.mem_add.mpr (.inl (Multiset.mem_singleton_self _))
  | other _ writes keeps stepped ih =>
    obtain ⟨reached, held, spells⟩ := ih
    exact ⟨reached.step _ trivial stepped, spells_step? reached.owned writes keeps stepped spells⟩

/-- After any number of edits, and one more, the leaves of the tree measure the pieces of the text
in bytes, rows and columns, and the total of the tree measures all of it. -/
theorem Reached.edit_spells (reached : Reached allowed session) (held : root ∈ session.held)
    (spells : session.pool.Spells root text) {id : NodeId}
    (follows : Follows session root text middle id text') {edit : TextEdit} {pool : Pool}
    (rewrites : edit.Rewrites text' text'')
    (ran : Pool.edit id edit middle.pool = .ok (.ok edited) pool) :
    ∃ tree total, pool.Shows edited tree ∧ tree.Spells text'' ∧
      tree.lengths.total? = some total ∧ total.Measures text'' := by
  obtain ⟨reached, held, spells⟩ :=
    follows.spells (reached.mono fun _ _ _ => trivial) held spells
  obtain ⟨⟨tree, shows, spells⟩, numbered⟩ := reached.spells_edit held spells rewrites ran
  obtain ⟨total, fits, measures⟩ := spells.lengths_measures.exists_total? numbered
  exact ⟨tree, total, shows, spells, fits, measures⟩

/-! ## A text on three rows -/

/-- A token, or a node over tokens, on some rows. -/
def rowsInfo (padding size : Span) (scanned : Word) (changed : Bool) : NodeInfo :=
  { NodeInfo.blank with lengths := ⟨padding, size, scanned⟩, changed }

/-- A node over the tokens "a\n" and " b\nc", the second of which starts with a blank. -/
def rows : Session where
  pool :=
    { slots := #[⟨0, 1, ⟨rowsInfo .zero ⟨2, ⟨1, 0⟩⟩ 2 false, []⟩⟩,
        ⟨0, 1, ⟨rowsInfo ⟨1, ⟨0, 1⟩⟩ ⟨3, ⟨1, 1⟩⟩ 4 false, []⟩⟩,
        ⟨0, 1, ⟨rowsInfo .zero ⟨6, ⟨2, 1⟩⟩ 6 false, [⟨0, 0⟩, ⟨1, 0⟩]⟩⟩]
      free := [], journal := #[], sizing := .standard }
  held := {⟨2, 0⟩}

/-- The pool after the first line break and the blank have been taken out. -/
def joined : Pool where
  slots := #[⟨0, 1, ⟨rowsInfo .zero ⟨1, ⟨0, 1⟩⟩ 2 true, []⟩⟩,
    ⟨0, 1, ⟨rowsInfo .zero ⟨3, ⟨1, 1⟩⟩ 4 true, []⟩⟩,
    ⟨0, 1, ⟨rowsInfo .zero ⟨4, ⟨1, 1⟩⟩ 5 true, [⟨0, 0⟩, ⟨1, 0⟩]⟩⟩]
  free := []
  journal := #[.appliedEdit 1 2 0]
  sizing := .standard

theorem reached_rows : Reached (fun _ _ => True) rows := by
  have line : Reached (fun _ _ => True) _ := .step
    (.makeLeaf .empty .endOfInput .zero ⟨2, ⟨1, 0⟩⟩) (.start .standard) trivial rfl
  have token := line.step (.makeLeaf .empty .endOfInput ⟨1, ⟨0, 1⟩⟩ ⟨3, ⟨1, 1⟩⟩) trivial rfl
  have node := token.step (.makeNode .empty .endOfInput [⟨0, 0⟩, ⟨1, 0⟩]) trivial rfl
  exact node

theorem rows_spells : rows.pool.Spells ⟨2, 0⟩ [97, 10, 32, 98, 10, 99] := by
  have token {id : NodeId} {info : NodeInfo} (found : rows.pool.node? id = some ⟨info, []⟩) :
      rows.pool.Shows id (.node none info []) :=
    Pool.shows_iff.mpr ⟨by simp, [], found, .nil⟩
  have node : rows.pool.Shows ⟨2, 0⟩ (.node none _ _) :=
    Pool.shows_iff.mpr ⟨by simp, [⟨0, 0⟩, ⟨1, 0⟩], rfl, .cons (token rfl) (.cons (token rfl) .nil)⟩
  refine ⟨_, node, (Tree.spells_node_iff (List.cons_ne_nil _ _)).mpr
    ⟨?_, [[97, 10], [32, 98, 10, 99]], ?_, rfl⟩⟩
  · rintro _ _ ⟨⟩
    exact ⟨rfl, rfl⟩
  · refine .cons (Tree.spells_leaf_iff.mpr ?_) (.cons (Tree.spells_leaf_iff.mpr ?_) .nil)
    · exact ⟨[], [97, 10], rfl, .zero, rfl, rfl, rfl⟩
    · exact ⟨[32], [98, 10, 99], rfl, ⟨rfl, rfl, rfl⟩, rfl, rfl, rfl⟩

/-- The first two rows are joined, and then "b" makes room for another line break. -/
theorem edit_spells_of_rows : ∃ edited after tree total,
    Pool.edit ⟨2, 0⟩ ⟨⟨1, ⟨0, 1⟩⟩, ⟨2, ⟨1, 0⟩⟩, ⟨2, ⟨2, 0⟩⟩⟩ joined = .ok (.ok edited) after ∧
      after.Shows edited tree ∧ tree.Spells [97, 10, 10, 99] ∧
        tree.lengths.total? = some total ∧ total.Measures [97, 10, 10, 99] := by
  have joins : rows.pool.editPasses ⟨2, 0⟩ ⟨⟨1, ⟨0, 1⟩⟩, ⟨2, ⟨1, 1⟩⟩, .zero⟩
      (fun edited after => decide (edited = ⟨2, 0⟩ ∧ after = joined)) = true := by
    rw [Pool.editPasses, Pool.edit_eq_descendEdit]
    decide +kernel
  obtain ⟨_, _, joins, same⟩ := Pool.editPasses_iff.mp joins
  obtain ⟨rfl, rfl⟩ := of_decide_eq_true same
  have accepted : joined.carriesOut ⟨2, 0⟩ ⟨⟨1, ⟨0, 1⟩⟩, ⟨2, ⟨1, 0⟩⟩, ⟨2, ⟨2, 0⟩⟩⟩ = true := by
    rw [Pool.carriesOut, Pool.edit_eq_descendEdit]
    decide +kernel
  obtain ⟨edited, after, ran⟩ := Pool.carriesOut_iff.mp accepted
  obtain ⟨tree, total, all⟩ := reached_rows.edit_spells (Multiset.mem_singleton_self _) rows_spells
    (.edit .refl ⟨[97], [10, 32], [], [98, 10, 99], rfl, rfl, ⟨rfl, rfl, rfl⟩, ⟨rfl, rfl, rfl⟩,
      .zero⟩ joins)
    ⟨[97], [98, 10], [10, 10], [99], rfl, rfl, ⟨rfl, rfl, rfl⟩, ⟨rfl, rfl, rfl⟩,
      ⟨rfl, rfl, rfl⟩⟩ ran
  exact ⟨edited, after, tree, total, ran, all⟩

end Session

end SyntaxForest
