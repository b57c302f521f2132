import SyntaxForest.Pool.Walk
import SyntaxForest.Proofs.Edit.Refinement
import SyntaxForest.Proofs.Tree.Outline

/-! # Edits of trees that compare equal

Two trees of a pool compare equal if and only if they have the same outline. Edits of the same bytes
get the same answer on both, and trees that compare equal again, in whatever way the two share their
nodes and whatever the first edit has made of the pool for the second.
-/

namespace SyntaxForest

theorem Tree.image_plain (look : NodeInfo → NodeInfo) (tree : Tree) :
    tree.plain.image look = tree.image look := by
  induction tree with
  | node handle info children ih =>
    rw [plain, image, image]
    congr 1
    induction children with
    | nil => rfl
    | cons tree trees ihAll =>
      rw [plainAll, imageAll, imageAll, ih tree List.mem_cons_self,
        ihAll fun tree member => ih tree (List.mem_cons_of_mem _ member)]

namespace Pool

variable {pool : Pool} {id left right : NodeId} {ids ids' : List NodeId} {tree tree' : Tree}
  {trees trees' : List Tree} {depth : Nat}

/-- All that a handle shows looks the same. -/
theorem Shows.image_eq (first : pool.Shows id tree) (second : pool.Shows id tree')
    (look : NodeInfo → NodeInfo) : tree.image look = tree'.image look := by
  rw [← tree.image_plain, first.plain_eq second, tree'.image_plain]

theorem differenceOrPairs_self (pool : Pool) (id : NodeId) :
    pool.differenceOrPairs (id, id) = .ok (.inr []) := if_pos rfl

theorem differenceOrPairs_of_ne {node node' : Node} (differ : left ≠ right)
    (found : pool.node? left = some node) (found' : pool.node? right = some node') :
    pool.differenceOrPairs (left, right) = .ok
      (if node.outline = node'.outline ∧ node.children.length = node'.children.length then
        .inr (node.children.zip node'.children).reverse
      else .inl ()) := by
  simp only [differenceOrPairs, if_neg differ, node_eq_ok_iff.mpr found, node_eq_ok_iff.mpr found',
    bind, Except.bind, pure, Except.pure, Bool.and_eq_true, decide_eq_true_iff, NodeInfo.alike_iff]
  split <;> rfl

/-- No difference is found between two trees. -/
def Matches (pool : Pool) (depth : Nat) (pair : NodeId × NodeId) : Prop :=
  Agenda.search pool.differenceOrPairs .endless [(depth, pair)] = .ok none

/-- The children match one by one if and only if their outlines are the same. -/
theorem matches_zip_iff (all : List.Forall₂ pool.Shows ids trees)
    (all' : List.Forall₂ pool.Shows ids' trees') (length_eq : ids.length = ids'.length)
    (each : ∀ tree ∈ trees, ∀ left right tree', pool.Shows left tree → pool.Shows right tree' →
      (pool.Matches depth (left, right) ↔ tree.outline = tree'.outline)) :
    (∀ pair ∈ ids.zip ids', pool.Matches depth pair) ↔
      trees.map Tree.outline = trees'.map Tree.outline := by
  induction all generalizing ids' trees' with
  | nil =>
    obtain rfl := List.length_eq_zero_iff.mp length_eq.symm
    obtain rfl := List.forall₂_nil_left_iff.mp all'
    exact ⟨fun _ => rfl, fun _ => nofun⟩
  | cons shows rest ih =>
    cases all' with
    | nil => cases length_eq
    | cons shows' rest' =>
      rw [List.zip_cons_cons, List.forall_mem_cons, List.map_cons, List.map_cons, List.cons.injEq,
        each _ List.mem_cons_self _ _ _ shows shows', ih rest' (Nat.succ.inj length_eq)
          fun tree member => each tree (List.mem_cons_of_mem _ member)]

theorem Shows.matches_iff (shows : pool.Shows left tree) (shows' : pool.Shows right tree')
    (deep : tree.height ≤ depth) :
    pool.Matches depth (left, right) ↔ tree.outline = tree'.outline := by
  induction tree generalizing left right tree' depth with
  | node handle info children ih =>
    obtain ⟨handle', info', children'⟩ := tree'
    obtain ⟨_, ids, found, all⟩ := shows_iff.mp shows
    obtain ⟨_, ids', found', all'⟩ := shows_iff.mp shows'
    obtain ⟨depth, rfl, shallow⟩ := Tree.exists_depth_below deep
    rw [Matches, Agenda.search_one]
    rcases eq_or_ne left right with rfl | differ
    · rw [differenceOrPairs_self]
      exact iff_of_true (by simp only [List.map_nil, Agenda.search])
        (shows.image_eq shows' NodeInfo.outline)
    rw [Tree.outline_eq_iff]
    change _ ↔ info.outline = info'.outline ∧
      children.map Tree.outline = children'.map Tree.outline
    rw [differenceOrPairs_of_ne differ found found']
    by_cases agree : info.outline = info'.outline ∧ ids.length = ids'.length
    · rw [if_pos agree]
      obtain ⟨alike, length_eq⟩ := agree
      have below := matches_zip_iff all all' length_eq fun tree member _ _ _ shows shows' =>
        ih tree member shows shows' (shallow tree member)
      dsimp only
      rw [Agenda.search_eq_none_iff, List.forall_mem_map, and_iff_right alike, ← below]
      simp only [List.mem_reverse]
      rfl
    · rw [if_neg agree]
      refine iff_of_false (fun ends => by cases ends) fun same => agree ⟨same.1, ?_⟩
      rw [all.length_eq, all'.length_eq]
      simpa only [List.length_map] using congrArg List.length same.2

/-- Trees compare equal if and only if they have the same outline. -/
theorem Shows.sameTree_iff (shows : pool.Shows left tree) (shows' : pool.Shows right tree')
    (deep : tree.height ≤ pool.walkDepth) :
    pool.sameTree left right = .ok true ↔ tree.outline = tree'.outline := by
  rw [← shows.matches_iff shows' deep, sameTree, search, Matches, List.map_singleton]
  cases Agenda.search pool.differenceOrPairs .endless [(pool.walkDepth, left, right)] with
  | error stop => exact iff_of_false nofun nofun
  | ok difference => cases difference <;> simp [bind, Except.bind, pure, Except.pure]

theorem Owned.height_le_walkDepth {units : Multiset NodeId} (owned : pool.Owned ∅ units)
    (shows : pool.Shows id tree) : tree.height ≤ pool.walkDepth :=
  Nat.le_trans (shows.height_le_liveCount owned.tidy) (Nat.sub_le ..)

end Pool

namespace Session

variable {allowed : Session → Call → Prop} {session : Session} {left right : NodeId}
  {edit edit' : TextEdit} {answer answer' : Except TextEdit.Refusal NodeId} {middle after : Pool}

/-- Edits of the same bytes, of two trees that compare equal, are refused alike or make trees that
compare equal. Each spends a unit; the two may be units of one node. -/
theorem Reached.edits_alike (reached : Reached allowed session)
    (held : left ::ₘ {right} ≤ session.held)
    (same : session.pool.sameTree left right = .ok true)
    (start : edit.start.bytes = edit'.start.bytes)
    (removed : edit.removed.bytes = edit'.removed.bytes)
    (added : edit.added.bytes = edit'.added.bytes)
    (ran : Pool.edit left edit session.pool = .ok answer middle)
    (ran' : Pool.edit right edit' middle = .ok answer' after) :
    match answer, answer' with
    | .ok edited, .ok edited' => after.sameTree edited edited' = .ok true
    | .error refusal, .error refusal' => refusal = refusal'
    | _, _ => False := by
  obtain ⟨rest, whole⟩ := Multiset.le_iff_exists_add.mp held
  rw [Multiset.cons_add, Multiset.singleton_add] at whole
  have owned := reached.owned
  rw [whole] at owned
  obtain ⟨tree, shows⟩ := owned.exists_shows (Multiset.mem_cons_self ..)
  obtain ⟨tree', shows'⟩ := owned.exists_shows
    (Multiset.mem_cons_of_mem (Multiset.mem_cons_self right rest))
  have alike := (shows.sameTree_iff shows' (owned.height_le_walkDepth shows)).mp same
  have cut := TextEdit.cut_eq_iff.mpr ⟨start, removed, added⟩
  -- The second edit runs on what the first has made of the pool, which keeps its tree.
  obtain ⟨result, revised, answers⟩ := (owned.edit shows edit).result ran
  obtain ⟨unit, owned', isUnit⟩ := answers.exists_unit owned
  rw [Multiset.cons_swap] at owned'
  obtain ⟨result', revised', answers'⟩ :=
    (owned'.edit (answers.keeps.shows (Multiset.mem_cons_self ..) shows') edit').result ran'
  have results := Tree.outline_of_revise? alike cut revised revised'
  obtain ⟨refusal, rfl, rfl, _⟩ | ⟨_, edited, rfl, rfl, settled⟩ := answers.cases
  · obtain ⟨refusal', rfl, rfl, _⟩ | ⟨_, _, rfl, _⟩ := answers'.cases
    · exact Except.error.inj results
    · cases results
  · obtain ⟨_, rfl, _⟩ | ⟨_, edited', rfl, rfl, settled'⟩ := answers'.cases
    · cases results
    · obtain rfl := isUnit edited rfl
      have first := settled'.spares.kept.shows (Multiset.mem_cons_self ..) settled.shows
      have deep := settled'.owned.height_le_walkDepth first
      exact (first.sameTree_iff settled'.shows deep).mpr (Except.ok.inj results)

/-- A node over two units of one token, and one over two tokens that stand on rows of their own. -/
def doubled : Session where
  pool :=
    { slots := #[⟨0, 2, ⟨{ NodeInfo.blank with lengths := ⟨⟨1, ⟨0, 1⟩⟩, ⟨2, ⟨0, 2⟩⟩, 3⟩ }, []⟩⟩,
        ⟨0, 1, ⟨{ NodeInfo.blank with lengths := ⟨⟨1, ⟨0, 1⟩⟩, ⟨5, ⟨0, 5⟩⟩, 6⟩ }, [⟨0, 0⟩, ⟨0, 0⟩]⟩⟩,
        ⟨0, 1, ⟨{ NodeInfo.blank with lengths := ⟨⟨1, ⟨1, 0⟩⟩, ⟨2, ⟨0, 2⟩⟩, 3⟩ }, []⟩⟩,
        ⟨0, 1, ⟨{ NodeInfo.blank with lengths := ⟨⟨1, ⟨1, 0⟩⟩, ⟨2, ⟨0, 2⟩⟩, 3⟩ }, []⟩⟩,
        ⟨0, 1, ⟨{ NodeInfo.blank with lengths := ⟨⟨1, ⟨1, 0⟩⟩, ⟨5, ⟨1, 2⟩⟩, 6⟩ }, [⟨2, 0⟩, ⟨3, 0⟩]⟩⟩]
      free := [], journal := #[], sizing := .standard }
  held := {⟨4, 0⟩, ⟨1, 0⟩}

theorem reached_doubled : Reached (fun _ _ => True) doubled := by
  have token : Reached (fun _ _ => True) _ := .step
    (.makeLeaf .empty .endOfInput ⟨1, ⟨0, 1⟩⟩ ⟨2, ⟨0, 2⟩⟩) (.start .standard) trivial rfl
  have retained := token.step (.retain ⟨0, 0⟩) trivial rfl
  have shared := retained.step (.makeNode .empty .endOfInput [⟨0, 0⟩, ⟨0, 0⟩]) trivial rfl
  have first := shared.step (.makeLeaf .empty .endOfInput ⟨1, ⟨1, 0⟩⟩ ⟨2, ⟨0, 2⟩⟩) trivial rfl
  have second := first.step (.makeLeaf .empty .endOfInput ⟨1, ⟨1, 0⟩⟩ ⟨2, ⟨0, 2⟩⟩) trivial rfl
  have apart := second.step (.makeNode .empty .endOfInput [⟨2, 0⟩, ⟨3, 0⟩]) trivial rfl
  exact apart

theorem sameTree_of_doubled : doubled.pool.sameTree ⟨1, 0⟩ ⟨4, 0⟩ = .ok true := by
  have same : (match doubled.pool.sameTree ⟨1, 0⟩ ⟨4, 0⟩ with
      | .ok same => same
      | .error _ => false) = true := by
    rw [Pool.sameTree, Pool.search_eq_findSomeM?]
    decide +kernel
  split at same
  case h_1 found => rw [found, same]
  case h_2 => cases same

/-- A removal across both tokens, told on one row and then on three. -/
theorem edits_alike_of_doubled : ∃ edited edited' middle after,
    Pool.edit ⟨1, 0⟩ ⟨⟨2, ⟨0, 2⟩⟩, ⟨2, ⟨0, 2⟩⟩, ⟨1, ⟨0, 1⟩⟩⟩ doubled.pool = .ok (.ok edited) middle ∧
      Pool.edit ⟨4, 0⟩ ⟨⟨2, ⟨1, 1⟩⟩, ⟨2, ⟨1, 0⟩⟩, ⟨1, ⟨1, 0⟩⟩⟩ middle = .ok (.ok edited') after ∧
        after.sameTree edited edited' = .ok true := by
  have accepted : doubled.pool.editPasses ⟨1, 0⟩ ⟨⟨2, ⟨0, 2⟩⟩, ⟨2, ⟨0, 2⟩⟩, ⟨1, ⟨0, 1⟩⟩⟩
      (fun _ middle => middle.carriesOut ⟨4, 0⟩ ⟨⟨2, ⟨1, 1⟩⟩, ⟨2, ⟨1, 0⟩⟩, ⟨1, ⟨1, 0⟩⟩⟩) = true := by
    simp only [Pool.editPasses, Pool.carriesOut, Pool.edit_eq_descendEdit]
    decide +kernel
  obtain ⟨edited, middle, ran, accepted'⟩ := Pool.editPasses_iff.mp accepted
  obtain ⟨edited', after, ran'⟩ := Pool.carriesOut_iff.mp accepted'
  have alike := reached_doubled.edits_alike (by decide) sameTree_of_doubled (by rfl) (by rfl)
    (by rfl) ran ran'
  exact ⟨edited, edited', middle, after, ran, ran', alike⟩

end Session

end SyntaxForest
