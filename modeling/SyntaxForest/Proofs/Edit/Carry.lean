import SyntaxForest.Proofs.Edit.Tasks
import SyntaxForest.Proofs.Pool.Depth
import SyntaxForest.Proofs.Pool.Opened

/-! # An edit carried out in a pool

The agenda of an edit does to the tree below a handle what the recursion does to trees, in whatever
way nodes are shared. While the children of a node are dealt with the node is open, and so are all
above it: the units of its children are in hand, so that each child is the root of an edit of its
own, which spares every other unit.
-/

namespace SyntaxForest.Pool

open PoolM

section Node

variable {pool : Pool} {opened : Finset NodeId} {units : Multiset NodeId} {id : NodeId}
  {info : NodeInfo} {ids : List NodeId} {trees : List Tree}

namespace Opened

theorem changeNode_leaf (state : pool.Opened opened units id info [] []) (edit : TextEdit) :
    Computes (Pool.changeNode edit id) pool (resizedInfo edit true info)
      fun info' tasks after => tasks = [] ∧ after.Opened opened units id info' [] [] ∧
        pool.Spares after opened units := by
  rw [Pool.changeNode, computes_bind_of_ok (query_node state.found)]
  apply (computes_sum (resizedInfo edit true info)).bind_ok
  rintro _ info' _ _ ⟨rfl, rfl⟩
  obtain ⟨after, ran, state', spares⟩ := state.rewrite info'
  rw [bind_of_ok ran]
  exact ⟨[], after, rfl, rfl, state', spares⟩

theorem changeNode_inner (state : pool.Opened opened units id info ids trees) (edit : TextEdit)
    (inner : ids ≠ []) :
    Computes (Pool.changeNode edit id) pool
      ((resizedInfo edit false info).bind fun info' => edit.oldEnd?.bind fun oldEnd =>
        (edit.shares? oldEnd .zero (trees.map Tree.lengths)).map fun shares => (info', shares))
      fun told tasks after => tasks = (tasksFrom id 0 ids told.2).reverse ++ [.summarize id] ∧
        after.Opened opened units id told.1 ids trees ∧ pool.Spares after opened units := by
  have inhabited : (⟨info, ids⟩ : Node).isLeaf = false := List.isEmpty_eq_false_iff.mpr inner
  rw [Pool.changeNode, computes_bind_of_ok (query_node state.found), inhabited]
  apply (computes_sum (resizedInfo edit false info)).bind
  rintro _ info' _ _ ⟨rfl, rfl⟩
  obtain ⟨after, ran, state', spares⟩ := state.rewrite info'
  rw [computes_bind_of_ok ran, if_neg Bool.false_ne_true]
  apply (computes_sum edit.oldEnd?).bind
  rintro _ oldEnd _ _ ⟨rfl, rfl⟩
  refine ((computes_query_map _ (shareOut_of_shows state'.below)).mono ?_).map
  rintro shares _ _ _ ⟨rfl, rfl⟩
  exact ⟨rfl, state', spares⟩

theorem flagNode (state : pool.Opened opened units id info ids trees) (offset : Word) :
    Computes (Pool.flagNode offset id) pool (glances? offset 0 (trees.map Tree.lengths))
      fun shares tasks after => tasks = (tasksFrom id 0 ids shares).reverse ∧
        after.Opened opened units id { info with changed := true } ids trees ∧
        pool.Spares after opened units := by
  obtain ⟨after, ran, state', spares⟩ := state.rewrite { info with changed := true }
  have amended : amend id (fun info => { info with changed := true }) pool = .ok () after := by
    rw [amend, bind_of_ok (query_node state.found), ran]
  rw [Pool.flagNode, computes_bind_of_ok amended]
  have found := node_eq_ok_iff.mpr state'.found
  refine (computes_query_map (fun shares => (tasksFrom id 0 ids shares).reverse) ?_).mono ?_
  · rw [found]
    exact (glanceBack_of_shows state'.below).trans (by simp)
  · rintro shares _ _ _ ⟨rfl, rfl⟩
    exact ⟨rfl, state', spares⟩

end Opened

end Node

/-! ## Whole trees -/

section Carry

variable {pool : Pool} {opened : Finset NodeId} {units : Multiset NodeId} {id : NodeId}
  {info : NodeInfo} {ids : List NodeId} {trees : List Tree} {depth : Nat}

/-- Makes a child unique, and tells the child list where it is. -/
def takeOver (link : Link) (child : NodeId) : PoolM NodeId := do
  let id ← makeUnique child
  attach link id
  return id

theorem editStep_change (link : Link) (child : NodeId) (edit : TextEdit) :
    editStep (.change link child edit) = takeOver link child >>= Pool.changeNode edit := by
  simp only [editStep, takeOver, bind_assoc, pure_bind]

theorem editStep_glance (link : Link) (child : NodeId) (offset : Word) :
    editStep (.glance link child offset) = query (·.node child) >>= fun node =>
      if node.lengths.scanned ≤ offset then pure []
      else takeOver link child >>= Pool.flagNode offset := by
  simp only [editStep, takeOver, bind_assoc, pure_bind]

/-- The child of an open node is opened, and the child list told where it is. -/
theorem Owned.takeOver {link : Link} {child : NodeId} {parent : Node} {handle : Option NodeId}
    (owned : pool.Owned (insert link.parent opened) (child ::ₘ units))
    (unopened : link.parent ∉ opened) (parentFound : pool.node? link.parent = some parent)
    (shows : pool.Shows child (.node handle info trees)) :
    Computes (Pool.takeOver link child) pool (some ()) fun _ id after => ∃ ids,
        after.Opened (insert link.parent opened) units id info ids trees ∧
        after.node? link.parent =
          some { parent with children := parent.children.set link.index id } ∧
        pool.Spares after opened units := by
  apply (owned.makesOpen shows).bind_ok
  rintro _ id middle _ ⟨ids, state, spares⟩
  have apart : link.parent ≠ id := fun same => state.unopened (same ▸ Finset.mem_insert_self ..)
  have parentFound' := (spares.opened _ (Finset.mem_insert_self ..)).trans parentFound
  have owned' := state.owned
  -- Both nodes are open here: the parent is written while the child stays open.
  rw [Finset.insert_comm] at owned'
  obtain ⟨after, ran, owned'', written, spares'⟩ := owned'.rewrite
    (by simp [apart, unopened]) parentFound'
    { parent with children := parent.children.set link.index id }
  rw [Finset.insert_comm] at owned''
  have attached : attach link id middle = .ok () after := by
    rw [attach, bind_of_ok (query_node parentFound'), ran]
  have still := spares'.opened id (Finset.mem_insert_self ..)
  have below := spares'.shows (Multiset.le_add_left ..) state.below
  rw [bind_of_ok attached]
  refine ⟨id, after, rfl, ids, ⟨owned'', state.unopened, still.trans state.found, below⟩, written, ?_⟩
  exact (spares.mono (Finset.subset_insert ..) (le_refl _)).trans
    (spares'.mono (Finset.subset_insert ..) (Multiset.le_add_right ..))

/-- The tree stands where the link says, under an open node that is otherwise as it was. -/
def Replaced (pool after : Pool) (opened : Finset NodeId) (units : Multiset NodeId) (link : Link)
    (parent : Node) (tree : Tree) : Prop :=
  ∃ child, after.Owned (insert link.parent opened) (child ::ₘ units) ∧
    after.node? link.parent =
      some { parent with children := parent.children.set link.index child } ∧
    after.Shows child tree ∧ pool.Spares after opened units

/-- In every pool that shows the tree below an open node, the agenda does to the child what the
recursion does to the tree. -/
def Carried (tree : Tree) : Prop :=
  ∀ {pool : Pool} {opened : Finset NodeId} {units : Multiset NodeId} {child : NodeId}
    {parent : Node} {depth : Nat} (link : Link) (share : Share),
    pool.Owned (insert link.parent opened) (child ::ₘ units) → link.parent ∉ opened →
    pool.node? link.parent = some parent → parent.children[link.index]? = some child →
    pool.Shows child tree → tree.height ≤ depth →
    Computes (carryOut depth [taskOf link child share]) pool (tree.carry? share)
      fun tree' _ after => pool.Replaced after opened units link parent tree'

/-- The node is open, and those of its children that come after `before` are to be dealt with: their
units are in hand, and they show the trees. -/
structure Pending (pool : Pool) (opened : Finset NodeId) (units : Multiset NodeId) (id : NodeId)
    (info : NodeInfo) (before ids : List NodeId) (trees : List Tree) : Prop where
  owned : pool.Owned (insert id opened) (units + ids)
  unopened : id ∉ opened
  found : pool.node? id = some ⟨info, before ++ ids⟩
  below : List.Forall₂ pool.Shows ids trees

namespace Pending

variable {before rest : List NodeId} {child : NodeId} {tree : Tree}

/-- To the children after it, a child is one more that stands before them: its unit is in hand with
the others. -/
theorem later (pending : pool.Pending opened units id info before (child :: rest) (tree :: trees)) :
    pool.Pending opened (child ::ₘ units) id info (before ++ [child]) rest trees where
  owned := by
    have owned := pending.owned
    rwa [← Multiset.cons_coe, Multiset.add_cons, ← Multiset.cons_add] at owned
  unopened := pending.unopened
  found := by simpa using pending.found
  below := (List.forall₂_cons.mp pending.below).2

/-- A child is the last to be dealt with once those after it are done. -/
theorem last (pending : pool.Pending opened (child ::ₘ units) id info (before ++ [child]) rest trees) :
    pool.Owned (insert id opened) (child ::ₘ (units + rest)) ∧
      (before ++ [child] ++ rest)[before.length]? = some child :=
  ⟨Multiset.cons_add .. ▸ pending.owned, by simp⟩

theorem whole (pending : pool.Pending opened units id info [] ids trees) :
    pool.Opened opened units id info ids trees :=
  ⟨pending.owned, pending.unopened, pending.found, pending.below⟩

end Pending

theorem Opened.pending (state : pool.Opened opened units id info ids trees) :
    pool.Pending opened units id info [] ids trees :=
  ⟨state.owned, state.unopened, state.found, state.below⟩

/-- The last child is dealt with first, and the children before it are not touched by that. -/
theorem computes_tasksFrom {before : List NodeId}
    (pending : pool.Pending opened units id info before ids trees) (shares : List Share)
    (carried : ∀ tree ∈ trees, Carried tree) (shallow : ∀ tree ∈ trees, tree.height ≤ depth) :
    Computes (carryOut depth (tasksFrom id before.length ids shares).reverse) pool
      (Tree.carryAll? shares trees) fun trees' _ after => ∃ ids',
        after.Pending opened units id info before ids' trees' ∧ pool.Spares after opened units := by
  induction trees generalizing before shares units ids with
  | nil =>
    obtain rfl := List.forall₂_nil_right_iff.mp pending.below
    rw [tasksFrom, List.reverse_nil, carryOut_nil, Tree.carryAll?_nil_right]
    · exact .of_ok rfl ⟨[], pending, .refl ..⟩
    · simp
  | cons tree trees ih =>
    obtain ⟨child, rest, shows, below', rfl⟩ := List.forall₂_cons_right_iff.mp pending.below
    cases shares with
    | nil =>
      rw [tasksFrom, List.reverse_nil, carryOut_nil, Tree.carryAll?_nil_left]
      · exact .of_ok rfl ⟨_, pending, .refl ..⟩
      · simp
    | cons share shares =>
      rw [tasksFrom, List.reverse_cons, carryOut_append, Tree.carryAll?_cons]
      have later := ih pending.later shares
        (fun tree member => carried tree (List.mem_cons_of_mem _ member))
        (fun tree member => shallow tree (List.mem_cons_of_mem _ member))
      rw [List.length_append, List.length_singleton] at later
      apply later.bind
      rintro trees' _ middle _ ⟨ids', pending', spares⟩
      obtain ⟨owned', place⟩ := pending'.last
      have here := spares.kept.shows (Multiset.mem_cons_self ..) shows
      refine ((carried tree List.mem_cons_self ⟨id, before.length⟩ share owned' pending'.unopened
        pending'.found place here (shallow tree List.mem_cons_self)).mono ?_).map
      rintro tree' _ after _ ⟨child', owned'', found'', shows', spares'⟩
      refine ⟨child' :: ids', ⟨?_, pending.unopened, ?_, .cons shows' ?_⟩, ?_⟩
      · rwa [← Multiset.cons_coe, Multiset.add_cons]
      · simpa using found''
      · exact spares'.shows (Multiset.le_add_left ..) pending'.below
      · exact (spares.of_le (Multiset.le_cons_self ..)).trans
          (spares'.of_le (Multiset.le_add_right ..))

/-- What is done to the child of an open node, once it is open itself, is done to the tree below
its parent. -/
theorem Owned.takeOver_then {link : Link} {child : NodeId} {parent : Node} {handle : Option NodeId}
    {act : NodeId → PoolM Unit} {value : Option Tree}
    (owned : pool.Owned (insert link.parent opened) (child ::ₘ units))
    (unopened : link.parent ∉ opened) (parentFound : pool.node? link.parent = some parent)
    (shows : pool.Shows child (.node handle info trees))
    (acts : ∀ {middle : Pool} {id : NodeId} {ids : List NodeId},
      middle.Opened (insert link.parent opened) units id info ids trees →
      Computes (act id) middle value fun tree' _ after =>
        middle.Settled after (insert link.parent opened) units id tree') :
    Computes (Pool.takeOver link child >>= act) pool value
      fun tree' _ after => pool.Replaced after opened units link parent tree' := by
  apply (owned.takeOver unopened parentFound shows).seq
  rintro id middle ⟨ids, state, told, spares⟩
  apply (acts state).mono
  rintro tree' _ after _ ⟨owned', shows', spares'⟩
  refine ⟨id, owned', ?_, shows', ?_⟩
  · rw [spares'.opened _ (Finset.mem_insert_self ..), told]
  · exact spares.trans (spares'.mono (Finset.subset_insert ..) (le_refl _))

namespace Opened

theorem carryAll (state : pool.Opened opened units id info ids trees) (shares : List Share)
    (carried : ∀ tree ∈ trees, Carried tree) (shallow : ∀ tree ∈ trees, tree.height ≤ depth) :
    Computes (carryOut depth (tasksFrom id 0 ids shares).reverse) pool
      (Tree.carryAll? shares trees) fun trees' _ after => ∃ ids',
        after.Opened opened units id info ids' trees' ∧ pool.Spares after opened units := by
  apply (computes_tasksFrom state.pending shares carried shallow).mono
  rintro trees' _ after _ ⟨ids', pending, spares⟩
  exact ⟨ids', pending.whole, spares⟩

/-- The links go down to ever fewer live nodes, so no tree is higher than the pool has slots. -/
theorem height_le (state : pool.Opened opened units id info ids trees) {tree : Tree}
    (member : tree ∈ trees) : tree.height ≤ pool.slots.size := by
  obtain ⟨child, _, shows⟩ := (List.Forall₂.flip state.below).exists_of_mem member
  exact Nat.le_trans (shows.height_le_liveCount state.owned.tidy) (Nat.sub_le ..)

/-- The lengths of a node are derived when its children are done, and then the node is closed. -/
theorem carryAll_summarize (state : pool.Opened opened units id info ids trees)
    (shares : List Share) (carried : ∀ tree ∈ trees, Carried tree)
    (shallow : ∀ tree ∈ trees, tree.height ≤ depth) :
    Computes (carryOut depth ((tasksFrom id 0 ids shares).reverse ++ [.summarize id])) pool
      ((Tree.carryAll? shares trees).bind fun trees =>
        (Lengths.over? (trees.map Tree.lengths)).map fun lengths =>
          .node none { info with lengths } trees) fun tree' _ after =>
        pool.Settled after opened units id tree' := by
  rw [carryOut_append, carryOut_summarize]
  apply (state.carryAll shares carried shallow).bind
  rintro trees' _ middle _ ⟨ids', state', spares⟩
  refine (state'.summarize.mono ?_).map
  rintro lengths _ after _ ⟨state'', spares'⟩
  exact (spares.trans spares').settled state''.closes

/-- The tasks that a changed node sets have to be run as deep as its children go. -/
theorem change (state : pool.Opened opened units id info ids trees) (edit : TextEdit)
    {handle : Option NodeId} {go : List EditTask → PoolM Unit}
    (carried : ∀ tree ∈ trees, Carried tree)
    (runs : ∀ info' after, after.Opened opened units id info' ids trees → ∃ depth,
      (∀ tree ∈ trees, tree.height ≤ depth) ∧
        ∀ tasks, go tasks after = carryOut depth tasks after) :
    Computes (Pool.changeNode edit id >>= go) pool
      ((Tree.node handle info trees).carry? (.part edit)) fun tree' _ after =>
        pool.Settled after opened units id tree' := by
  cases shape : trees with
  | nil =>
    subst shape
    obtain rfl := List.forall₂_nil_right_iff.mp state.below
    rw [Tree.carry?_part_leaf, Option.map_eq_bind]
    apply (state.changeNode_leaf edit).bind
    rintro info' _ middle _ ⟨rfl, state', spares⟩
    obtain ⟨depth, _, ran⟩ := runs info' middle state'
    have done : go [] middle = .ok () middle := by rw [ran, carryOut_nil]; rfl
    exact .of_ok done (spares.settled state'.closes)
  | cons first rest =>
    have inner : trees ≠ [] := by simp [shape]
    have inner' : ids ≠ [] := by
      rintro rfl
      exact inner (List.forall₂_nil_left_iff.mp state.below)
    rw [← shape, Tree.carry?_part_node edit inner]
    have after (told : NodeInfo × List Share) (tasks : List EditTask) (middle : Pool)
        (ready : tasks = (tasksFrom id 0 ids told.2).reverse ++ [.summarize id] ∧
          middle.Opened opened units id told.1 ids trees ∧ pool.Spares middle opened units) :
        Computes (go tasks) middle ((Tree.carryAll? told.2 trees).bind fun trees =>
          (Lengths.over? (trees.map Tree.lengths)).map fun lengths =>
            .node none { told.1 with lengths } trees) fun tree' _ after =>
          pool.Settled after opened units id tree' := by
      obtain ⟨rfl, state', spares⟩ := ready
      obtain ⟨depth, shallow, ran⟩ := runs told.1 middle state'
      rw [computes_congr (ran _)]
      exact (state'.carryAll_summarize told.2 carried shallow).mono fun _ _ _ _ => spares.settled
    have all := (state.changeNode_inner edit inner').bind fun told tasks middle _ =>
      after told tasks middle
    simpa only [Option.bind_assoc, Option.bind_map, Function.comp_def] using all

theorem flag (state : pool.Opened opened units id info ids trees) (offset : Word)
    (carried : ∀ tree ∈ trees, Carried tree) (shallow : ∀ tree ∈ trees, tree.height ≤ depth) :
    Computes (Pool.flagNode offset id >>= carryOut depth) pool
      ((glances? offset 0 (trees.map Tree.lengths)).bind fun shares =>
        (Tree.carryAll? shares trees).map fun trees =>
          .node none { info with changed := true } trees) fun tree' _ after =>
        pool.Settled after opened units id tree' := by
  apply (state.flagNode offset).bind
  rintro shares _ middle _ ⟨rfl, state', spares⟩
  refine ((state'.carryAll shares carried shallow).mono ?_).map
  rintro trees' _ after _ ⟨ids', state'', spares'⟩
  exact (spares.trans spares').settled state''.closes

end Opened

/-- The agenda of an edit carries out the recursion, on every tree. -/
theorem carried (tree : Tree) : Carried tree := by
  induction tree with
  | node handle info trees ih =>
    intro pool opened units child parent depth link share owned unopened parentFound place shows deep
    obtain ⟨_, ids, found, below⟩ := shows_iff.mp shows
    obtain ⟨depth, rfl, shallow⟩ := Tree.exists_depth_below deep
    rw [carryOut_one]
    cases share with
    | part edit =>
      rw [taskOf, editStep_change, bind_assoc]
      refine owned.takeOver_then unopened parentFound shows fun state => ?_
      exact state.change edit ih fun _ _ _ => ⟨depth, shallow, fun _ => rfl⟩
    | glance offset =>
      rw [taskOf, editStep_glance, bind_assoc, computes_bind_of_ok (query_node found)]
      by_cases past : info.lengths.scanned ≤ offset
      · rw [Tree.carry?_glance_past past, if_pos past, pure_bind, carryOut_nil]
        refine .of_ok rfl ⟨child, owned, ?_, shows, .refl ..⟩
        obtain ⟨inside, rfl⟩ := List.getElem?_eq_some_iff.mp place
        rw [parentFound, List.set_getElem_self]
      · rw [Tree.carry?_glance_reached past, if_neg past, bind_assoc]
        refine owned.takeOver_then unopened parentFound shows fun state => ?_
        exact state.flag offset ih shallow

end Carry

/-! ## Whole edits -/

section Whole

variable {pool : Pool} {units : Multiset NodeId} {root : NodeId} {tree : Tree}

theorem Owned.applyEdit (owned : pool.Owned ∅ (root ::ₘ units)) (shows : pool.Shows root tree)
    (edit : TextEdit) :
    Computes (Pool.applyEdit root edit) pool (tree.edit? edit)
      fun tree' root' after => pool.Settled after ∅ units root' tree' := by
  obtain ⟨handle, info, trees⟩ := tree
  apply (owned.makesOpen shows).seq
  rintro id middle ⟨ids, state, spares⟩
  have applied : Computes ((changeNode edit id >>= fun tasks => get >>= fun pool =>
      carryOut pool.slots.size tasks) >>= fun _ => pure id) middle
      ((Tree.node handle info trees).carry? (.part edit))
      fun tree' root' after => pool.Settled after ∅ units root' tree' := by
    refine (state.change edit (fun tree _ => carried tree) fun info' after state' => ?_).bind_ok ?_
    · exact ⟨after.slots.size, fun _ => state'.height_le, fun _ => rfl⟩
    · exact fun tree' _ after _ settled => ⟨id, after, rfl, spares.settled settled⟩
  simp only [bind_assoc] at applied
  exact applied

/-- What the pool answers to an edit, beside what the tree by itself says. -/
def Answers (pool : Pool) (units : Multiset NodeId) :
    Except TextEdit.Refusal Tree → Except TextEdit.Refusal NodeId → Pool → Prop
  | .error refusal, .error refusal', after => refusal' = refusal ∧ after = pool
  | .ok tree, .ok root, after => pool.Settled after ∅ units root tree
  | _, _, _ => False

theorem Owned.edit (owned : pool.Owned ∅ (root ::ₘ units)) (shows : pool.Shows root tree)
    (edit : TextEdit) :
    Computes (Pool.edit root edit) pool (tree.revise? edit) (pool.Answers units) := by
  obtain ⟨ids, found, _⟩ := shows.node?
  unfold Pool.edit editBy Tree.revise?
  cases edit.ends with
  | error refusal => exact .of_ok rfl ⟨rfl, rfl⟩
  | ok ends =>
    obtain ⟨oldEnd, newEnd⟩ := ends
    dsimp only
    rw [computes_bind_of_ok (query_node found)]
    apply (computes_sum tree.lengths.totalBytes?).bind
    rintro _ total _ _ ⟨rfl, rfl⟩
    cases edit.approve oldEnd newEnd total with
    | error refusal => exact .of_ok rfl ⟨rfl, rfl⟩
    | ok =>
      dsimp only
      split
      case isTrue =>
        obtain ⟨after, ran, owned', nodes⟩ := owned.record (.skippedEdit edit.start.bytes)
        rw [computes_bind_of_ok ran]
        refine .of_ok rfl ⟨owned', shows.transfer fun other _ => nodes other, ?_, fun _ _ => nodes _⟩
        exact .of_node?_eq nodes
      case isFalse =>
        obtain ⟨middle, ran, owned', nodes⟩ := owned.record
          (.appliedEdit edit.start.bytes edit.removed.bytes edit.added.bytes)
        rw [computes_bind_of_ok ran]
        have spares : Spares _ middle ∅ units := ⟨.of_node?_eq nodes, fun _ _ => nodes _⟩
        refine (owned'.applyEdit (shows.transfer fun other _ => nodes other) edit).bind
          fun tree' root' after _ settled => ?_
        exact .of_ok rfl (spares.settled settled)

end Whole

end SyntaxForest.Pool
