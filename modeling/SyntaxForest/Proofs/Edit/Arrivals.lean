import SyntaxForest.Proofs.Edit.Carry
import SyntaxForest.Proofs.Edit.Exact
import SyntaxForest.Proofs.Tree.Parts

/-! # Where the parts of an edit arrive

While an edit is carried out, parts of it arrive at one node after another, each in the pool that
the tasks before it have left. Where the bytes of a tree add up, every part lies within its node, so
that no bytes are lost there, and the parts that the node hands on take it apart.
-/

namespace SyntaxForest.Pool

open PoolM

/-- A node that a part of an edit has come to, and that has no owner but its holder. -/
structure Arrival where
  /-- The pool at that moment. -/
  pool : Pool
  id : NodeId
  /-- The part of the edit, in the coordinates of the node. -/
  edit : TextEdit

/-- Where the part of a task arrives once the parent has been told of its child. -/
def EditTask.arrival? (task : EditTask) (pool : Pool) : Option Arrival :=
  match task with
  | change link child edit =>
    match takeOver link child pool with
    | .ok id pool => some ⟨pool, id, edit⟩
    | .error _ _ => none
  | _ => none

/-- Where the parts of tasks arrive, and those of the tasks that they lead to, in order. -/
def arrivalsOf (depth : Nat) (tasks : List EditTask) (pool : Pool) : List Arrival :=
  (Agenda.trace editStep (tasks.map (depth, ·)) pool).filterMap fun (task, pool) =>
    task.arrival? pool

/-- Where an edit arrives, its root first. An edit without bytes arrives nowhere. -/
def arrivals (pool : Pool) (root : NodeId) (edit : TextEdit) : List Arrival :=
  if edit.isEmpty then []
  else
    let applied := Event.appliedEdit edit.start.bytes edit.removed.bytes edit.added.bytes
    match (record applied >>= fun _ => makeUnique root) pool with
    | .error _ _ => []
    | .ok root started => ⟨started, root, edit⟩ ::
      match changeNode edit root started with
      | .error _ _ => []
      | .ok tasks changed => arrivalsOf changed.slots.size tasks changed

/-- No difference stops at zero where the part is carried into the node, and a node with children
hands the part on to them, one share each, in parts that take it apart. -/
structure Arrival.Sound (arrival : Arrival) : Prop where
  lossless : changeNodeBy Span.sub? arrival.edit arrival.id arrival.pool =
    changeNode arrival.edit arrival.id arrival.pool
  tally : ∀ node tasks after, arrival.pool.node? arrival.id = some node → node.isLeaf = false →
    changeNode arrival.edit arrival.id arrival.pool = .ok tasks after →
      ∃ shares, shares.length ≤ node.children.length ∧
        tasks = (tasksFrom arrival.id 0 node.children shares).reverse ++ [.summarize arrival.id] ∧
        Tally arrival.edit (Share.parts shares)

/-- A task that carries a part of an edit comes down to carrying it into the node where it
arrives. -/
theorem EditTask.step_of_arrival? {task : EditTask} {pool : Pool} {arrival : Arrival}
    (arrived : task.arrival? pool = some arrival) :
    editStep task pool = changeNode arrival.edit arrival.id arrival.pool := by
  cases task with
  | change link child edit =>
    rw [arrival?] at arrived
    split at arrived
    case h_1 id middle taken =>
      cases arrived
      rw [editStep_change, bind_of_ok taken]
    case h_2 => cases arrived
  | glance => cases arrived
  | summarize => cases arrived

/-! ## One node -/

section Node

variable {pool : Pool} {opened : Finset NodeId} {units : Multiset NodeId} {id : NodeId}
  {handle : Option NodeId} {info : NodeInfo} {ids : List NodeId} {trees : List Tree}
  {edit : TextEdit}

/-- A changed node leads to nothing if it is a leaf, and otherwise to the shares of its children. -/
theorem Opened.changeNode_cases (state : pool.Opened opened units id info ids trees)
    {tasks : List EditTask} {after : Pool} (ran : changeNode edit id pool = .ok tasks after) :
    ∃ info', after.Opened opened units id info' ids trees ∧ (ids = [] ∧ tasks = [] ∨
      ids ≠ [] ∧ ∃ oldEnd shares, edit.oldEnd? = some oldEnd ∧
        edit.shares? oldEnd .zero (trees.map Tree.lengths) = some shares ∧
        tasks = (tasksFrom id 0 ids shares).reverse ++ [.summarize id]) := by
  by_cases leaf : ids = []
  · subst leaf
    obtain rfl := List.forall₂_nil_left_iff.mp state.below
    obtain ⟨info', _, rfl, state', _⟩ := (state.changeNode_leaf edit).result ran
    exact ⟨info', state', .inl ⟨rfl, rfl⟩⟩
  · obtain ⟨⟨info', shares⟩, told, rfl, state', _⟩ := (state.changeNode_inner edit leaf).result ran
    obtain ⟨_, _, told⟩ := Option.bind_eq_some_iff.mp told
    obtain ⟨oldEnd, ends, told⟩ := Option.bind_eq_some_iff.mp told
    obtain ⟨_, drawn, told⟩ := Option.map_eq_some_iff.mp told
    cases told
    exact ⟨info', state', .inr ⟨leaf, oldEnd, shares, ends, drawn, rfl⟩⟩

theorem Opened.arrival_sound (state : pool.Opened opened units id info ids trees)
    (tallied : (Tree.node handle info trees).Tallied)
    (inside : edit.stopByte ≤ info.lengths.bytes) : Arrival.Sound ⟨pool, id, edit⟩ where
  lossless := changeNodeBy_sub state.found inside
  tally := by
    intro node tasks after found inner ran
    cases state.found.symm.trans found
    have someIds : ids ≠ [] := List.isEmpty_eq_false_iff.mp inner
    have someTrees : trees ≠ [] := by
      rintro rfl
      exact someIds (List.forall₂_nil_right_iff.mp state.below)
    obtain ⟨_, _, ⟨leaf, _⟩ | ⟨_, oldEnd, shares, ends, drawn, rfl⟩⟩ := state.changeNode_cases ran
    · exact absurd leaf someIds
    have ends := TextEdit.bytes_of_oldEnd? ends
    have le := TextEdit.shares?_length_le ends drawn
    rw [List.length_map, ← state.below.length_eq] at le
    refine ⟨shares, le, rfl, TextEdit.shares?_tally ends drawn ?_
      (.inl (mt List.map_eq_nil_iff.mp someTrees))⟩
    rw [List.length_map]
    exact Nat.le_trans inside (tallied.here someTrees ▸ Nat.le_add_left ..)

end Node

/-! ## Whole trees -/

section Arrivals

variable {pool : Pool} {depth : Nat} {arrival : Arrival}

@[simp] theorem arrivalsOf_nil (depth : Nat) (pool : Pool) : arrivalsOf depth [] pool = [] := by
  simp [arrivalsOf, Agenda.trace]

theorem mem_arrivalsOf_append {first second : List EditTask} :
    arrival ∈ arrivalsOf depth (first ++ second) pool ↔ arrival ∈ arrivalsOf depth first pool ∨
      ∃ after, carryOut depth first pool = .ok () after ∧
        arrival ∈ arrivalsOf depth second after := by
  simp only [arrivalsOf, List.map_append, Agenda.trace_append editStep .endless,
    List.filterMap_append, List.mem_append, carryOut]
  cases Agenda.run editStep .endless (first.map (depth, ·)) pool <;> simp

theorem mem_arrivalsOf_one {task : EditTask} :
    arrival ∈ arrivalsOf (depth + 1) [task] pool ↔ task.arrival? pool = some arrival ∨
      ∃ follow after, editStep task pool = .ok follow after ∧
        arrival ∈ arrivalsOf depth follow after := by
  simp only [arrivalsOf, List.map_singleton, Agenda.trace_one, List.mem_filterMap, List.mem_cons,
    or_and_right, exists_or, exists_eq_left]
  cases editStep task pool <;> simp

theorem not_mem_arrivalsOf_summarize {id : NodeId} :
    arrival ∉ arrivalsOf depth [.summarize id] pool := by
  simp only [arrivalsOf, List.map_singleton, Agenda.trace, List.mem_filterMap, List.mem_cons]
  rintro ⟨item, rfl | later, told⟩
  · cases told
  · cases stepped : editStep (.summarize id) pool with
    | error fault after =>
      rw [stepped] at later
      cases later
    | ok follow after =>
      obtain ⟨_, _, _, done⟩ := bind_eq_ok stepped
      cases done
      rw [stepped] at later
      simp at later

end Arrivals

section Sound

variable {pool : Pool} {opened : Finset NodeId} {units : Multiset NodeId} {id : NodeId}
  {handle : Option NodeId} {info : NodeInfo} {ids : List NodeId} {trees : List Tree}
  {edit : TextEdit} {depth : Nat}

/-- Whatever an open node asks of a child that shows the tree, within the tree, every part of it
arrives without a loss. -/
def ArrivesSound (tree : Tree) : Prop :=
  ∀ {pool : Pool} {opened : Finset NodeId} {units : Multiset NodeId} {child : NodeId}
    {parent : Node} {depth : Nat} (link : Link) (share : Share),
    pool.Owned (insert link.parent opened) (child ::ₘ units) → link.parent ∉ opened →
    pool.node? link.parent = some parent → parent.children[link.index]? = some child →
    pool.Shows child tree → tree.height ≤ depth → tree.Within (some share) →
    ∀ arrival ∈ arrivalsOf depth [taskOf link child share] pool, arrival.Sound

/-- The children of a node are done from the last to the first, each with its own share. -/
theorem arrivalsOf_tasksFrom_sound {before : List NodeId}
    (pending : pool.Pending opened units id info before ids trees) (shares : List Share)
    (shallow : ∀ tree ∈ trees, tree.height ≤ depth)
    (within : ∀ (index : Nat) (tree : Tree), trees[index]? = some tree →
      tree.Within shares[index]?)
    (each : ∀ tree ∈ trees, ArrivesSound tree) :
    ∀ arrival ∈ arrivalsOf depth (tasksFrom id before.length ids shares).reverse pool,
      arrival.Sound := by
  induction trees generalizing before shares units ids with
  | nil =>
    obtain rfl := List.forall₂_nil_right_iff.mp pending.below
    rw [tasksFrom]
    · simp
    · simp
  | cons tree trees ih =>
    obtain ⟨child, rest, shows, below', rfl⟩ := List.forall₂_cons_right_iff.mp pending.below
    have shallow' : ∀ tree ∈ trees, tree.height ≤ depth := fun tree member =>
      shallow tree (List.mem_cons_of_mem _ member)
    cases shares with
    | nil =>
      rw [tasksFrom]
      · simp
      · simp
    | cons share shares =>
      intro arrival member
      rw [tasksFrom, List.reverse_cons, mem_arrivalsOf_append] at member
      have length : (before ++ [child]).length = before.length + 1 := by simp
      rw [← length] at member
      obtain later | ⟨middle, ran, last⟩ := member
      · exact ih pending.later shares shallow' (fun index => within (index + 1))
          (fun tree member => each tree (List.mem_cons_of_mem _ member)) arrival later
      -- The children after this one are done by now, and have left it and its parent to it.
      · have done := computes_tasksFrom pending.later shares (fun tree _ => carried tree) shallow'
        obtain ⟨trees', _, ids', pending', spares⟩ := done.result ran
        obtain ⟨owned', place⟩ := pending'.last
        exact each tree List.mem_cons_self ⟨id, before.length⟩ share owned' pending'.unopened
          pending'.found place (spares.kept.shows (Multiset.mem_cons_self ..) shows)
          (shallow tree List.mem_cons_self) (within 0 tree rfl) arrival last

theorem Opened.follow_sound (state : pool.Opened opened units id info ids trees)
    {tasks : List EditTask} {after : Pool}
    (ran : changeNode edit id pool = .ok tasks after)
    (shallow : ∀ tree ∈ trees, tree.height ≤ depth) (each : ∀ tree ∈ trees, ArrivesSound tree) :
    ∀ arrival ∈ arrivalsOf depth tasks after, arrival.Sound := by
  obtain ⟨info', state', ⟨_, rfl⟩ | ⟨_, oldEnd, shares, ends, drawn, rfl⟩⟩ :=
    state.changeNode_cases ran
  · simp
  · intro arrival member
    obtain below | ⟨_, _, last⟩ := mem_arrivalsOf_append.mp member
    · refine arrivalsOf_tasksFrom_sound state'.pending shares shallow (fun index tree found => ?_)
        each arrival below
      exact fun part same => (same ▸ Tree.asked_of_shares? ends drawn found).part_inside
    · exact absurd last not_mem_arrivalsOf_summarize

theorem arrivesSound {tree : Tree} (tallied : tree.Tallied) : ArrivesSound tree := by
  induction tree with
  | node handle info trees ih =>
    intro pool opened units child parent depth link share owned unopened parentFound place shows
      deep within arrival member
    obtain ⟨_, ids, found, below⟩ := shows_iff.mp shows
    obtain ⟨depth, rfl, shallow⟩ := Tree.exists_depth_below deep
    have each : ∀ tree ∈ trees, ArrivesSound tree := fun tree member =>
      ih tree member (tallied.of_mem member)
    obtain arrived | ⟨follow, after, stepped, later⟩ := mem_arrivalsOf_one.mp member
    · cases share with
      | glance offset => cases arrived
      | part edit =>
        simp only [taskOf, EditTask.arrival?] at arrived
        split at arrived
        case h_1 id middle taken =>
          cases arrived
          obtain ⟨_, _, _, state, _⟩ :=
            (owned.takeOver unopened parentFound shows).result taken
          exact state.arrival_sound tallied (within edit rfl)
        case h_2 => cases arrived
    · cases share with
      | part edit =>
        rw [taskOf, editStep_change] at stepped
        obtain ⟨id, middle, taken, changed⟩ := bind_eq_ok stepped
        obtain ⟨_, _, _, state, _⟩ := (owned.takeOver unopened parentFound shows).result taken
        exact state.follow_sound changed shallow each arrival later
      | glance offset =>
        rw [taskOf, editStep_glance, bind_of_ok (query_node found)] at stepped
        split at stepped
        case isTrue past =>
          cases stepped
          rw [arrivalsOf_nil] at later
          cases later
        case isFalse reached =>
          obtain ⟨id, middle, taken, flagged⟩ := bind_eq_ok stepped
          obtain ⟨_, _, ids', state, _⟩ := (owned.takeOver unopened parentFound shows).result taken
          obtain ⟨shares, drawn, rfl, state', _⟩ := (state.flagNode offset).result flagged
          refine arrivalsOf_tasksFrom_sound state'.pending shares shallow
            (fun index tree _ part asked => ?_) each arrival later
          obtain ⟨_, glances⟩ := Tree.eq_glance_of_mem drawn (List.mem_of_getElem? asked)
          cases glances

/-! ## Whole edits -/

theorem Owned.arrivals_sound {root : NodeId} {tree : Tree} (owned : pool.Owned ∅ (root ::ₘ units))
    (shows : pool.Shows root tree) (tallied : tree.Tallied)
    (inside : edit.stopByte ≤ tree.lengths.bytes) :
    ∀ arrival ∈ pool.arrivals root edit, arrival.Sound := by
  intro arrival member
  unfold arrivals at member
  split at member
  case isTrue => cases member
  case isFalse =>
    dsimp only at member
    split at member
    case h_1 => cases member
    case h_2 id started begun =>
      obtain ⟨_, noted, recorded, unique⟩ := bind_eq_ok begun
      obtain ⟨noted', recorded', owned', nodes⟩ := owned.record
        (.appliedEdit edit.start.bytes edit.removed.bytes edit.added.bytes)
      cases recorded.symm.trans recorded'
      obtain ⟨handle, info, trees⟩ := tree
      have shows' := shows.transfer fun other _ => nodes other
      obtain ⟨_, _, ids, state, _⟩ := (owned'.makesOpen shows').result unique
      obtain rfl | later := List.mem_cons.mp member
      · exact state.arrival_sound tallied inside
      · split at later
        case h_1 => cases later
        case h_2 tasks changed ran =>
          obtain ⟨info', state', _⟩ := state.changeNode_cases ran
          exact state.follow_sound ran (fun _ => state'.height_le)
            (fun tree member => arrivesSound (tallied.of_mem member)) arrival later

/-- An edit that has been carried out was empty and left the tree, or it was noted and then applied. -/
theorem edit_eq_ok {root edited : NodeId} {after : Pool}
    (ran : Pool.edit root edit pool = .ok (.ok edited) after) :
    edit.isEmpty = true ∧ edited = root ∧
        record (.skippedEdit edit.start.bytes) pool = .ok () after ∨
      edit.isEmpty = false ∧ ∃ noted,
        record (.appliedEdit edit.start.bytes edit.removed.bytes edit.added.bytes) pool =
          .ok () noted ∧ applyEdit root edit noted = .ok edited after := by
  unfold Pool.edit editBy at ran
  cases ends : edit.ends with
  | error refusal =>
    rw [ends] at ran
    cases ran
  | ok bounds =>
    rw [ends] at ran
    obtain ⟨node, _, ran⟩ := bind_query_eq_ok ran
    obtain ⟨total, _, ran⟩ := bind_sum_eq_ok ran
    cases approved : edit.approve bounds.1 bounds.2 total with
    | error refusal =>
      rw [approved] at ran
      cases ran
    | ok =>
      rw [approved] at ran
      cases isEmpty : edit.isEmpty with
      | true =>
        have ran := (congrFun (if_pos isEmpty) _).symm.trans ran
        obtain ⟨_, noted, recorded, finished⟩ := bind_eq_ok ran
        cases finished
        exact .inl ⟨rfl, rfl, recorded⟩
      | false =>
        have ran := (congrFun (if_neg (Bool.not_eq_true _ ▸ isEmpty)) _).symm.trans ran
        obtain ⟨_, noted, recorded, ran⟩ := bind_eq_ok ran
        obtain ⟨root', last, applied, finished⟩ := bind_eq_ok ran
        cases finished
        exact .inr ⟨rfl, noted, recorded, applied⟩

/-- Every part that arrives is carried into its node, in an edit that is carried out. -/
theorem exists_tasks_of_mem_arrivals {root edited : NodeId} {after : Pool}
    (ran : Pool.edit root edit pool = .ok (.ok edited) after) {arrival : Arrival}
    (member : arrival ∈ pool.arrivals root edit) : ∃ tasks last,
      changeNode arrival.edit arrival.id arrival.pool = .ok tasks last := by
  unfold arrivals at member
  split at member
  case isTrue => cases member
  case isFalse inhabited =>
    obtain ⟨isEmpty, _⟩ | ⟨_, noted, recorded, applied⟩ := edit_eq_ok ran
    · exact absurd isEmpty inhabited
    · dsimp only at member
      rw [bind_of_ok recorded] at member
      obtain ⟨id, started, unique, applied⟩ := bind_eq_ok applied
      obtain ⟨tasks, changed, changes, applied⟩ := bind_eq_ok applied
      obtain ⟨_, _, read, applied⟩ := bind_eq_ok applied
      cases read
      obtain ⟨_, last, ran, _⟩ := bind_eq_ok applied
      rw [unique] at member
      dsimp only at member
      rw [changes] at member
      obtain rfl | later := List.mem_cons.mp member
      · exact ⟨tasks, changed, changes⟩
      · obtain ⟨⟨task, pool⟩, done, arrived⟩ := List.mem_filterMap.mp later
        obtain ⟨follow, after, stepped⟩ := Agenda.exists_step_of_mem_trace ran done
        exact ⟨follow, after, EditTask.step_of_arrival? arrived ▸ stepped⟩

end Sound

end SyntaxForest.Pool
