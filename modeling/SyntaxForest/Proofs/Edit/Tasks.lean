import SyntaxForest.Proofs.Pool.Gather
import SyntaxForest.Proofs.Tree.Edit

/-! # The tasks of an edit

An edit draws up its tasks from the lengths of the children of a node, which are those of the trees
that they show. The agenda of an edit is an action of its own, which may be cut between two tasks.
-/

namespace SyntaxForest

theorem checked_bind_map {α β γ : Type} {value : Option α} {next : α → Except Fault γ}
    {more : α → Option β} {draw : β → γ}
    (each : ∀ result, next result = checked ((more result).map draw)) :
    (checked value >>= next) = checked ((value.bind more).map draw) := by
  cases value with
  | none => rfl
  | some result => exact each result

namespace Pool

/-- The tasks for children with these shares, from the index on. -/
def tasksFrom (parent : NodeId) (index : Nat) : List NodeId → List Share → List EditTask
  | child :: children, share :: shares =>
    taskOf ⟨parent, index⟩ child share :: tasksFrom parent (index + 1) children shares
  | _, _ => []

/-- A task is put before those that are done already. -/
theorem map_tasksFrom_cons {parent id : NodeId} {index : Nat} {ids : List NodeId}
    {done : List EditTask} (share : Share) (shares : Option (List Share)) :
    (shares.map fun shares => (tasksFrom parent (index + 1) ids shares).reverse ++
      taskOf ⟨parent, index⟩ id share :: done) =
      (shares.bind fun shares => some (share :: shares)).map fun shares =>
        (tasksFrom parent index (id :: ids) shares).reverse ++ done := by
  cases shares with
  | none => rfl
  | some shares => simp [tasksFrom]

section Reading

variable {pool : Pool} {id : NodeId} {ids : List NodeId} {tree : Tree} {trees : List Tree}

theorem shareOut_after_of_shows {parent : NodeId} {edit : TextEdit} {oldEnd owed edge : Span}
    {index : Nat} {done : List EditTask} (all : List.Forall₂ pool.Shows ids trees) :
    pool.shareOut parent edit oldEnd ⟨edge, some owed⟩ index done ids =
      checked ((edit.sharesAfter? owed edge (trees.map Tree.lengths)).map fun shares =>
        (tasksFrom parent index ids shares).reverse ++ done) := by
  induction all generalizing owed edge index done with
  | nil => rfl
  | @cons id tree ids trees shows _ ih =>
    obtain ⟨below, found⟩ := shows.node
    rw [shareOut, found, List.map_cons, TextEdit.sharesAfter?]
    refine checked_bind_map fun total => checked_bind_map fun right => ?_
    rw [Split.next?]
    by_cases settled : owed.isEmpty
    · by_cases near : edge.bytes ≤ edit.start.bytes
      · simp only [if_pos settled, if_pos near, ih]
        exact congrArg checked (map_tasksFrom_cons _ _)
      · simp only [if_pos settled, if_neg near]
        rfl
    · simp only [if_neg settled, ih]
      exact congrArg checked (map_tasksFrom_cons _ _)

theorem shareOut_of_shows {parent : NodeId} {edit : TextEdit} {oldEnd edge : Span}
    {index : Nat} {done : List EditTask} (all : List.Forall₂ pool.Shows ids trees) :
    pool.shareOut parent edit oldEnd ⟨edge, none⟩ index done ids =
      checked ((edit.shares? oldEnd edge (trees.map Tree.lengths)).map fun shares =>
        (tasksFrom parent index ids shares).reverse ++ done) := by
  induction all generalizing edge index done with
  | nil => rfl
  | @cons id tree ids trees shows rest ih =>
    obtain ⟨below, found⟩ := shows.node
    rw [shareOut, found, List.map_cons, TextEdit.shares?]
    refine checked_bind_map fun total => checked_bind_map fun right => ?_
    rw [Split.next?]
    by_cases passed : right.bytes < edit.start.bytes
    · simp only [if_pos passed, if_neg (UInt32.not_le.mpr passed), ih]
      exact congrArg checked (map_tasksFrom_cons _ _)
    · simp only [if_neg passed, if_pos (UInt32.not_lt.mp passed)]
      by_cases beyond : right.bytes < oldEnd.bytes
      · simp only [if_pos beyond, shareOut_after_of_shows rest]
        exact congrArg checked (map_tasksFrom_cons _ _)
      · simp only [if_neg beyond, shareOut_after_of_shows rest]
        exact congrArg checked (map_tasksFrom_cons _ _)

theorem glanceBack_of_shows {parent : NodeId} {offset start : Word} {index : Nat}
    {done : List EditTask} (all : List.Forall₂ pool.Shows ids trees) :
    pool.glanceBack parent offset start index done ids =
      checked ((glances? offset start (trees.map Tree.lengths)).map fun shares =>
        (tasksFrom parent index ids shares).reverse ++ done) := by
  induction all generalizing start index done with
  | nil => rfl
  | @cons id tree ids trees shows _ ih =>
    obtain ⟨below, found⟩ := shows.node
    rw [glanceBack, found, List.map_cons, glances?]
    split
    case isTrue => rfl
    case isFalse =>
      refine checked_bind_map fun bytes => checked_bind_map fun next => ?_
      rw [ih]
      exact congrArg checked (map_tasksFrom_cons (.glance (offset - start)) _)

end Reading

/-! ## The agenda of an edit -/

/-- Does the tasks in order, with all that they lead to. -/
def carryOut (depth : Nat) (tasks : List EditTask) : PoolM Unit :=
  Agenda.run editStep .endless (tasks.map (depth, ·))

theorem carryOut_nil (depth : Nat) : carryOut depth [] = pure () := by
  funext pool
  rw [carryOut, List.map_nil, Agenda.run]
  rfl

theorem carryOut_append (depth : Nat) (first second : List EditTask) :
    carryOut depth (first ++ second) = carryOut depth first >>= fun _ => carryOut depth second := by
  funext pool
  simp only [carryOut, List.map_append, Agenda.run_append, bind, EStateM.bind]
  cases Agenda.run editStep .endless (first.map (depth, ·)) pool <;> rfl

/-- What a task leads to may go one level less deep. -/
theorem carryOut_one (depth : Nat) (task : EditTask) :
    carryOut (depth + 1) [task] = editStep task >>= carryOut depth := by
  funext pool
  rw [carryOut, List.map_singleton, Agenda.run_one]
  simp only [bind, EStateM.bind]
  cases editStep task pool <;> rfl

/-- A task that leads to none needs no depth. -/
theorem carryOut_summarize (depth : Nat) (id : NodeId) :
    carryOut depth [.summarize id] = summarize id := by
  funext pool
  rw [carryOut, List.map_singleton, Agenda.run]
  simp only [editStep, bind, EStateM.bind]
  cases summarize id pool with
  | error fault after => rfl
  | ok follow after => simp only [pure, EStateM.pure, Agenda.run]

/-! ## Edits by recursion -/

/-- Carries an edit into a tree by recursion on the depth that its tasks may lead to. -/
def descendEdit (depth : Pool → Nat) (root : NodeId) (edit : TextEdit) : PoolM NodeId := do
  let root ← makeUnique root
  let tasks ← changeNode edit root
  let pool ← get
  tasks.forM (Agenda.descend editStep .endless (depth pool))
  return root

theorem applyEditWithin_eq_descendEdit : applyEditWithin = descendEdit := by
  funext depth root edit
  simp only [applyEditWithin, descendEdit, Agenda.run_eq_forM]

/-- An edit on a fixed pool can be evaluated in this form. -/
theorem edit_eq_descendEdit (root : NodeId) (edit : TextEdit) :
    Pool.edit root edit = editBy (descendEdit (·.slots.size)) root edit := by
  rw [← applyEditWithin_eq_descendEdit]
  rfl

end Pool

end SyntaxForest
