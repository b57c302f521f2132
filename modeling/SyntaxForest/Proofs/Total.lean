import SyntaxForest.Proofs.Apart
import SyntaxForest.Proofs.Edit.Arrivals
import SyntaxForest.Proofs.Edit.Refinement
import SyntaxForest.Proofs.Tallied
import SyntaxForest.Proofs.Tree.Moves

/-! # The bytes that an edit takes and gives

A tree whose bytes add up has, after an edit, as many bytes as it had, without those removed and with
those added. Wherever a part of the edit arrives on the way, it is carried on without a byte lost.
-/

namespace SyntaxForest

namespace Pool

/-- The number of bytes that a tree covers. -/
def totalBytes? (pool : Pool) (id : NodeId) : Option Word :=
  (pool.lengths? id).bind Lengths.totalBytes?

/-- The total of a handle is that of the tree it shows, where that can be numbered. -/
theorem Shows.totalBytes? {pool : Pool} {id : NodeId} {tree : Tree} (shows : pool.Shows id tree)
    (fits : tree.lengths.bytes < UInt32.size) :
    ∃ total, pool.totalBytes? id = some total ∧ total.toNat = tree.lengths.bytes := by
  obtain ⟨ids, found, _⟩ := shows.node?
  obtain ⟨total, sum⟩ := Word.exists_add? fits
  refine ⟨total, ?_, (Word.add?_eq_some_iff.mp sum).symm⟩
  rw [Pool.totalBytes?, Pool.lengths?, found]
  exact sum

end Pool

namespace Tree

variable {tree edited : Tree} {edit : TextEdit}

theorem Tallied.revise? (tallied : tree.Tallied) (revised : tree.revise? edit = some (.ok edited)) :
    edited.lengths.bytes + edit.removed.bytes.toNat =
      tree.lengths.bytes + edit.added.bytes.toNat := by
  obtain ⟨fits, ⟨isEmpty, rfl⟩ | ⟨_, carried⟩⟩ := revise?_ok revised
  · obtain ⟨removed, added⟩ := TextEdit.isEmpty_iff.mp isEmpty
    change _ + edit.cut.removed = _ + edit.cut.added
    rw [removed, added]
  · have answers : tree.answer? (some (.part edit)) = some edited := carried
    refine tallied.grows answers fun part same => ?_
    cases same
    exact fits.inside

end Tree

namespace Session

variable {allowed : Session → Call → Prop} {session : Session}

/-- An edit of a tree whose bytes add up takes away what it removes and puts in what it adds. So does
every part of it that arrives at a node: no difference stops at zero there, and a node with children
hands it on to them, one share each, in parts that remove as much together and of which one alone
adds what it adds. -/
theorem Reached.edit_tallies (reached : Reached allowed session) {root : NodeId}
    (held : root ∈ session.held)
    (tallied : ∀ id, session.pool.Reaches root id → session.pool.TalliedAt id) {edit : TextEdit}
    {edited : NodeId} {after : Pool}
    (ran : Pool.edit root edit session.pool = .ok (.ok edited) after) :
    (∃ before later, session.pool.totalBytes? root = some before ∧
      after.totalBytes? edited = some later ∧
      later.toNat + edit.removed.bytes.toNat = before.toNat + edit.added.bytes.toNat) ∧
    ∀ arrival ∈ session.pool.arrivals root edit, ∃ tasks last,
      Pool.changeNode arrival.edit arrival.id arrival.pool = .ok tasks last ∧
      Pool.changeNodeBy Span.sub? arrival.edit arrival.id arrival.pool = .ok tasks last ∧
      ∀ node, arrival.pool.node? arrival.id = some node → node.isLeaf = false →
        ∃ shares, shares.length ≤ node.children.length ∧ tasks =
          (Pool.tasksFrom arrival.id 0 node.children shares).reverse ++ [.summarize arrival.id] ∧
          Tally arrival.edit (Share.parts shares) := by
  obtain ⟨tree, shows⟩ := reached.owned.exists_shows held
  have tallied := shows.tallied tallied
  obtain ⟨tree', revised, settled⟩ := reached.revise?_of_edit held shows ran
  have total := tallied.revise? revised
  obtain ⟨fits, _⟩ := Tree.revise?_ok revised
  constructor
  · obtain ⟨before, read, bytes⟩ := shows.totalBytes? fits.before
    obtain ⟨later, read', bytes'⟩ := settled.shows.totalBytes? (by
      have := fits.after
      have := fits.inside
      simp only [TextEdit.stopByte] at *
      omega)
    exact ⟨before, later, read, read', by rw [bytes, bytes', total]⟩
  · intro arrival member
    have owned := reached.owned
    rw [← Multiset.cons_erase held] at owned
    obtain ⟨lossless, tally⟩ := owned.arrivals_sound shows tallied fits.inside arrival member
    obtain ⟨tasks, last, changed⟩ := Pool.exists_tasks_of_mem_arrivals ran member
    exact ⟨tasks, last, changed, lossless.trans changed, fun node found inner =>
      tally node tasks last found inner changed⟩

/-- Two bytes are replaced by one across the end of the first token: one byte goes from each, and the
first takes what is put in. -/
theorem edit_tallies_of_paired : ∃ edited after,
    Pool.edit ⟨2, 0⟩ ⟨⟨2, ⟨0, 2⟩⟩, ⟨2, ⟨0, 2⟩⟩, ⟨1, ⟨0, 1⟩⟩⟩ paired.pool = .ok (.ok edited) after ∧
      (∃ before later, paired.pool.totalBytes? ⟨2, 0⟩ = some before ∧
        after.totalBytes? edited = some later ∧ later.toNat + 2 = before.toNat + 1) ∧
      (paired.pool.arrivals ⟨2, 0⟩ ⟨⟨2, ⟨0, 2⟩⟩, ⟨2, ⟨0, 2⟩⟩, ⟨1, ⟨0, 1⟩⟩⟩).length = 3 ∧
      ∀ arrival ∈ paired.pool.arrivals ⟨2, 0⟩ ⟨⟨2, ⟨0, 2⟩⟩, ⟨2, ⟨0, 2⟩⟩, ⟨1, ⟨0, 1⟩⟩⟩, ∃ tasks last,
        Pool.changeNode arrival.edit arrival.id arrival.pool = .ok tasks last ∧
        Pool.changeNodeBy Span.sub? arrival.edit arrival.id arrival.pool = .ok tasks last ∧
        ∀ node, arrival.pool.node? arrival.id = some node → node.isLeaf = false →
          ∃ shares, shares.length ≤ node.children.length ∧ tasks =
            (Pool.tasksFrom arrival.id 0 node.children shares).reverse ++ [.summarize arrival.id] ∧
            Tally arrival.edit (Share.parts shares) := by
  have accepted : paired.pool.carriesOut ⟨2, 0⟩
      ⟨⟨2, ⟨0, 2⟩⟩, ⟨2, ⟨0, 2⟩⟩, ⟨1, ⟨0, 1⟩⟩⟩ = true := by
    rw [Pool.carriesOut, Pool.edit_eq_descendEdit]
    decide +kernel
  obtain ⟨edited, after, ran⟩ := Pool.carriesOut_iff.mp accepted
  have held : ⟨2, 0⟩ ∈ paired.held := by decide
  have owned := reached_paired.owned
  obtain ⟨total, parts⟩ := reached_paired.edit_tallies held
    (fun id reaches => (reached_paired.pool_measured id
      (owned.of_reaches (owned.of_unit held) reaches).1).talliedAt) ran
  refine ⟨edited, after, ran, total, ?_, parts⟩
  simp only [Pool.arrivals, Pool.arrivalsOf, Agenda.trace_eq_noted _ Fault.endless,
    Agenda.run_eq_forM]
  decide +kernel

end Session

end SyntaxForest
