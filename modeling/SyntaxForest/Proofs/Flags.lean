import SyntaxForest.Proofs.Edit.Refinement
import SyntaxForest.Proofs.Measured
import SyntaxForest.Proofs.Tree.Flags

/-! # What an edit flags in a session

As long as callers write lengths only where no parent can fall out with them, the flags of an edited
tree tell where its text has to be read again: every place that was read past the start of the edit
is flagged, and so is every place inside the removed text but for those at the very end of a tree
above them.
-/

namespace SyntaxForest.Session

open SyntaxForest.Tree

variable {session : Session} {root edited : NodeId} {tree : Tree} {edit : TextEdit} {after : Pool}

/-! ## A tree to try edits on -/

/-- What a token is, or a node over tokens, on one row. -/
def plainInfo (bytes scanned : Word) : NodeInfo :=
  { NodeInfo.blank with lengths := ⟨.zero, ⟨bytes, ⟨0, bytes⟩⟩, scanned⟩ }

/-- Two tokens of five bytes. The first is grouped with an empty token after it, for which three
bytes of the second were read. -/
def groupedTree : Tree :=
  .node none (plainInfo 10 10)
    [.node none (plainInfo 5 8)
      [.node none (plainInfo 5 5) [], .node none (plainInfo 0 3) []],
     .node none (plainInfo 5 5) []]

def grouped : Session where
  pool :=
    { slots := #[⟨0, 1, ⟨plainInfo 5 5, []⟩⟩, ⟨0, 1, ⟨plainInfo 0 3, []⟩⟩,
        ⟨0, 1, ⟨plainInfo 5 5, []⟩⟩, ⟨0, 1, ⟨plainInfo 5 8, [⟨0, 0⟩, ⟨1, 0⟩]⟩⟩,
        ⟨0, 1, ⟨plainInfo 10 10, [⟨3, 0⟩, ⟨2, 0⟩]⟩⟩]
      free := [], journal := #[], sizing := .standard }
  held := {⟨4, 0⟩}

theorem reached_grouped : Reached WritesLeaves grouped := by
  have first : Reached WritesLeaves _ := .step
    (.makeLeaf .empty .endOfInput .zero ⟨5, ⟨0, 5⟩⟩) (.start .standard) trivial rfl
  have empty := first.step (.makeLeaf .empty .endOfInput .zero .zero) trivial rfl
  have written := empty.step
    (.amend ⟨1, 0⟩ fun info => { info with lengths := { info.lengths with scanned := 3 } })
    (by rintro node found; cases found; exact .inr ⟨rfl, rfl, by decide⟩) rfl
  have second := written.step (.makeLeaf .empty .endOfInput .zero ⟨5, ⟨0, 5⟩⟩) trivial rfl
  have group := second.step (.makeNode .empty .endOfInput [⟨0, 0⟩, ⟨1, 0⟩]) trivial rfl
  have root := group.step (.makeNode .empty .endOfInput [⟨3, 0⟩, ⟨2, 0⟩]) trivial rfl
  exact root

theorem grouped_shows : grouped.pool.Shows ⟨4, 0⟩ groupedTree := by
  have token {id : NodeId} {info : NodeInfo} (found : grouped.pool.node? id = some ⟨info, []⟩) :
      grouped.pool.Shows id (.node none info []) :=
    Pool.shows_iff.mpr ⟨by simp, [], found, .nil⟩
  have group : grouped.pool.Shows ⟨3, 0⟩ (.node none (plainInfo 5 8) _) :=
    Pool.shows_iff.mpr ⟨by simp, [⟨0, 0⟩, ⟨1, 0⟩], rfl, .cons (token rfl) (.cons (token rfl) .nil)⟩
  exact Pool.shows_iff.mpr ⟨by simp, [⟨3, 0⟩, ⟨2, 0⟩], rfl, .cons group (.cons (token rfl) .nil)⟩

/-! ## Flags -/

/-- Every place that starts no later than the edit and was read past its start is flagged, and no
flag is taken back. -/
theorem Reached.edit_flags_read (reached : Reached WritesLeaves session)
    (held : root ∈ session.held) (shows : session.pool.Shows root tree)
    (changes : edit.isEmpty = false)
    (ran : Pool.edit root edit session.pool = .ok (.ok edited) after) :
    ∃ tree', after.Shows edited tree' ∧ ∀ path place, tree.at? path = some place →
      ∃ place', tree'.at? path = some place' ∧
        (place.start ≤ edit.startByte → edit.startByte < place.read → place'.changed = true) ∧
          (place.changed = true → place'.changed = true) := by
  obtain ⟨tree', revised, settled⟩ := reached.revise?_of_edit held shows ran
  obtain ⟨_, ⟨isEmpty, _⟩ | ⟨_, carried⟩⟩ := Tree.revise?_ok revised
  · exact (Bool.eq_false_iff.mp changes isEmpty).elim
  have measured := reached.pool_measured.shows shows
  refine ⟨tree', settled.shows, fun path place found => ?_⟩
  have answers : tree.answer? (some (.part edit)) = some tree' := carried
  obtain ⟨place', found', kept⟩ := exists_place_of_answer? answers found
  refine ⟨place', found', fun near reads => ?_, kept⟩
  obtain ⟨again, found'', flagged⟩ := measured.flags_read carried found near reads
  cases found'.symm.trans found''
  exact flagged

/-- Text is put into the second token, where it was read for the empty one. -/
theorem edit_flags_read_of_grouped : ∃ edited after tree' place',
    Pool.edit ⟨4, 0⟩ ⟨⟨6, ⟨0, 6⟩⟩, .zero, ⟨1, ⟨0, 1⟩⟩⟩ grouped.pool = .ok (.ok edited) after ∧
      after.Shows edited tree' ∧ tree'.at? [0, 1] = some place' ∧ place'.changed = true := by
  have accepted : grouped.pool.carriesOut ⟨4, 0⟩ ⟨⟨6, ⟨0, 6⟩⟩, .zero, ⟨1, ⟨0, 1⟩⟩⟩ = true := by
    rw [Pool.carriesOut, Pool.edit_eq_descendEdit]
    decide +kernel
  obtain ⟨edited, after, ran⟩ := Pool.carriesOut_iff.mp accepted
  obtain ⟨tree', shows, each⟩ :=
    reached_grouped.edit_flags_read (by decide) grouped_shows rfl ran
  obtain ⟨place', found, flagged, _⟩ := each [0, 1] _ rfl
  exact ⟨edited, after, tree', place', ran, shows, found, flagged (by decide) (by decide)⟩

/-- A place that starts inside the removed text, and was read at all, is flagged if and only if it
was before or no tree above it has text and ends where it starts. -/
theorem Reached.edit_flags_inside_iff (reached : Reached WritesLeaves session)
    (held : root ∈ session.held) (shows : session.pool.Shows root tree)
    (ran : Pool.edit root edit session.pool = .ok (.ok edited) after) :
    ∃ tree', after.Shows edited tree' ∧ ∀ path place, tree.at? path = some place →
      edit.startByte < place.start → place.start < edit.stopByte → place.start < place.read →
        ∃ place', tree'.at? path = some place' ∧ (place'.changed = true ↔
          place.changed = true ∨ ¬ tree.EndsAbove path place.start) := by
  obtain ⟨tree', revised, settled⟩ := reached.revise?_of_edit held shows ran
  have measured := reached.pool_measured.shows shows
  refine ⟨tree', settled.shows, fun path place found later before reads => ?_⟩
  obtain ⟨fits, ⟨isEmpty, _⟩ | ⟨_, carried⟩⟩ := Tree.revise?_ok revised
  · have none : edit.removed.bytes.toNat = 0 := by
      rw [TextEdit.isEmpty, Bool.and_eq_true] at isEmpty
      exact congrArg UInt32.toNat (of_decide_eq_true isEmpty.1)
    simp only [TextEdit.startByte, TextEdit.stopByte] at later before
    omega
  · exact measured.flags_inside_iff carried (Nat.min_eq_left fits.inside).symm found (.inl later)
      before reads

/-- The last three bytes of the first token and the first three of the second are removed. The
second token is flagged, for the tree above it goes on. -/
theorem edit_flags_inside_of_grouped : ∃ edited after tree' place',
    Pool.edit ⟨4, 0⟩ ⟨⟨2, ⟨0, 2⟩⟩, ⟨6, ⟨0, 6⟩⟩, .zero⟩ grouped.pool = .ok (.ok edited) after ∧
      after.Shows edited tree' ∧ tree'.at? [1] = some place' ∧ place'.changed = true := by
  have accepted : grouped.pool.carriesOut ⟨4, 0⟩ ⟨⟨2, ⟨0, 2⟩⟩, ⟨6, ⟨0, 6⟩⟩, .zero⟩ = true := by
    rw [Pool.carriesOut, Pool.edit_eq_descendEdit]
    decide +kernel
  obtain ⟨edited, after, ran⟩ := Pool.carriesOut_iff.mp accepted
  obtain ⟨tree', shows, each⟩ :=
    reached_grouped.edit_flags_inside_iff (by decide) grouped_shows ran
  obtain ⟨place', found, flagged⟩ := each [1] _ rfl (by decide) (by decide) (by decide)
  refine ⟨edited, after, tree', place', ran, shows, found, flagged.mpr (.inr fun ends => ?_)⟩
  rcases (Tree.endsAbove_cons_iff rfl).mp ends with ⟨_, stop⟩ | ends
  · exact absurd stop (by decide)
  · exact not_endsAbove_nil _ ends

/-- The same removal misses the empty token between the two, which starts at the fifth byte and was
read up to the eighth. -/
theorem edit_misses_empty_of_grouped : Reached WritesLeaves grouped ∧ ⟨4, 0⟩ ∈ grouped.held ∧
    grouped.pool.Shows ⟨4, 0⟩ groupedTree ∧ ∃ edited after tree' place place',
      Pool.edit ⟨4, 0⟩ ⟨⟨2, ⟨0, 2⟩⟩, ⟨6, ⟨0, 6⟩⟩, .zero⟩ grouped.pool = .ok (.ok edited) after ∧
        after.Shows edited tree' ∧ groupedTree.at? [0, 1] = some place ∧
          (place.start = 5 ∧ place.read = 8) ∧ tree'.at? [0, 1] = some place' ∧
            place'.changed = false := by
  have accepted : grouped.pool.carriesOut ⟨4, 0⟩ ⟨⟨2, ⟨0, 2⟩⟩, ⟨6, ⟨0, 6⟩⟩, .zero⟩ = true := by
    rw [Pool.carriesOut, Pool.edit_eq_descendEdit]
    decide +kernel
  obtain ⟨edited, after, ran⟩ := Pool.carriesOut_iff.mp accepted
  obtain ⟨tree', revised, settled⟩ :=
    reached_grouped.revise?_of_edit (by decide) grouped_shows ran
  have missed : ((groupedTree.revise? ⟨⟨2, ⟨0, 2⟩⟩, ⟨6, ⟨0, 6⟩⟩, .zero⟩).map fun answer =>
      answer.toOption.map fun tree => (tree.at? [0, 1]).map (·.changed)) =
        some (some (some false)) := by decide +kernel
  rw [revised, Option.map_some, Except.toOption, Option.map_some, Option.some.injEq,
    Option.some.injEq] at missed
  obtain ⟨place', found, unflagged⟩ := Option.map_eq_some_iff.mp missed
  exact ⟨reached_grouped, by decide, grouped_shows, edited, after, tree', _, place', ran,
    settled.shows, rfl, ⟨rfl, rfl⟩, found, unflagged⟩

end SyntaxForest.Session
