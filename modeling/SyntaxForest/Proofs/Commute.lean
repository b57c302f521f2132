import SyntaxForest.Proofs.Apart
import SyntaxForest.Proofs.Outline
import SyntaxForest.Proofs.Tallied
import SyntaxForest.Proofs.Tree.Commute

/-! # Edits in either order

A caller with two units of a tree may carry two edits into it in either order. If they do not touch,
and the later one is moved along with its text where the earlier one comes first, the trees that
come out compare equal.
-/

namespace SyntaxForest.Session

open SyntaxForest.Tree

variable {allowed : Session → Call → Prop} {session : Session}

/-- Two edits with text between them, of which the later one is told where it comes to lie after the
earlier one where that comes first, make trees that compare equal in either order. Rows and columns
may be told as one likes each time. -/
theorem Reached.edits_commute (reached : Reached allowed session) {root : NodeId}
    (held : root ::ₘ {root} ≤ session.held)
    (tallied : ∀ id, session.pool.Reaches root id → session.pool.TalliedAt id)
    {first first' second second' : TextEdit} (apart : first.stopByte < second.startByte)
    (same : first'.start.bytes = first.start.bytes ∧ first'.removed.bytes = first.removed.bytes ∧
      first'.added.bytes = first.added.bytes)
    (moved : second'.startByte + first.removed.bytes.toNat =
      second.startByte + first.added.bytes.toNat)
    (kept : second'.removed.bytes = second.removed.bytes ∧
      second'.added.bytes = second.added.bytes)
    {later early last last' : NodeId} {pool₁ pool₂ pool₃ pool₄ : Pool}
    (ran : Pool.edit root second session.pool = .ok (.ok later) pool₁)
    (ran' : Pool.edit later first pool₁ = .ok (.ok last) pool₂)
    (runs : Pool.edit root first' pool₂ = .ok (.ok early) pool₃)
    (runs' : Pool.edit early second' pool₃ = .ok (.ok last') pool₄) :
    pool₄.sameTree last last' = .ok true := by
  obtain ⟨rest, whole⟩ := Multiset.le_iff_exists_add.mp held
  rw [Multiset.cons_add, Multiset.singleton_add] at whole
  have owned := reached.owned
  rw [whole] at owned
  obtain ⟨tree, shows⟩ := owned.exists_shows (Multiset.mem_cons_self ..)
  obtain ⟨_, revised, settled₁⟩ := owned.settled_of_edit shows ran
  obtain ⟨_, revised', settled₂⟩ := settled₁.owned.settled_of_edit settled₁.shows ran'
  -- The second unit shows the tree as it was, and spends itself on the other order.
  have shows₂ := settled₂.spares.kept.shows (Multiset.mem_cons_self ..)
    (settled₁.spares.kept.shows (Multiset.mem_cons_self ..) shows)
  have owned₂ := settled₂.owned
  rw [Multiset.cons_swap] at owned₂
  obtain ⟨_, revises, settled₃⟩ := owned₂.settled_of_edit shows₂ runs
  obtain ⟨_, revises', settled₄⟩ := settled₃.owned.settled_of_edit settled₃.shows runs'
  have shown := settled₄.spares.kept.shows (Multiset.mem_cons_self ..)
    (settled₃.spares.kept.shows (Multiset.mem_cons_self ..) settled₂.shows)
  have moves : Cut.Moved first.cut second.cut second'.cut :=
    ⟨apart, moved, congrArg UInt32.toNat kept.1, congrArg UInt32.toNat kept.2⟩
  have outlines := (shows.tallied tallied).outline_of_commuting (TextEdit.cut_eq_iff.mpr same) moves
    revised revised' revises revises'
  exact (shown.sameTree_iff settled₄.shows (settled₄.owned.height_le_walkDepth shown)).mpr outlines

/-- Two bytes are replaced across the end of the first token, and one byte is added at the end of
the second. -/
theorem edits_commute_of_paired : ∃ last last' pool₁ pool₂ pool₃ pool₄ later early,
    Pool.edit ⟨2, 0⟩ ⟨⟨5, ⟨0, 5⟩⟩, ⟨1, ⟨0, 1⟩⟩, ⟨2, ⟨1, 0⟩⟩⟩ paired.pool = .ok (.ok later) pool₁ ∧
      Pool.edit later ⟨⟨2, ⟨0, 2⟩⟩, ⟨2, ⟨0, 2⟩⟩, ⟨1, ⟨0, 1⟩⟩⟩ pool₁ = .ok (.ok last) pool₂ ∧
      Pool.edit ⟨2, 0⟩ ⟨⟨2, ⟨0, 2⟩⟩, ⟨2, ⟨0, 2⟩⟩, ⟨1, ⟨1, 0⟩⟩⟩ pool₂ = .ok (.ok early) pool₃ ∧
      Pool.edit early ⟨⟨4, ⟨0, 4⟩⟩, ⟨1, ⟨0, 1⟩⟩, ⟨2, ⟨1, 0⟩⟩⟩ pool₃ = .ok (.ok last') pool₄ ∧
        pool₄.sameTree last last' = .ok true := by
  have accepted : paired.pool.editPasses ⟨2, 0⟩ ⟨⟨5, ⟨0, 5⟩⟩, ⟨1, ⟨0, 1⟩⟩, ⟨2, ⟨1, 0⟩⟩⟩
      (fun later pool₁ => pool₁.editPasses later ⟨⟨2, ⟨0, 2⟩⟩, ⟨2, ⟨0, 2⟩⟩, ⟨1, ⟨0, 1⟩⟩⟩
        fun _ pool₂ => pool₂.editPasses ⟨2, 0⟩ ⟨⟨2, ⟨0, 2⟩⟩, ⟨2, ⟨0, 2⟩⟩, ⟨1, ⟨1, 0⟩⟩⟩
          fun early pool₃ => pool₃.carriesOut early ⟨⟨4, ⟨0, 4⟩⟩, ⟨1, ⟨0, 1⟩⟩, ⟨2, ⟨1, 0⟩⟩⟩) = true := by
    simp only [Pool.editPasses, Pool.carriesOut, Pool.edit_eq_descendEdit]
    decide +kernel
  have held : ⟨2, 0⟩ ∈ paired.held := by decide
  have owned := reached_paired.owned
  obtain ⟨later, pool₁, ran, accepted₁⟩ := Pool.editPasses_iff.mp accepted
  obtain ⟨last, pool₂, ran', accepted₂⟩ := Pool.editPasses_iff.mp accepted₁
  obtain ⟨early, pool₃, runs, accepted₃⟩ := Pool.editPasses_iff.mp accepted₂
  obtain ⟨last', pool₄, runs'⟩ := Pool.carriesOut_iff.mp accepted₃
  refine ⟨last, last', pool₁, pool₂, pool₃, pool₄, later, early, ran, ran', runs, runs', ?_⟩
  exact reached_paired.edits_commute (by decide)
    (fun id reaches => (reached_paired.pool_measured id
      (owned.of_reaches (owned.of_unit held) reaches).1).talliedAt)
    (by decide) ⟨by rfl, by rfl, by rfl⟩ (by decide) ⟨by rfl, by rfl⟩ ran ran' runs runs'

end SyntaxForest.Session
