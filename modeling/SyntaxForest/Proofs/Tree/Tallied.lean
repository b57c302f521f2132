import SyntaxForest.Proofs.Tree.Cut

/-! # Trees whose bytes add up

The bytes of a node with children are those of its children together. That is less than to measure
the text, for it says nothing of rows and columns, nor of how far a node was read; an edit keeps it
up all the same.
-/

namespace SyntaxForest

/-- Lengths that are told of children cover what the children cover together. -/
theorem Lengths.bytes_of_over? {lengths : Lengths} {children : List Lengths}
    (gathered : Lengths.over? children = some lengths) :
    lengths.bytes = startOf children children.length := by
  cases children with
  | nil =>
    cases gathered
    rfl
  | cons first rest => exact (over?_derived gathered).bytes_eq

namespace Tree

/-- Every node with children covers what they cover together. -/
inductive Tallied : Tree → Prop where
  | node {handle : Option NodeId} {info : NodeInfo} {children : List Tree}
    (here : children ≠ [] →
      info.lengths.bytes = Lengths.startOf (children.map lengths) children.length)
    (below : ∀ child ∈ children, Tallied child) : Tallied (node handle info children)

variable {tree edited child : Tree} {asked : Option Share}

theorem Measured.tallied (measured : tree.Measured) : tree.Tallied := by
  induction tree with
  | node handle info children ih =>
    refine .node (fun inner => ?_) fun child member => ih child member (measured.of_mem member)
    rw [← List.length_map lengths]
    exact measured.here.bytes_eq (mt List.map_eq_nil_iff.mp inner)

theorem tallied_iff : tree.Tallied ↔
    (tree.children ≠ [] → tree.lengths.bytes = tree.childStart tree.children.length) ∧
      ∀ child ∈ tree.children, child.Tallied := by
  constructor
  · rintro ⟨here, below⟩
    exact ⟨here, below⟩
  · obtain ⟨handle, info, children⟩ := tree
    rintro ⟨here, below⟩
    exact .node here below

namespace Tallied

theorem here (tallied : tree.Tallied) (inner : tree.children ≠ []) :
    tree.lengths.bytes = tree.childStart tree.children.length :=
  (tallied_iff.mp tallied).1 inner

theorem of_mem (tallied : tree.Tallied) (member : child ∈ tree.children) : child.Tallied :=
  (tallied_iff.mp tallied).2 child member

/-- What a tree is asked leaves its bytes adding up. -/
theorem answer? (tallied : tree.Tallied) (answers : tree.answer? asked = some edited) :
    edited.Tallied := by
  induction tree using induct_below generalizing asked edited with
  | step tree ih =>
    have length_eq := children_length_of_answer? answers
    refine tallied_iff.mpr ⟨fun inner => ?_, fun child' member => ?_⟩
    · have inner' : tree.children ≠ [] := fun leaf =>
        inner (List.length_eq_zero_iff.mp (by rw [length_eq, leaf, List.length_nil]))
      match asked with
      | none =>
        cases answers
        exact tallied.here inner
      | some (.part edit) =>
        obtain ⟨_, _, _, derived, _⟩ := carry?_part_cases answers
        rw [childStart, ← List.length_map lengths]
        exact Lengths.bytes_of_over? (derived inner')
      | some (.glance offset) =>
        have bytes := congrArg Lengths.bytes (lengths_of_glance answers)
        obtain ⟨_, rfl⟩ | ⟨_, _, same, _⟩ := carry?_glance_cases answers
        · exact tallied.here inner
        · rw [bytes, tallied.here inner', length_eq, childStart, childStart, same]
    · obtain ⟨index, found'⟩ := List.getElem?_of_mem member
      obtain ⟨_, child, found, answers'⟩ := exists_child_before answers found'
      have member := List.mem_of_getElem? found
      exact ih child member (tallied.of_mem member) answers'

end Tallied

end Tree

end SyntaxForest
