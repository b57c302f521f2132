import SyntaxForest.Proofs.Tree.Asked

/-! # How trees look

A tree may be looked at for a part of what its nodes are. Two trees look alike if they have the same
shape and the same is seen at every place, whatever else their nodes are and whichever handles they
are known by. An edit leaves alone whatever can be seen without lengths and flags of change.
-/

namespace SyntaxForest

namespace Tree

mutual

/-- The tree as it looks, without its handles. -/
def image (look : NodeInfo → NodeInfo) : Tree → Tree
  | node _ info children => node none (look info) (imageAll look children)

def imageAll (look : NodeInfo → NodeInfo) : List Tree → List Tree
  | [] => []
  | tree :: trees => tree.image look :: imageAll look trees

end

variable {look : NodeInfo → NodeInfo} {tree tree' edited : Tree} {trees trees' : List Tree}
  {asked : Option Share}

theorem imageAll_eq_map (trees : List Tree) : imageAll look trees = trees.map (image look) := by
  induction trees with
  | nil => rfl
  | cons tree trees ih => rw [imageAll, ih, List.map_cons]

theorem image_eq (look : NodeInfo → NodeInfo) (tree : Tree) :
    tree.image look = node none (look tree.info) (tree.children.map (image look)) := by
  obtain ⟨handle, info, children⟩ := tree
  rw [image, imageAll_eq_map]
  rfl

theorem image_eq_iff : tree.image look = tree'.image look ↔
    look tree.info = look tree'.info ∧
      tree.children.map (image look) = tree'.children.map (image look) := by
  rw [image_eq, image_eq look tree', node.injEq]
  simp only [true_and]

/-- Trees in a row look as others do if each of them does. -/
theorem map_image_of_each (length_eq : trees'.length = trees.length)
    (each : ∀ (index : Nat) (tree : Tree), trees[index]? = some tree → ∃ tree',
      trees'[index]? = some tree' ∧ tree'.image look = tree.image look) :
    trees'.map (image look) = trees.map (image look) := by
  refine List.ext_getElem? fun index => ?_
  rw [List.getElem?_map, List.getElem?_map]
  cases found : trees[index]? with
  | none =>
    have beyond := length_eq ▸ List.getElem?_eq_none_iff.mp found
    rw [List.getElem?_eq_none_iff.mpr beyond]
  | some tree =>
    obtain ⟨tree', found', same⟩ := each index tree found
    rw [found', Option.map_some, Option.map_some, same]

theorem image_of_map_eq (same : trees'.map (image look) = trees.map (image look)) {index : Nat}
    (found : trees[index]? = some tree) :
    ∃ tree', trees'[index]? = some tree' ∧ tree'.image look = tree.image look := by
  have here := congrArg (·[index]?) same
  simp only [List.getElem?_map, found, Option.map_some] at here
  exact Option.map_eq_some_iff.mp here

/-- A part of an edit gives a node new lengths and a flag, and nothing else. -/
theorem info_of_part {edit : TextEdit} (carried : tree.carry? (.part edit) = some edited) :
    edited.info = { tree.info with lengths := edited.lengths, changed := true } := by
  obtain ⟨handle, info, children⟩ := tree
  by_cases leaf : children = []
  · subst leaf
    rw [carry?_part_leaf] at carried
    obtain ⟨info', resized, rfl⟩ := Option.map_eq_some_iff.mp carried
    obtain ⟨_, _, resized⟩ := Option.bind_eq_some_iff.mp resized
    obtain ⟨_, _, finished⟩ := Option.bind_eq_some_iff.mp resized
    cases finished
    rfl
  · rw [carry?_part_node edit leaf] at carried
    obtain ⟨info', resized, carried⟩ := Option.bind_eq_some_iff.mp carried
    obtain ⟨_, _, carried⟩ := Option.bind_eq_some_iff.mp carried
    obtain ⟨_, _, carried⟩ := Option.bind_eq_some_iff.mp carried
    obtain ⟨_, _, carried⟩ := Option.bind_eq_some_iff.mp carried
    obtain ⟨_, _, rfl⟩ := Option.map_eq_some_iff.mp carried
    obtain ⟨_, _, resized⟩ := Option.bind_eq_some_iff.mp resized
    cases resized
    rfl

/-- What a tree is asked leaves alone how it looks, if flags of change cannot be seen, and lengths
neither where a part of an edit is carried into it. -/
theorem image_of_answer? (unflagged : ∀ info changed, look { info with changed } = look info)
    (unmeasured : ∀ edit, asked = some (.part edit) →
      ∀ info lengths, look { info with lengths } = look info)
    (answers : tree.answer? asked = some edited) : edited.image look = tree.image look := by
  induction tree using induct_below generalizing asked edited with
  | step tree ih =>
    have length_eq := children_length_of_answer? answers
    match asked with
    | none =>
      cases answers
      rfl
    | some (.part edit) =>
      have unmeasured := unmeasured edit rfl
      refine image_eq_iff.mpr ⟨?_, map_image_of_each length_eq fun index below found => ?_⟩
      · rw [info_of_part answers]
        exact (unflagged _ true).trans (unmeasured tree.info edited.lengths)
      · obtain ⟨_, below', found', answers'⟩ := exists_child_of_answer? answers found
        exact ⟨below', found', ih below (List.mem_of_getElem? found) (fun _ _ => unmeasured) answers'⟩
    | some (.glance offset) =>
      obtain ⟨_, rfl⟩ | ⟨_, info, _, each⟩ := carry?_glance_cases answers
      · rfl
      · refine image_eq_iff.mpr ⟨?_, map_image_of_each length_eq fun index below found => ?_⟩
        · rw [info, unflagged]
        · obtain ⟨asked, below', found', answers', glanced⟩ := each index below found
          have quiet : ∀ edit, asked ≠ some (.part edit) := by cases glanced <;> exact fun _ => nofun
          exact ⟨below', found', ih below (List.mem_of_getElem? found)
            (fun edit same => (quiet edit same).elim) answers'⟩

end Tree

end SyntaxForest
