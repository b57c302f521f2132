import SyntaxForest.Proofs.Tree.Asked

/-! # The nodes that an edit touches

A share of an edit touches the node that it comes to, unless it is a glance at a byte that the node
was not read up to. A node that is touched is rewritten or flagged, and hands shares on to its
children. All this is told by the lengths before the edit, and shows in the tree after it: what is
touched has its flag set, and what is not is as it was.
-/

namespace SyntaxForest

/-- Nothing comes of a glance at a byte that the node was not read up to. -/
def Share.Arrives (lengths : Lengths) : Share → Prop
  | .part _ => True
  | .glance offset => ¬ lengths.scanned ≤ offset

namespace Tree

/-- The shares that a node hands on to its children. A node that is not touched hands on none. -/
def handsOn? (share : Share) (tree : Tree) : Option (List Share) :=
  match share with
  | .part edit =>
    if tree.children.isEmpty then some []
    else do
      let oldEnd ← edit.oldEnd?
      edit.shares? oldEnd .zero (tree.children.map lengths)
  | .glance offset =>
    if tree.lengths.scanned ≤ offset then none
    else glances? offset 0 (tree.children.map lengths)

/-- What comes of the share touches the node at the end of the path. -/
def touches (share : Share) (tree : Tree) : List Nat → Bool
  | [] => (tree.handsOn? share).isSome
  | index :: path =>
    match tree.handsOn? share, tree.children[index]? with
    | some shares, some child => shares[index]?.any (child.touches · path)
    | _, _ => false

/-- An edit of the text rewrites or flags the node at the end of the path. -/
def touchedBy (edit : TextEdit) (tree : Tree) (path : List Nat) : Bool :=
  !edit.isEmpty && tree.touches (.part edit) path

variable {tree edited child : Tree} {share : Share} {shares : List Share} {index : Nat}
  {path : List Nat} {place : Place}

theorem touches_nil (hands : tree.handsOn? share = some shares) : tree.touches share [] = true := by
  rw [touches, hands, Option.isSome_some]

theorem handsOn?_eq_none (passed : ¬ share.Arrives tree.lengths) : tree.handsOn? share = none := by
  cases share with
  | part edit => exact absurd trivial passed
  | glance offset => exact if_pos (Classical.not_not.mp passed)

theorem not_touches (untouched : tree.handsOn? share = none) (path : List Nat) :
    tree.touches share path = false := by
  cases path <;> simp only [touches, untouched, Option.isSome_none]

theorem touches_cons_iff (hands : tree.handsOn? share = some shares) :
    tree.touches share (index :: path) = true ↔ ∃ child, tree.children[index]? = some child ∧
      ∃ share' ∈ shares[index]?, child.touches share' path = true := by
  rw [touches, hands]
  cases tree.children[index]? with
  | none => simp
  | some child => simp [Option.any_eq_true]

/-! ## Handles do not count -/

theorem plainAll_eq_map (trees : List Tree) : plainAll trees = trees.map plain := by
  induction trees with
  | nil => rfl
  | cons tree trees ih => rw [plainAll, ih, List.map_cons]

@[simp] theorem lengths_plain (tree : Tree) : tree.plain.lengths = tree.lengths := by
  cases tree
  rfl

@[simp] theorem children_plain (tree : Tree) : tree.plain.children = tree.children.map plain := by
  cases tree
  exact plainAll_eq_map _

theorem handsOn?_plain (share : Share) (tree : Tree) :
    tree.plain.handsOn? share = tree.handsOn? share := by
  cases share <;> simp [handsOn?, Function.comp_def]

theorem touches_plain (share : Share) (tree : Tree) (path : List Nat) :
    tree.plain.touches share path = tree.touches share path := by
  induction path generalizing share tree with
  | nil => rw [touches, touches, handsOn?_plain]
  | cons index path ih =>
    rw [touches, touches, handsOn?_plain, children_plain, List.getElem?_map]
    cases tree.handsOn? share with
    | none => rfl
    | some shares =>
      cases tree.children[index]? with
      | none => rfl
      | some child => simp [ih]

/-! ## What becomes of the nodes -/

/-- A tree comes through as it is, or its node is flagged and its children answer to the shares that
are handed on. -/
theorem carry?_cases (carried : tree.carry? share = some edited) :
    tree.handsOn? share = none ∧ edited = tree ∨
      edited.info.changed = true ∧ ∃ shares, tree.handsOn? share = some shares ∧
        ∀ (index : Nat) (child : Tree), tree.children[index]? = some child → ∃ child',
          edited.children[index]? = some child' ∧ child.answer? shares[index]? = some child' := by
  cases share with
  | part edit =>
    obtain ⟨flagged, _, _, _, shares, drawn, each⟩ := carry?_part_cases carried
    by_cases leaf : tree.children = []
    · exact .inr ⟨flagged, [], by simp [handsOn?, leaf], by simp [leaf]⟩
    · obtain ⟨oldEnd, ends, drawn⟩ := drawn leaf
      have hands : tree.handsOn? (.part edit) = some shares := by simp [handsOn?, leaf, ends, drawn]
      refine .inr ⟨flagged, shares, hands, fun index child found => ?_⟩
      obtain ⟨child', place, answers, _⟩ := each index child found
      exact ⟨child', place, answers⟩
  | glance offset =>
    obtain ⟨handle, info, children⟩ := tree
    by_cases past : info.lengths.scanned ≤ offset
    · rw [carry?_glance_past past] at carried
      cases carried
      exact .inl ⟨handsOn?_eq_none (not_not_intro past), rfl⟩
    · rw [carry?_glance_reached past] at carried
      obtain ⟨shares, drawn, carried⟩ := Option.bind_eq_some_iff.mp carried
      obtain ⟨children', each, rfl⟩ := Option.map_eq_some_iff.mp carried
      exact .inr ⟨rfl, shares, (if_neg past).trans drawn, fun _ _ => carryAll?_getElem? each⟩

/-- What is touched is flagged. -/
theorem changed_of_touches (carried : tree.carry? share = some edited)
    (touched : tree.touches share path = true) :
    ∃ place, edited.at? path = some place ∧ place.changed = true := by
  induction path generalizing tree edited share with
  | nil =>
    obtain ⟨none, _⟩ | ⟨flagged, _⟩ := carry?_cases carried
    · rw [not_touches none] at touched
      cases touched
    · exact ⟨_, rfl, flagged⟩
  | cons index path ih =>
    obtain ⟨none, _⟩ | ⟨_, shares, hands, each⟩ := carry?_cases carried
    · rw [not_touches none] at touched
      cases touched
    · obtain ⟨child, isChild, share', asked, deeper⟩ := (touches_cons_iff hands).mp touched
      obtain ⟨child', isChild', answers⟩ := each index child isChild
      rw [Option.mem_def.mp asked] at answers
      obtain ⟨below, found, flagged⟩ := ih answers deeper
      exact ⟨_, at?_cons_eq_some_iff.mpr ⟨child', below, isChild', found, rfl⟩, flagged⟩

/-- What is not touched stays as it is, with all below it. -/
theorem at?_of_not_touches (carried : tree.carry? share = some edited)
    (found : tree.at? path = some place) (missed : tree.touches share path = false) :
    ∃ place', edited.at? path = some place' ∧ place'.tree = place.tree := by
  induction path generalizing tree edited share place with
  | nil =>
    obtain ⟨_, rfl⟩ | ⟨_, shares, hands, _⟩ := carry?_cases carried
    · exact ⟨place, found, rfl⟩
    · rw [touches_nil hands] at missed
      cases missed
  | cons index path ih =>
    obtain ⟨_, rfl⟩ | ⟨_, shares, hands, each⟩ := carry?_cases carried
    · exact ⟨place, found, rfl⟩
    · obtain ⟨child, below, isChild, deeper, rfl⟩ := at?_cons_eq_some_iff.mp found
      obtain ⟨child', isChild', answers⟩ := each index child isChild
      obtain ⟨below', deeper', same⟩ : ∃ below', child'.at? path = some below' ∧
          below'.tree = below.tree := by
        cases asked : shares[index]? with
        | none =>
          rw [asked] at answers
          cases answers
          exact ⟨below, deeper, rfl⟩
        | some share' =>
          rw [asked] at answers
          refine ih answers deeper (Bool.eq_false_iff.mpr fun touched => ?_)
          have touched' := (touches_cons_iff hands).mpr ⟨child, isChild, share', asked, touched⟩
          rw [missed] at touched'
          cases touched'
      exact ⟨_, at?_cons_eq_some_iff.mpr ⟨child', below', isChild', deeper', rfl⟩, same⟩

end Tree

end SyntaxForest
