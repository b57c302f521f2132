import SyntaxForest.Proofs.Tree.Cut
import SyntaxForest.Proofs.Tree.Image
import SyntaxForest.Proofs.Tree.Revise

/-! # The outline of a tree

Of every node the outline keeps its symbol, whether it is visible, and the bytes of its padding and
its content. An edit gives trees of one outline the same answer, and trees of one outline again:
neither rows and columns, nor flags, nor how far a node was read have a say in that.
-/

namespace SyntaxForest

/-- The bytes, without rows and columns and without how far the node was read. -/
def Lengths.outline (lengths : Lengths) : Lengths :=
  ⟨⟨lengths.padding.bytes, .zero⟩, ⟨lengths.size.bytes, .zero⟩, 0⟩

/-- What counts when trees are compared. -/
def NodeInfo.outline (info : NodeInfo) : NodeInfo :=
  { NodeInfo.blank with
    symbol := info.symbol
    lengths := info.lengths.outline
    visible := info.visible }

namespace Lengths

variable {lengths lengths' : Lengths} {children children' : List Lengths}

theorem outline_eq_iff : lengths.outline = lengths'.outline ↔
    lengths.padding.bytes = lengths'.padding.bytes ∧ lengths.size.bytes = lengths'.size.bytes := by
  simp only [outline, mk.injEq, Span.mk.injEq, and_true]

theorem bytes_of_outline (same : lengths.outline = lengths'.outline) :
    lengths.bytes = lengths'.bytes := by
  obtain ⟨padding, size⟩ := outline_eq_iff.mp same
  rw [bytes, bytes, padding, size]

theorem startOf_of_outline (same : children.map outline = children'.map outline) (index : Nat) :
    startOf children index = startOf children' index := by
  induction children generalizing children' index with
  | nil => rw [List.map_eq_nil_iff.mp same.symm]
  | cons child rest ih =>
    cases children' with
    | nil => cases same
    | cons child' rest' =>
      obtain ⟨first, later⟩ := List.cons.inj same
      cases index with
      | zero => rw [startOf_zero, startOf_zero]
      | succ index =>
        rw [startOf_cons_succ, startOf_cons_succ, bytes_of_outline first, ih later]

/-- The bytes of a node come from those of its children. -/
theorem outline_of_over? (same : children.map outline = children'.map outline)
    (gathered : over? children = some lengths) (gathered' : over? children' = some lengths') :
    lengths.outline = lengths'.outline := by
  cases children with
  | nil =>
    cases List.map_eq_nil_iff.mp same.symm
    cases gathered.symm.trans gathered'
    rfl
  | cons first rest =>
    cases children' with
    | nil => cases same
    | cons first' rest' =>
      obtain ⟨firstSame, restSame⟩ := List.cons.inj same
      obtain ⟨padding, size⟩ := outline_eq_iff.mp firstSame
      have derived := over?_derived gathered
      have derived' := over?_derived gathered'
      have length_eq : rest.length = rest'.length := by
        simpa only [List.length_map] using congrArg List.length restSame
      refine outline_eq_iff.mpr ⟨?_, UInt32.toNat_inj.mp ?_⟩
      · rw [derived.padding_eq, derived'.padding_eq, padding]
      · rw [bytes_of_foldlM_appendTo? derived.size_eq, bytes_of_foldlM_appendTo? derived'.size_eq,
          size, length_eq, startOf_of_outline restSame]

end Lengths

theorem NodeInfo.outline_eq_iff {info info' : NodeInfo} : info.outline = info'.outline ↔
    info.symbol = info'.symbol ∧ info.visible = info'.visible ∧
      info.lengths.outline = info'.lengths.outline := by
  simp only [outline, mk.injEq, and_true]
  tauto

theorem NodeInfo.alike_iff {info info' : NodeInfo} :
    info.alike info' = true ↔ info.outline = info'.outline := by
  simp only [alike, Bool.and_eq_true, decide_eq_true_iff, beq_iff_eq, outline_eq_iff,
    Lengths.outline_eq_iff, and_assoc]

namespace TextEdit

variable {edit edit' : TextEdit}

/-- Edits of the same bytes end at the same bytes. -/
theorem ends_congr (same : edit.cut = edit'.cut) : edit.ends = edit'.ends := by
  obtain ⟨start, removed, added⟩ := cut_eq_iff.mp same
  simp only [ends, oldEndBytes?, newEndBytes?, start, removed, added]

theorem approve_congr (same : edit.cut = edit'.cut) (oldEnd newEnd total : Word) :
    edit.approve oldEnd newEnd total = edit'.approve oldEnd newEnd total := by
  obtain ⟨start, _, added⟩ := cut_eq_iff.mp same
  simp only [approve, start, added]

theorem isEmpty_congr (same : edit.cut = edit'.cut) : edit.isEmpty = edit'.isEmpty := by
  rw [Bool.eq_iff_iff, isEmpty_iff, isEmpty_iff, same]

end TextEdit

namespace Tree

/-- A tree with what counts when trees are compared. -/
def outline : Tree → Tree := image NodeInfo.outline

variable {tree tree' edited edited' : Tree} {trees trees' : List Tree} {asked asked' : Option Share}

theorem outline_eq_iff : tree.outline = tree'.outline ↔
    tree.info.outline = tree'.info.outline ∧
      tree.children.map outline = tree'.children.map outline :=
  image_eq_iff

theorem lengths_of_outline (same : tree.outline = tree'.outline) :
    tree.lengths.outline = tree'.lengths.outline :=
  (NodeInfo.outline_eq_iff.mp (outline_eq_iff.mp same).1).2.2

theorem map_lengths_of_outline (same : trees.map outline = trees'.map outline) :
    (trees.map lengths).map Lengths.outline = (trees'.map lengths).map Lengths.outline := by
  have each (tree : Tree) : tree.lengths.outline = tree.outline.lengths := by
    rw [outline, image_eq]
    rfl
  simp only [List.map_map, Function.comp_def, each]
  simpa only [List.map_map, Function.comp_def] using congrArg (List.map lengths) same

/-- Only a part of an edit changes the outline of a tree. -/
theorem outline_of_uncut (answers : tree.answer? asked = some edited)
    (uncut : Share.cut? asked = none) : edited.outline = tree.outline := by
  refine image_of_answer? (fun _ _ => rfl) (fun edit part => ?_) answers
  rw [part] at uncut
  cases uncut

/-- The bytes that a part of an edit gives a leaf. -/
theorem resize_of_leaf {edit : TextEdit} (carried : tree.carry? (.part edit) = some edited)
    (leaf : tree.children = []) :
    edit.cut.resize tree.lengths.padding.bytes.toNat tree.lengths.size.bytes.toNat =
      (edited.lengths.padding.bytes.toNat, edited.lengths.size.bytes.toNat) :=
  TextEdit.resize_of_resize? (resize?_of_resizedInfo ((carry?_part_cases carried).2.2.1 leaf))

/-- A tree after a part of an edit has the outline of another if their nodes are alike, and they
are leaves of the same bytes or their children have the same outlines. -/
theorem outline_of_parts {edit edit' : TextEdit} (carried : tree.carry? (.part edit) = some edited)
    (carried' : tree'.carry? (.part edit') = some edited')
    (symbol : tree.info.symbol = tree'.info.symbol) (visible : tree.info.visible = tree'.info.visible)
    (shape : tree.children.length = tree'.children.length)
    (leaf : tree.children = [] → edited.lengths.outline = edited'.lengths.outline)
    (below : ∀ (index : Nat) (child child' : Tree), edited.children[index]? = some child →
      edited'.children[index]? = some child' → child.outline = child'.outline) :
    edited.outline = edited'.outline := by
  obtain ⟨_, length_eq, _, derived, _⟩ := carry?_part_cases carried
  obtain ⟨_, length_eq', _, derived', _⟩ := carry?_part_cases carried'
  have length_same : edited.children.length = edited'.children.length := by
    rw [length_eq, length_eq', shape]
  have children : edited.children.map outline = edited'.children.map outline := by
    refine map_image_of_each length_same fun index child' found' => ?_
    have inside := length_same ▸ (List.getElem?_eq_some_iff.mp found').1
    have found := List.getElem?_eq_getElem inside
    exact ⟨_, found, below index _ child' found found'⟩
  have lengths : edited.lengths.outline = edited'.lengths.outline := by
    cases ends : tree.children with
    | nil => exact leaf ends
    | cons first rest =>
      have inner : tree.children ≠ [] := by simp only [ends, ne_eq, reduceCtorEq, not_false_eq_true]
      have inner' : tree'.children ≠ [] := fun none =>
        inner (List.length_eq_zero_iff.mp (by rw [shape, none, List.length_nil]))
      exact Lengths.outline_of_over? (map_lengths_of_outline children) (derived inner)
        (derived' inner')
  refine outline_eq_iff.mpr ⟨?_, children⟩
  rw [info_of_part carried, info_of_part carried']
  exact NodeInfo.outline_eq_iff.mpr ⟨symbol, visible, lengths⟩

/-- Trees of one outline that are asked for the same bytes have one outline again. -/
theorem outline_of_answer? (same : tree.outline = tree'.outline)
    (cuts : Share.cut? asked = Share.cut? asked') (answers : tree.answer? asked = some edited)
    (answers' : tree'.answer? asked' = some edited') : edited.outline = edited'.outline := by
  induction tree using induct_below generalizing tree' asked asked' edited edited' with
  | step tree ih =>
    obtain ⟨info, children⟩ := outline_eq_iff.mp same
    obtain ⟨symbol, visible, lengths⟩ := NodeInfo.outline_eq_iff.mp info
    have lengths_eq := map_lengths_of_outline children
    have shape : tree.children.length = tree'.children.length := by
      simpa only [List.length_map] using congrArg List.length children
    match asked, asked', cuts with
    | some (.part edit), some (.part edit'), cuts =>
      have cut : edit.cut = edit'.cut := Option.some.inj cuts
      obtain ⟨_, _, _, _, shares, _, each⟩ := carry?_part_cases answers
      obtain ⟨_, _, _, _, shares', _, each'⟩ := carry?_part_cases answers'
      refine outline_of_parts answers answers' symbol visible shape (fun leaf => ?_) ?_
      · have leaf' : tree'.children = [] :=
          List.length_eq_zero_iff.mp (by rw [← shape, leaf, List.length_nil])
        have resized := resize_of_leaf answers leaf
        have resized' := resize_of_leaf answers' leaf'
        obtain ⟨padding, size⟩ := Lengths.outline_eq_iff.mp lengths
        rw [cut, Tree.lengths, padding, size] at resized
        obtain ⟨padding', size'⟩ := Prod.mk.inj (resized.symm.trans resized')
        exact Lengths.outline_eq_iff.mpr ⟨UInt32.toNat_inj.mp padding', UInt32.toNat_inj.mp size'⟩
      · intro index after after' isAfter isAfter'
        obtain ⟨_, child, found, _⟩ := exists_child_before answers isAfter
        obtain ⟨child', found', alike⟩ := image_of_map_eq children.symm found
        obtain ⟨_, again, answersBelow, asks⟩ := each index child found
        cases isAfter.symm.trans again
        obtain ⟨_, again', answersBelow', asks'⟩ := each' index child' found'
        cases isAfter'.symm.trans again'
        refine ih child (List.mem_of_getElem? found) alike.symm ?_ answersBelow answersBelow'
        rw [asks.cut?_eq tree.childStart_eq_zero, asks'.cut?_eq tree'.childStart_eq_zero, cut,
          childStart, childStart, Lengths.startOf_of_outline lengths_eq,
          Lengths.bytes_of_outline (lengths_of_outline alike)]
    | some (.part _), some (.glance _), cuts | some (.part _), none, cuts
    | some (.glance _), some (.part _), cuts | none, some (.part _), cuts => cases cuts
    | some (.glance _), some (.glance _), _ | some (.glance _), none, _
    | none, some (.glance _), _ | none, none, _ =>
      rw [outline_of_uncut answers rfl, outline_of_uncut answers' rfl, same]

/-- What a tree is asked by an edit that is carried out. -/
theorem exists_asked_of_revise? {edit : TextEdit} (revised : tree.revise? edit = some (.ok edited)) :
    ∃ asked, tree.answer? asked = some edited ∧
      Share.cut? asked = if edit.isEmpty then none else some edit.cut := by
  obtain ⟨_, ⟨isEmpty, rfl⟩ | ⟨inhabited, carried⟩⟩ := revise?_ok revised
  · exact ⟨none, rfl, by rw [isEmpty]; rfl⟩
  · exact ⟨some (.part edit), carried, by rw [inhabited]; rfl⟩

/-- An edit of the same bytes, of a tree of the same outline, is refused alike. -/
theorem refusal_of_outline {edit edit' : TextEdit} {refusal : TextEdit.Refusal}
    {answer : Except TextEdit.Refusal Tree} (same : tree.outline = tree'.outline)
    (cut : edit.cut = edit'.cut) (revised : tree.revise? edit = some (.error refusal))
    (revised' : tree'.revise? edit' = some answer) : answer = .error refusal := by
  have total_eq : tree.lengths.totalBytes? = tree'.lengths.totalBytes? := by
    obtain ⟨padding, size⟩ := Lengths.outline_eq_iff.mp (lengths_of_outline same)
    rw [Lengths.totalBytes?, Lengths.totalBytes?, padding, size]
  unfold revise? at revised revised'
  rw [TextEdit.ends_congr cut, total_eq] at revised
  split at revised'
  case h_1 refusal' ends =>
    rw [ends] at revised
    cases revised
    exact (Option.some.inj revised').symm
  case h_2 oldEnd newEnd ends =>
    rw [ends] at revised
    obtain ⟨total, sum, revised⟩ := Option.bind_eq_some_iff.mp revised
    obtain ⟨_, sum', revised'⟩ := Option.bind_eq_some_iff.mp revised'
    cases sum.symm.trans sum'
    rw [TextEdit.approve_congr cut] at revised
    split at revised'
    case h_1 refusal' refused =>
      rw [refused] at revised
      cases revised
      exact (Option.some.inj revised').symm
    case h_2 approved =>
      rw [approved] at revised
      dsimp only at revised
      split at revised
      case isTrue => cases revised
      case isFalse =>
        obtain ⟨_, _, finished⟩ := Option.bind_eq_some_iff.mp revised
        cases finished

/-- An edit of the same bytes, of a tree of the same outline, gets the same answer. -/
theorem outline_of_revise? {edit edit' : TextEdit} {answer answer' : Except TextEdit.Refusal Tree}
    (same : tree.outline = tree'.outline) (cut : edit.cut = edit'.cut)
    (revised : tree.revise? edit = some answer) (revised' : tree'.revise? edit' = some answer') :
    answer.map outline = answer'.map outline := by
  cases answer with
  | error refusal => rw [refusal_of_outline same cut revised revised']
  | ok edited =>
    cases answer' with
    | error refusal => cases refusal_of_outline same.symm cut.symm revised' revised
    | ok edited' =>
      obtain ⟨asked, answers, seen⟩ := exists_asked_of_revise? revised
      obtain ⟨asked', answers', seen'⟩ := exists_asked_of_revise? revised'
      refine congrArg Except.ok (outline_of_answer? same ?_ answers answers')
      rw [seen, seen', TextEdit.isEmpty_congr cut, cut]

end Tree

end SyntaxForest
