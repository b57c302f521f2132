import SyntaxForest.Proofs.Tree.Revise
import SyntaxForest.Proofs.Tree.Spelling

/-! # Edits of a text in its tree

An edit that is told in spans of the text leaves a tree that spells the new text. Each child is
asked for the part of the edit that falls on its own text, and the texts that the children spell
after that make up the new text: rows and columns come out right on both sides of every border that
the edit crosses, though sums of extents forget columns.
-/

namespace SyntaxForest

/-- What the text of a child becomes by its share of an edit, if it has one. -/
def Share.Rewrites : Option Share → Text → Text → Prop
  | some (.part edit), text, text' => edit.Rewrites text text'
  | _, text, text' => text' = text

/-- What the texts of children become by their shares. -/
structure Share.RewritesAll (shares : List Share) (texts texts' : List Text) : Prop where
  length_eq : texts'.length = texts.length
  each : ∀ (index : Nat) text text', texts[index]? = some text → texts'[index]? = some text' →
    Rewrites shares[index]? text text'

theorem length_le_flatten {texts : List Text} {text : Text} {index : Nat}
    (found : texts[index]? = some text) : text.length ≤ texts.flatten.length :=
  (List.sublist_flatten_of_mem (List.mem_of_getElem? found)).length_le

namespace Share.RewritesAll

variable {share : Share} {shares : List Share} {text text' : Text} {texts texts' : List Text}

theorem refl (texts : List Text) : RewritesAll [] texts texts :=
  ⟨rfl, fun _ _ _ found found' => Option.some.inj (found'.symm.trans found)⟩

theorem cons (first : Rewrites (some share) text text') (rest : RewritesAll shares texts texts') :
    RewritesAll (share :: shares) (text :: texts) (text' :: texts') := by
  refine ⟨congrArg (· + 1) rest.length_eq, fun index before after found found' => ?_⟩
  cases index with
  | zero =>
    cases found
    cases found'
    exact first
  | succ index => exact rest.each index before after found found'

end Share.RewritesAll

namespace TextEdit

theorem Rewrites.length_eq {edit : TextEdit} {text text' : Text}
    (rewrites : edit.Rewrites text text') :
    text'.length + edit.removed.bytes.toNat = text.length + edit.added.bytes.toNat := by
  obtain ⟨before, removed, added, after, rfl, rfl, _, removes, adds⟩ := rewrites
  rw [removes.bytes, adds.bytes]
  simp only [List.length_append]
  omega

theorem Rewrites.eq_of_isEmpty {edit : TextEdit} {text text' : Text}
    (rewrites : edit.Rewrites text text') (isEmpty : edit.isEmpty = true) : text' = text := by
  obtain ⟨before, removed, added, after, rfl, rfl, _, removes, adds⟩ := rewrites
  obtain ⟨noneRemoved, noneAdded⟩ := Bool.and_eq_true_iff.mp isEmpty
  have removedBytes := congrArg UInt32.toNat (of_decide_eq_true noneRemoved)
  have addedBytes := congrArg UInt32.toNat (of_decide_eq_true noneAdded)
  obtain rfl := List.length_eq_zero_iff.mp (removes.bytes.symm.trans removedBytes)
  obtain rfl := List.length_eq_zero_iff.mp (adds.bytes.symm.trans addedBytes)
  rfl

variable {edit : TextEdit} {children : List Lengths} {texts : List Text} {oldEnd owed edge : Span}
  {passed before removed added after : Text}

/-- A removal from the start of the texts takes from each as much as it covers. -/
theorem sharesAfter?_rewrites (all : List.Forall₂ Lengths.Measures children texts)
    (edgeFits : edge.Measures passed) (owedFits : owed.Measures removed)
    (same : texts.flatten = removed ++ after)
    (fits : (passed ++ texts.flatten).length < UInt32.size) :
    ∃ shares texts', edit.sharesAfter? owed edge children = some shares ∧
      Share.RewritesAll shares texts texts' ∧ texts'.flatten = after := by
  induction all generalizing edge owed passed removed after with
  | nil =>
    obtain ⟨rfl, rfl⟩ := List.append_eq_nil_iff.mp same.symm
    exact ⟨[], [], rfl, .refl [], rfl⟩
  | @cons child text rest texts measures _ ih =>
    rw [List.flatten_cons] at same fits
    obtain ⟨total, totalSum, totalFits⟩ := measures.exists_total?
      (by simp only [List.length_append] at fits; omega)
    obtain ⟨right, rightSum, rightFits⟩ := edgeFits.exists_add? totalFits
      (by simp only [List.length_append] at fits ⊢; omega)
    rw [← List.append_assoc] at fits
    rw [sharesAfter?]
    simp only [totalSum, rightSum, Option.bind_eq_bind, Option.bind_some, Option.pure_def]
    by_cases settled : owed.isEmpty
    · have none : removed = [] := List.length_eq_zero_iff.mp
        (owedFits.bytes.symm.trans (congrArg UInt32.toNat (of_decide_eq_true settled)))
      subst none
      rw [if_pos settled]
      by_cases near : edge.bytes ≤ edit.start.bytes
      · obtain ⟨shares, texts', drawn, rewrites, flat⟩ :=
          ih rightFits owedFits (List.nil_append texts.flatten).symm fits
        rw [if_pos near, drawn, Option.bind_some]
        refine ⟨_, text :: texts', rfl, .cons rfl rewrites, ?_⟩
        rw [List.flatten_cons, flat, same, List.nil_append]
      · rw [if_neg near]
        exact ⟨[], text :: texts, rfl, .refl _, by rw [List.flatten_cons, same, List.nil_append]⟩
    · rw [if_neg settled]
      rcases Nat.le_total text.length removed.length with whole | partly
      -- All of the child is removed.
      · obtain ⟨later, rfl, same'⟩ := Text.exists_between same whole
        have clipped := totalFits.clip_right owedFits
        obtain ⟨shares, texts', drawn, rewrites, flat⟩ :=
          ih rightFits (owedFits.sub clipped) same' fits
        rw [drawn, Option.bind_some]
        refine ⟨_, [] :: texts', rfl, .cons ?_ rewrites, flat⟩
        exact ⟨[], text, [], [], by simp, rfl, .zero, clipped, .zero⟩
      -- The removal ends in the child.
      · obtain ⟨rest, rfl, rfl⟩ := Text.exists_between same.symm partly
        have clipped := owedFits.clip_left totalFits
        have nothing : (owed - owed.clip total).Measures [] :=
          Span.Measures.sub ((List.append_nil removed).symm ▸ owedFits) clipped
        obtain ⟨shares, texts', drawn, rewrites, flat⟩ :=
          ih rightFits nothing (List.nil_append texts.flatten).symm fits
        rw [drawn, Option.bind_some]
        refine ⟨_, rest :: texts', rfl, .cons ?_ rewrites, by rw [List.flatten_cons, flat]⟩
        exact ⟨[], removed, [], rest, rfl, rfl, .zero, clipped, .zero⟩

/-- The first child that reaches the edit takes the inserted text, and the removal goes on through
the children after it. -/
theorem shares?_rewrites (all : List.Forall₂ Lengths.Measures children texts)
    (inner : children ≠ []) (edgeFits : edge.Measures passed)
    (start : edit.start.Measures (passed ++ before))
    (removes : edit.removed.Measures removed) (adds : edit.added.Measures added)
    (ends : oldEnd.Measures (passed ++ before ++ removed))
    (same : texts.flatten = before ++ removed ++ after)
    (fits : (passed ++ texts.flatten).length < UInt32.size) :
    ∃ shares texts', edit.shares? oldEnd edge children = some shares ∧
      Share.RewritesAll shares texts texts' ∧ texts'.flatten = before ++ added ++ after := by
  induction all generalizing edge passed before with
  | nil => exact (inner rfl).elim
  | @cons child text rest texts measures restMeasures ih =>
    rw [List.flatten_cons] at same fits
    obtain ⟨total, totalSum, totalFits⟩ := measures.exists_total?
      (by simp only [List.length_append] at fits; omega)
    obtain ⟨right, rightSum, rightFits⟩ := edgeFits.exists_add? totalFits
      (by simp only [List.length_append] at fits ⊢; omega)
    rw [← List.append_assoc] at fits
    have startBytes := start.bytes
    have rightBytes := rightFits.bytes
    have endsBytes := ends.bytes
    simp only [List.length_append] at startBytes rightBytes endsBytes
    rw [shares?]
    simp only [totalSum, rightSum, Option.bind_eq_bind, Option.bind_some, Option.pure_def]
    by_cases passes : right.bytes < edit.start.bytes
    -- The child ends before the edit.
    · have lt := UInt32.lt_iff_toNat_lt.mp passes
      rw [List.append_assoc] at same
      obtain ⟨more, rfl, same'⟩ := Text.exists_between same (by omega)
      have others : rest ≠ [] := by
        rintro rfl
        obtain rfl := List.forall₂_nil_left_iff.mp restMeasures
        have none := congrArg List.length same'
        simp only [List.flatten_nil, List.length_nil, List.length_append] at none startBytes
        omega
      simp only [← List.append_assoc] at start ends same'
      obtain ⟨shares, texts', drawn, rewrites, flat⟩ :=
        ih others rightFits start ends same' fits
      rw [if_pos passes, drawn, Option.bind_some]
      refine ⟨_, text :: texts', rfl, .cons rfl rewrites, ?_⟩
      rw [List.flatten_cons, flat]
      simp only [List.append_assoc]
    -- The child reaches the edit.
    · have le := UInt32.le_iff_toNat_le.mp (UInt32.not_lt.mp passes)
      rw [if_neg passes]
      obtain ⟨tail, rfl, same'⟩ :=
        Text.exists_between ((List.append_assoc ..).symm.trans same.symm) (by omega)
      have starts := start.sub edgeFits
      rw [← List.append_assoc] at rightFits fits
      rw [List.length_append] at rightBytes
      by_cases beyond : right.bytes < oldEnd.bytes
      -- The edit goes on after it.
      · have lt := UInt32.lt_iff_toNat_lt.mp beyond
        obtain ⟨more, rfl, rest_eq⟩ := Text.exists_between same'.symm (by omega)
        rw [← List.append_assoc] at ends
        obtain ⟨shares, texts', drawn, rewrites, flat⟩ :=
          sharesAfter?_rewrites restMeasures rightFits (ends.sub rightFits) rest_eq fits
        rw [if_pos beyond, drawn, Option.bind_some]
        refine ⟨_, (before ++ added) :: texts', rfl, .cons ?_ rewrites,
          by rw [List.flatten_cons, flat]⟩
        exact ⟨before, tail, added, [], by simp, by simp, starts, rightFits.sub start, adds⟩
      -- The edit ends in it.
      · have ge := UInt32.le_iff_toNat_le.mp (UInt32.not_lt.mp beyond)
        obtain ⟨kept, rfl, rfl⟩ := Text.exists_between same' (by omega)
        obtain ⟨shares, texts', drawn, rewrites, flat⟩ :=
          sharesAfter?_rewrites restMeasures rightFits .zero (List.nil_append texts.flatten).symm
            fits
        rw [if_neg beyond, drawn, Option.bind_some]
        refine ⟨_, (before ++ added ++ kept) :: texts', rfl, .cons ?_ rewrites, ?_⟩
        · exact ⟨before, removed, added, kept, by simp, rfl, starts, removes, adds⟩
        · rw [List.flatten_cons, flat]
          simp only [List.append_assoc]

end TextEdit

namespace Tree

variable {tree edited : Tree} {asked : Option Share} {text text' : Text}

theorem laidOver_of_over? {lengths : Lengths} {children : List Lengths}
    (gathered : Lengths.over? children = some lengths) : lengths.LaidOver children := by
  rintro first rest rfl
  have derived := Lengths.over?_derived gathered
  exact ⟨derived.padding_eq, derived.size_eq⟩

theorem inner_of_length_eq {α β : Type*} {left : List α} {right : List β}
    (length_eq : right.length = left.length) (inner : left ≠ []) : right ≠ [] := by
  rintro rfl
  exact inner (List.length_eq_zero_iff.mp length_eq.symm)

/-- A glance leaves the text alone. -/
theorem Spells.glance {offset : Word} (spells : tree.Spells text)
    (carried : tree.carry? (.glance offset) = some edited) : edited.Spells text := by
  induction tree generalizing offset edited text with
  | node handle info children ih =>
    obtain ⟨_, rfl⟩ | ⟨_, sameInfo, sameLengths, each⟩ := carry?_glance_cases carried
    · exact spells
    obtain ⟨handle', info', children'⟩ := edited
    obtain rfl : info' = { info with changed := true } := sameInfo
    replace sameLengths : children'.map lengths = children.map lengths := sameLengths
    by_cases leaf : children = []
    · subst leaf
      obtain rfl : children' = [] := List.map_eq_nil_iff.mp sameLengths
      have measures := spells_leaf_iff.mp spells
      exact spells_leaf_iff.mpr measures
    · obtain ⟨laid, texts, all, rfl⟩ := (spells_node_iff leaf).mp spells
      have answers : (node handle info children).answer? (some (.glance offset)) = _ := carried
      have length_eq : children'.length = children.length := children_length_of_answer? answers
      refine (spells_node_iff (inner_of_length_eq length_eq leaf)).mpr
        ⟨sameLengths.symm ▸ laid, texts, ?_, rfl⟩
      refine .of_getElem? (length_eq.trans all.length_eq)
        fun index child' piece found' isPiece => ?_
      obtain ⟨child, found, spellsPiece⟩ := all.flip.getElem? isPiece
      obtain ⟨asked, again, found'', answers, glanced⟩ := each index child found
      cases found'.symm.trans found''
      cases glanced with
      | glance => exact ih child (List.mem_of_getElem? found) spellsPiece answers
      | none =>
        cases answers
        exact spellsPiece

/-- A tree in a row of trees, which spells its piece of their text and is asked to make another one
of it. -/
structure Rewritten (child : Tree) (asked : Option Share) (piece piece' : Text)
    (texts texts' : List Text) : Prop where
  spells : child.Spells piece
  rewrites : Share.Rewrites asked piece piece'
  le : piece.length ≤ texts.flatten.length
  le' : piece'.length ≤ texts'.flatten.length

variable {trees trees' : List Tree} {shares : List Share} {texts texts' : List Text}

theorem Spells.exists_rewritten (all : List.Forall₂ Spells trees texts)
    (changes : Share.RewritesAll shares texts texts') {index : Nat} {child : Tree}
    (found : trees[index]? = some child) : ∃ piece piece', texts'[index]? = some piece' ∧
      child.Rewritten shares[index]? piece piece' texts texts' := by
  obtain ⟨piece, isPiece, spells⟩ := all.getElem? found
  have within := (List.getElem?_eq_some_iff.mp isPiece).1
  have isPiece' := List.getElem?_eq_getElem (changes.length_eq.symm ▸ within)
  exact ⟨piece, _, isPiece', spells, changes.each index _ _ isPiece isPiece',
    length_le_flatten isPiece, length_le_flatten isPiece'⟩

/-- Trees in a row spell their new pieces if each of them does. -/
theorem Spells.all_of_each (all : List.Forall₂ Spells trees texts)
    (changes : Share.RewritesAll shares texts texts') (length_eq : trees'.length = trees.length)
    (each : ∀ (index : Nat) (child : Tree) piece piece', trees[index]? = some child →
      child.Rewritten shares[index]? piece piece' texts texts' →
        ∃ child' : Tree, trees'[index]? = some child' ∧ child'.Spells piece') :
    List.Forall₂ Spells trees' texts' := by
  refine .of_getElem? (length_eq.trans (all.length_eq.trans changes.length_eq.symm))
    fun index child' piece' found' isPiece' => ?_
  have within := length_eq ▸ (List.getElem?_eq_some_iff.mp found').1
  have found := List.getElem?_eq_getElem within
  obtain ⟨piece, again, isPiece'', rewritten⟩ := Spells.exists_rewritten all changes found
  cases isPiece'.symm.trans isPiece''
  obtain ⟨again, found'', spells⟩ := each index _ piece piece' found rewritten
  cases found'.symm.trans found''
  exact spells

/-- A tree that answers to its share of an edit spells its new text. -/
theorem Spells.answer? (spells : tree.Spells text) (rewrites : Share.Rewrites asked text text')
    (fits : text.length < UInt32.size) (fits' : text'.length < UInt32.size)
    (answers : tree.answer? asked = some edited) : edited.Spells text' := by
  induction tree generalizing asked edited text text' with
  | node handle info children ih =>
    match asked with
    | none =>
      cases answers
      exact rewrites ▸ spells
    | some (.glance offset) =>
      cases rewrites
      exact spells.glance answers
    | some (.part edit) =>
      obtain ⟨_, length_eq, resized, derived, shares, drawn, each⟩ := carry?_part_cases answers
      obtain ⟨handle', info', children'⟩ := edited
      by_cases leaf : children = []
      · subst leaf
        obtain rfl : children' = [] := List.length_eq_zero_iff.mp length_eq
        obtain ⟨padding, content, rfl, paddingFits, contentFits⟩ := spells_leaf_iff.mp spells
        obtain ⟨padding', size', stretches, p, s, rfl, paddingFits', contentFits'⟩ :=
          rewrites.resize? paddingFits contentFits fits fits'
        cases (resize?_of_resizedInfo (resized rfl)).symm.trans stretches
        exact spells_leaf_iff.mpr ⟨p, s, rfl, paddingFits', contentFits'⟩
      · obtain ⟨_, texts, all, rfl⟩ := (spells_node_iff leaf).mp spells
        obtain ⟨oldEnd, ends, drawn⟩ := drawn leaf
        obtain ⟨before, removed, added, after, same, rfl, start, removes, adds⟩ := rewrites
        -- The shares that were drawn are those that make up the new text.
        obtain ⟨shares', texts', drawn', changes, flat⟩ := TextEdit.shares?_rewrites
          (Spells.lengths_measures_all all) (mt List.map_eq_nil_iff.mp leaf) .zero start removes
          adds (start.add removes ends) same fits
        cases drawn.symm.trans drawn'
        rw [← flat] at fits' ⊢
        refine (spells_node_iff (inner_of_length_eq length_eq leaf)).mpr
          ⟨laidOver_of_over? (derived leaf), texts', ?_, rfl⟩
        refine Spells.all_of_each all changes length_eq
          fun index child piece piece' found rewritten => ?_
        obtain ⟨child', found', answers, _⟩ := each index child found
        exact ⟨child', found', ih child (List.mem_of_getElem? found) rewritten.spells
          rewritten.rewrites (Nat.lt_of_le_of_lt rewritten.le fits)
          (Nat.lt_of_le_of_lt rewritten.le' fits') answers⟩

/-- The tree after an edit of its text spells the new text, whose bytes can be numbered. -/
theorem Spells.revise? {edit : TextEdit} (spells : tree.Spells text)
    (rewrites : edit.Rewrites text text') (revised : tree.revise? edit = some (.ok edited)) :
    edited.Spells text' ∧ text'.length < UInt32.size := by
  obtain ⟨fits, kept | ⟨_, carried⟩⟩ := revise?_ok revised
  all_goals rw [spells.lengths_measures.bytes_eq] at fits
  · obtain ⟨isEmpty, rfl⟩ := kept
    obtain rfl := rewrites.eq_of_isEmpty isEmpty
    exact ⟨spells, fits.before⟩
  · have numbered : text'.length < UInt32.size := by
      have moved := rewrites.length_eq
      have after := fits.after
      omega
    have shared : Share.Rewrites (some (.part edit)) text text' := rewrites
    exact ⟨spells.answer? shared fits.before numbered carried, numbered⟩

end Tree

end SyntaxForest
