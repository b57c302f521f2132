import SyntaxForest.Proofs.Tree.Moves
import SyntaxForest.Proofs.Tree.Rewriting

/-! # Edits that overrun

Before an edit is carried out it is made sure that the bytes of the text can be numbered. What the
leaves tell of how far they were read is not looked at, and a leaf that has lost its text may tell
of much more than there is. Where such a leaf is moved too far the edit stops half-way; and nowhere
else does it stop, if it is told in spans of a text.
-/

namespace SyntaxForest

namespace Lengths

variable {rest children : List Lengths} {texts : List Text} {passed content : Text}

/-- A summary takes in one child after the other as long as the text fits, and what was read. -/
theorem exists_foldlM_extend? {summary : Summary} (all : List.Forall₂ Lengths.Measures rest texts)
    (total : summary.total.Measures passed) (size : summary.lengths.size.Measures content)
    (within : content.length ≤ passed.length)
    (fits : (passed ++ texts.flatten).length < UInt32.size)
    (reads : ∀ index child, rest[index]? = some child →
      passed.length + startOf rest index + child.scanned.toNat < UInt32.size) :
    ∃ last, rest.foldlM Summary.extend? summary = some last := by
  induction all generalizing summary passed content with
  | nil => exact ⟨_, rfl⟩
  | @cons child text rest texts measures _ ih =>
    rw [List.flatten_cons, ← List.append_assoc] at fits
    have longer : passed.length + text.length < UInt32.size := by
      simp only [List.length_append] at fits
      omega
    obtain ⟨reach, reached⟩ : ∃ reach, summary.total.bytes.add? child.scanned = some reach := by
      refine Word.exists_add? ?_
      rw [total.bytes]
      exact reads 0 child rfl
    obtain ⟨whole, wholeSum, wholeFits⟩ := measures.exists_total? (by omega)
    obtain ⟨size', sizeSum, sizeFits⟩ := size.exists_add? wholeFits
      (by rw [List.length_append]; omega)
    obtain ⟨total', totalSum, totalFits⟩ := total.exists_add? wholeFits
      (by rw [List.length_append]; omega)
    rw [List.foldlM_cons]
    simp only [Summary.extend?, reached, wholeSum, sizeSum, totalSum, Option.bind_eq_bind,
      Option.bind_some, Option.pure_def]
    refine ih totalFits sizeFits (by simp only [List.length_append]; omega) fits ?_
    intro index later found
    have reach := reads (index + 1) later found
    rwa [startOf_cons_succ, measures.bytes_eq, ← Nat.add_assoc, ← List.length_append] at reach

/-- The lengths of a node can be told as long as its text fits, and what was read of it. -/
theorem exists_over? (all : List.Forall₂ Lengths.Measures children texts)
    (fits : texts.flatten.length < UInt32.size)
    (reads : ∀ index child, children[index]? = some child → index ≠ 0 →
      startOf children index + child.scanned.toNat < UInt32.size) :
    ∃ lengths, over? children = some lengths := by
  cases all with
  | nil => exact ⟨_, rfl⟩
  | @cons first text rest texts measures others =>
    rw [List.flatten_cons] at fits
    have short : text.length < UInt32.size :=
      Nat.lt_of_le_of_lt (List.length_append ▸ Nat.le_add_right ..) fits
    obtain ⟨total, sum, totalFits⟩ := measures.exists_total? short
    obtain ⟨padding, content, same, _, sizeFits⟩ := id measures
    obtain ⟨last, folded⟩ : ∃ last, rest.foldlM Summary.extend? ⟨first, total⟩ = some last := by
      refine exists_foldlM_extend? others totalFits sizeFits
        (by rw [← same, List.length_append]; exact Nat.le_add_left ..) fits
        fun index child found => ?_
      have reach := reads (index + 1) child found (Nat.succ_ne_zero index)
      rwa [startOf_cons_succ, measures.bytes_eq] at reach
    exact ⟨last.finish, by simp [over?, Summary.ofFirst?, sum, folded]⟩

/-- Lengths measure as many bytes as their texts have. -/
theorem startOf_length (all : List.Forall₂ Lengths.Measures children texts) :
    startOf children children.length = texts.flatten.length := by
  induction all with
  | nil => rfl
  | cons measures _ ih =>
    rw [List.length_cons, startOf_cons_succ, ih, measures.bytes_eq, List.flatten_cons,
      List.length_append]

end Lengths

namespace Tree

variable {tree edited child : Tree} {trees : List Tree} {shares : List Share} {asked : Option Share}
  {edit : TextEdit} {text text' : Text}

theorem exists_carryAll? (each : ∀ (index : Nat) (child : Tree), trees[index]? = some child →
    ∃ child', child.answer? shares[index]? = some child') :
    ∃ trees', carryAll? shares trees = some trees' := by
  induction trees generalizing shares with
  | nil => exact ⟨[], carryAll?_nil_right shares⟩
  | cons tree trees ih =>
    cases shares with
    | nil => exact ⟨_, carryAll?_nil_left _⟩
    | cons share shares =>
      obtain ⟨first, here⟩ := each 0 tree rfl
      obtain ⟨rest, later⟩ := ih fun index child found => each (index + 1) child found
      replace here : tree.carry? share = some first := here
      exact ⟨first :: rest, by rw [carryAll?_cons, later, Option.bind_some, here, Option.map_some]⟩

theorem exists_glances? {offset start : Word} {children : List Lengths}
    (fits : start.toNat + Lengths.startOf children children.length < UInt32.size) :
    ∃ shares, glances? offset start children = some shares := by
  induction children generalizing start with
  | nil => exact ⟨_, rfl⟩
  | cons child rest ih =>
    rw [glances?]
    by_cases beyond : offset < start
    · exact ⟨_, if_pos beyond⟩
    · rw [List.length_cons, Lengths.startOf_cons_succ] at fits
      have bytesFit : child.padding.bytes.toNat + child.size.bytes.toNat < UInt32.size := by
        rw [Lengths.bytes] at fits
        omega
      obtain ⟨bytes, sum⟩ := Word.exists_add? bytesFit
      have bytesEq : child.bytes = bytes.toNat := Word.add?_eq_some_iff.mp sum
      obtain ⟨next, nextSum⟩ := Word.exists_add? (a := start) (b := bytes) (by omega)
      have nextEq := Word.add?_eq_some_iff.mp nextSum
      obtain ⟨shares, drawn⟩ : ∃ shares, glances? offset next rest = some shares := ih (by omega)
      refine ⟨.glance (offset - start) :: shares, ?_⟩
      simp [beyond, Lengths.totalBytes?, sum, nextSum, drawn]

/-- A tree can always be looked at. -/
theorem Measured.exists_glance (measured : tree.Measured) (offset : Word) :
    ∃ edited, tree.carry? (.glance offset) = some edited := by
  induction tree generalizing offset with
  | node handle info children ih =>
    by_cases past : info.lengths.scanned ≤ offset
    · exact ⟨_, carry?_glance_past past⟩
    · obtain ⟨here, below⟩ := measured
      have fits : Lengths.startOf (children.map lengths) (children.map lengths).length <
          UInt32.size := by
        by_cases leaf : children = []
        · subst leaf
          decide
        · rw [← here.bytes_eq (mt List.map_eq_nil_iff.mp leaf)]
          exact Nat.lt_of_le_of_lt here.read info.lengths.scanned.toNat_lt_size
      obtain ⟨shares, drawn⟩ : ∃ shares, glances? offset 0 (children.map lengths) = some shares :=
        exists_glances? (by rwa [UInt32.toNat_zero, Nat.zero_add])
      obtain ⟨children', each⟩ : ∃ children', carryAll? shares children = some children' := by
        refine exists_carryAll? fun index child found => ?_
        have member := List.mem_of_getElem? found
        cases share : shares[index]? with
        | none => exact ⟨child, rfl⟩
        | some share =>
          obtain ⟨offset, rfl⟩ := eq_glance_of_mem drawn (List.mem_of_getElem? share)
          exact ih child member (below child member) offset
      exact ⟨_, by rw [carry?_glance_reached past, drawn, Option.bind_some, each, Option.map_some]⟩

/-- What every leaf tells to have been read can be numbered after its share of an edit. -/
def Roomy (tree : Tree) (asked : Option Share) : Prop :=
  ∀ path place, tree.at? path = some place → place.tree.children = [] →
    Share.shift asked (Leading path) place.start + place.lengths.scanned.toNat < UInt32.size

/-- A child has the room that it needs. -/
theorem Roomy.below (roomy : tree.Roomy (some (.part edit))) (measured : tree.Measured)
    {index : Nat} (isChild : tree.children[index]? = some child)
    (asks : Asked edit (index = 0) (tree.childStart index) child.lengths.bytes asked) :
    ∀ path place, child.at? path = some place → place.tree.children = [] →
      edit.shift (index = 0) (tree.childStart index) +
        Share.shift asked (Leading path) place.start + place.lengths.scanned.toNat <
          UInt32.size := by
  intro path place found leaf
  rw [measured.shift_place isChild found asks]
  exact roomy (index :: path) _ (at?_cons_eq_some_iff.mpr ⟨child, place, isChild, found, rfl⟩) leaf

theorem Spells.within (spells : tree.Spells text) (rewrites : Share.Rewrites asked text text') :
    tree.Within asked := by
  rintro edit rfl
  obtain ⟨before, removed, added, after, rfl, _, start, removes, _⟩ := rewrites
  rw [spells.lengths_measures.bytes_eq, TextEdit.stopByte, start.bytes, removes.bytes]
  simp only [List.length_append]
  omega

/-- A node over texts hands an edit out, with room for its leaves. -/
structure HandsOut (tree : Tree) (edit : TextEdit) (shares : List Share)
    (texts texts' : List Text) : Prop where
  measured : tree.Measured
  spells : List.Forall₂ Spells tree.children texts
  changes : Share.RewritesAll shares texts texts'
  asks : ∀ (index : Nat) (child : Tree), tree.children[index]? = some child →
    Asked edit (index = 0) (tree.childStart index) child.lengths.bytes shares[index]?
  fits : texts.flatten.length < UInt32.size
  fits' : texts'.flatten.length < UInt32.size
  roomy : tree.Roomy (some (.part edit))

namespace HandsOut

variable {texts texts' : List Text} {children' : List Tree}

/-- The children carry out their shares if trees of a text do that have room. -/
theorem exists_carryAll? (handsOut : tree.HandsOut edit shares texts texts')
    (each : ∀ child ∈ tree.children, ∀ asked text text', child.Spells text →
      Share.Rewrites asked text text' → text.length < UInt32.size → text'.length < UInt32.size →
        child.Roomy asked → ∃ edited, child.answer? asked = some edited) :
    ∃ children', carryAll? shares tree.children = some children' := by
  refine Tree.exists_carryAll? fun index child found => ?_
  obtain ⟨piece, piece', _, rewritten⟩ :=
    Spells.exists_rewritten handsOut.spells handsOut.changes found
  refine each child (List.mem_of_getElem? found) _ piece piece' rewritten.spells rewritten.rewrites
    (Nat.lt_of_le_of_lt rewritten.le handsOut.fits)
    (Nat.lt_of_le_of_lt rewritten.le' handsOut.fits') fun path place deeper leaf => ?_
  have room := handsOut.roomy.below handsOut.measured found (handsOut.asks index child found)
    path place deeper leaf
  omega

theorem spells_after (handsOut : tree.HandsOut edit shares texts texts')
    (carried : carryAll? shares tree.children = some children') :
    List.Forall₂ Spells children' texts' := by
  refine Spells.all_of_each handsOut.spells handsOut.changes (carryAll?_length carried)
    fun index child piece piece' found rewritten => ?_
  obtain ⟨child', found', answers⟩ := carryAll?_getElem? carried found
  exact ⟨child', found', rewritten.spells.answer? rewritten.rewrites
    (Nat.lt_of_le_of_lt rewritten.le handsOut.fits)
    (Nat.lt_of_le_of_lt rewritten.le' handsOut.fits') answers⟩

/-- What a child was read for can be numbered where the child comes to lie. -/
theorem reads_lt (handsOut : tree.HandsOut edit shares texts texts')
    (carried : carryAll? shares tree.children = some children') {index : Nat} {child' : Tree}
    (found' : children'[index]? = some child') :
    Lengths.startOf (children'.map lengths) index + child'.lengths.scanned.toNat < UInt32.size := by
  have measured := handsOut.measured
  have stops := Lengths.end_le_length (lengths_of_child found')
  rw [Lengths.startOf_length (Spells.lengths_measures_all (handsOut.spells_after carried))] at stops
  have numbered := handsOut.fits'
  have within := carryAll?_length carried ▸ (List.getElem?_eq_some_iff.mp found').1
  have found := List.getElem?_eq_getElem within
  obtain ⟨again, found'', answers⟩ := carryAll?_getElem? carried found
  cases found'.symm.trans found''
  have asks := handsOut.asks index _ found
  have moved := startOf_of_each (fun index child found =>
    let ⟨child', found', answers⟩ := carryAll?_getElem? carried found
    ⟨child', found', answers, handsOut.asks index child found⟩)
    (fun _ member _ _ answers inside => (measured.of_mem member).tallied.grows answers inside)
    (Nat.le_of_lt within)
  change _ = edit.shift (index = 0) (tree.childStart index) at moved
  rw [moved] at stops ⊢
  -- The child has what is left of the range where it starts.
  have reach : child'.lengths.scanned.toNat ≤
      UInt32.size - 1 - edit.shift (index = 0) (tree.childStart index) := by
    refine (measured.of_child found).scanned_le_of_answer? answers
      (fun part same => (same ▸ asks).part_inside) (by omega) fun path place deeper leaf => ?_
    have room := handsOut.roomy.below measured found asks path place deeper leaf
    omega
  omega

theorem exists_over? (handsOut : tree.HandsOut edit shares texts texts')
    (carried : carryAll? shares tree.children = some children') :
    ∃ lengths, Lengths.over? (children'.map Tree.lengths) = some lengths := by
  refine Lengths.exists_over? (Spells.lengths_measures_all (handsOut.spells_after carried))
    handsOut.fits' fun index lengths found' _ => ?_
  obtain ⟨child', isChild', rfl⟩ := exists_child_of_lengths found'
  exact handsOut.reads_lt carried isChild'

end HandsOut

/-- A tree of a text carries out its share of an edit if there is room for its leaves. -/
theorem Spells.exists_answer? (spells : tree.Spells text) (measured : tree.Measured)
    (rewrites : Share.Rewrites asked text text') (fits : text.length < UInt32.size)
    (fits' : text'.length < UInt32.size) (roomy : tree.Roomy asked) :
    ∃ edited, tree.answer? asked = some edited := by
  induction tree generalizing asked text text' with
  | node handle info children ih =>
    match asked with
    | none => exact ⟨_, rfl⟩
    | some (.glance offset) => exact measured.exists_glance offset
    | some (.part edit) =>
      by_cases leaf : children = []
      · subst leaf
        obtain ⟨p, s, rfl, paddingFits, contentFits⟩ := spells.lengths_measures
        obtain ⟨padding', size', stretches, p', s', rfl, paddingFits', contentFits'⟩ :=
          TextEdit.Rewrites.resize? rewrites paddingFits contentFits fits fits'
        obtain ⟨bytes, sum⟩ := Word.exists_add? (a := padding'.bytes) (b := size'.bytes)
          (by rwa [paddingFits'.bytes, contentFits'.bytes, ← List.length_append])
        replace stretches : edit.resize? info.lengths.padding info.lengths.size = _ := stretches
        change ∃ edited, carry? (.part edit) (node handle info []) = some edited
        rw [carry?_part_leaf]
        simp [Pool.resizedInfo, stretches, Lengths.cover?, Lengths.totalBytes?, sum]
      · obtain ⟨p, s, same, paddingFits, contentFits⟩ := spells.lengths_measures
        obtain ⟨padding', size', stretches, _⟩ :=
          TextEdit.Rewrites.resize? (same ▸ rewrites) paddingFits contentFits (same ▸ fits) fits'
        obtain ⟨_, texts, all, rfl⟩ := (spells_node_iff leaf).mp spells
        obtain ⟨before, removed, added, after, same, rfl, start, removes, adds⟩ := rewrites
        obtain ⟨oldEnd, ends, endsThere⟩ := start.exists_add? removes (by
          rw [same, List.length_append] at fits
          omega)
        obtain ⟨shares, texts', drawn, changes, flat⟩ := TextEdit.shares?_rewrites
          (Spells.lengths_measures_all all) (mt List.map_eq_nil_iff.mp leaf) .zero start removes
          adds endsThere same fits
        have handsOut : HandsOut (node handle info children) edit shares texts texts' :=
          ⟨measured, all, changes, fun _ _ => asked_of_shares? ends drawn, fits, flat ▸ fits',
            roomy⟩
        obtain ⟨children', carried⟩ := handsOut.exists_carryAll?
          fun child member _ _ _ spells rewrites fits fits' =>
            ih child member spells (measured.of_mem member) rewrites fits fits'
        obtain ⟨lengths, gathered⟩ := handsOut.exists_over? carried
        replace stretches : edit.resize? info.lengths.padding info.lengths.size = _ := stretches
        replace ends : edit.oldEnd? = some oldEnd := ends
        replace carried : carryAll? shares children = some children' := carried
        change ∃ edited, carry? (.part edit) (node handle info children) = some edited
        rw [carry?_part_node edit leaf]
        simp only [Pool.resizedInfo, stretches, ends, drawn, carried, gathered, Option.bind_eq_bind,
          Option.bind_some, Option.pure_def, Option.map_some, Bool.false_eq_true, if_false]
        exact ⟨_, rfl⟩

/-- The edit moves a leaf so far that the byte up to which it was read cannot be numbered. -/
def Overruns (tree : Tree) (edit : TextEdit) : Prop :=
  ∃ path place, tree.at? path = some place ∧ place.tree.children = [] ∧
    UInt32.size ≤ edit.shift (Leading path) place.start + place.lengths.scanned.toNat

theorem roomy_iff : tree.Roomy (some (.part edit)) ↔ ¬ tree.Overruns edit := by
  simp only [Roomy, Overruns, not_exists, not_and, Nat.not_le]
  rfl

/-- An edit that is carried out overruns nothing. -/
theorem Measured.not_overruns (measured : tree.Measured)
    (inside : edit.stopByte ≤ tree.lengths.bytes)
    (carried : tree.carry? (.part edit) = some edited) : ¬ tree.Overruns edit := by
  rintro ⟨path, place, found, leaf, beyond⟩
  have answers : tree.answer? (some (.part edit)) = some edited := carried
  have within : tree.Within (some (.part edit)) := by
    rintro _ ⟨⟩
    exact inside
  obtain ⟨place', part, found', starts, stays⟩ := measured.place_of_answer? answers within found
  have reach := (measured.answer? answers).read_le found'
  have scanned := (scanned_of_leaf stays leaf).1
  have numbered := edited.lengths.scanned.toNat_lt_size
  simp only [Place.read, Place.lengths, Share.shift] at reach starts beyond
  omega

/-- An edit without bytes overruns nothing. -/
theorem Measured.not_overruns_of_isEmpty (measured : tree.Measured)
    (isEmpty : edit.isEmpty = true) : ¬ tree.Overruns edit := by
  rintro ⟨path, place, found, _, beyond⟩
  obtain ⟨noneRemoved, noneAdded⟩ := Bool.and_eq_true_iff.mp isEmpty
  have removed : edit.removed.bytes.toNat = 0 :=
    congrArg UInt32.toNat (of_decide_eq_true noneRemoved)
  have added : edit.added.bytes.toNat = 0 := congrArg UInt32.toNat (of_decide_eq_true noneAdded)
  have stays : edit.shift (Leading path) place.start = place.start := by
    rcases edit.shift_cases (Leading path) place.start with ⟨_, same⟩ | ⟨_, past, moved⟩
    · exact same
    · rw [moved, removed, added]
      omega
  have reach := measured.read_le found
  have numbered := tree.lengths.scanned.toNat_lt_size
  rw [stays] at beyond
  exact Nat.not_lt.mpr (Nat.le_trans beyond reach) numbered

/-- An edit of a tree of a text is refused if it does not fit the text; of the others it stops those
that overrun. -/
theorem Spells.revise?_cases (spells : tree.Spells text) (measured : tree.Measured)
    (rewrites : edit.Fits text.length → ∃ text', edit.Rewrites text text') :
    match tree.revise? edit with
    | some (.ok _) => edit.Fits tree.lengths.bytes ∧ ¬ tree.Overruns edit
    | some (.error _) => ¬ edit.Fits tree.lengths.bytes
    | none => edit.Fits tree.lengths.bytes ∧ tree.Overruns edit := by
  have bytes := spells.lengths_measures.bytes_eq
  have whole : tree.lengths.bytes < UInt32.size :=
    Nat.lt_of_le_of_lt measured.here.read tree.lengths.scanned.toNat_lt_size
  split
  case h_1 edited revised =>
    obtain ⟨fits, ⟨isEmpty, _⟩ | ⟨_, carried⟩⟩ := revise?_ok revised
    · exact ⟨fits, measured.not_overruns_of_isEmpty isEmpty⟩
    · exact ⟨fits, measured.not_overruns fits.inside carried⟩
  case h_2 refused => exact revise?_error refused
  case h_3 stopped =>
    obtain ⟨fits, stopped⟩ := revise?_eq_none whole stopped
    refine ⟨fits, by_contra fun clear => ?_⟩
    rw [bytes] at fits
    obtain ⟨text', rewrites⟩ := rewrites fits
    have numbered : text'.length < UInt32.size := by
      have moved := rewrites.length_eq
      have after := fits.after
      omega
    have shared : Share.Rewrites (some (.part edit)) text text' := rewrites
    obtain ⟨edited, carried⟩ :=
      spells.exists_answer? measured shared fits.before numbered (roomy_iff.mpr clear)
    cases stopped.symm.trans carried

end Tree

end SyntaxForest
