import SyntaxForest.Proofs.Tree.Revise

/-! # Which places an edit flags

A place that starts no later than an edit is flagged where its text was read past the start of the
edit. A place that starts inside the removed text is flagged where a part of the edit gets to it. No
part does if a tree above the place has text and ends right there: the removal that is handed down
is clipped to that tree, and is used up before the place is met.
-/

namespace SyntaxForest

namespace Tree

variable {tree edited child : Tree} {edit : TextEdit} {share : Share} {asked : Option Share}
  {index : Nat} {path : List Nat} {place : Place}

theorem changed_of_carry? (carried : tree.carry? share = some edited)
    (before : tree.info.changed = true) : edited.info.changed = true := by
  cases share with
  | part edit => exact (carry?_part_cases carried).1
  | glance offset =>
    obtain ⟨_, rfl⟩ | ⟨_, info, _⟩ := carry?_glance_cases carried
    · exact before
    · rw [info]

/-- Every place is still there, and no flag is taken back. -/
theorem exists_place_of_answer? (answers : tree.answer? asked = some edited)
    (found : tree.at? path = some place) :
    ∃ place', edited.at? path = some place' ∧ (place.changed = true → place'.changed = true) := by
  induction path generalizing tree edited asked place with
  | nil =>
    cases found
    refine ⟨_, rfl, fun before => ?_⟩
    cases asked with
    | none =>
      cases answers
      exact before
    | some share => exact changed_of_carry? answers before
  | cons index path ih =>
    obtain ⟨child, below, isChild, deeper, rfl⟩ := at?_cons_eq_some_iff.mp found
    obtain ⟨_, child', isChild', answers'⟩ := exists_child_of_answer? answers isChild
    obtain ⟨below', deeper', keeps⟩ := ih answers' deeper
    exact ⟨_, at?_cons_eq_some_iff.mpr ⟨child', below', isChild', deeper', rfl⟩, keeps⟩

/-- What was read past the start of the edit is flagged. -/
theorem Measured.flags_read (measured : tree.Measured) (carried : tree.carry? share = some edited)
    (found : tree.at? path = some place) (near : place.start ≤ share.startByte)
    (reads : share.startByte < place.read) :
    ∃ place', edited.at? path = some place' ∧ place'.changed = true := by
  induction path generalizing tree edited share place with
  | nil =>
    cases found
    refine ⟨_, rfl, ?_⟩
    cases share with
    | part edit => exact (carry?_part_cases carried).1
    | glance offset =>
      obtain ⟨past, _⟩ | ⟨_, info, _⟩ := carry?_glance_cases carried
      · have le := UInt32.le_iff_toNat_le.mp past
        simp only [Place.read, Place.lengths, Share.startByte] at reads
        omega
      · exact congrArg NodeInfo.changed info
  | cons index path ih =>
    obtain ⟨child, below, isChild, deeper, rfl⟩ := at?_cons_eq_some_iff.mp found
    have readHere := measured.read_le found
    obtain ⟨asked, child', isChild', answers, share', rfl, starts⟩ : ∃ asked child',
        edited.children[index]? = some child' ∧ child.answer? asked = some child' ∧
          ∃ share', asked = some share' ∧
            share'.startByte = share.startByte - tree.childStart index := by
      have close : tree.childStart index ≤ share.startByte :=
        Nat.le_trans (Nat.le_add_right ..) near
      cases share with
      | part edit =>
        obtain ⟨_, _, _, _, shares, _, each⟩ := carry?_part_cases carried
        obtain ⟨child', place, answers, asks⟩ := each index child isChild
        exact ⟨_, child', place, answers, asks.exists_of_le close⟩
      | glance offset =>
        obtain ⟨past, _⟩ | ⟨_, _, _, each⟩ := carry?_glance_cases carried
        · have le := UInt32.le_iff_toNat_le.mp past
          simp only [Share.startByte] at reads
          omega
        · obtain ⟨asked, child', place, answers, glanced⟩ := each index child isChild
          exact ⟨_, child', place, answers, glanced.exists_of_le close⟩
    simp only [Place.read, Place.lengths] at near reads
    obtain ⟨below', deeper', flagged⟩ := ih (measured.of_child isChild) answers deeper
      (by omega) (by simp only [Place.read, Place.lengths]; omega)
    exact ⟨_, at?_cons_eq_some_iff.mpr ⟨child', below', isChild', deeper', rfl⟩, flagged⟩

/-! ## Places inside the removed text -/

/-- A tree on the way down the path has text and ends at this byte. -/
def EndsAbove (tree : Tree) (path : List Nat) (byte : Nat) : Prop :=
  ∃ above ancestor, above <+: path ∧ above ≠ path ∧ tree.at? above = some ancestor ∧
    ancestor.start < byte ∧ ancestor.stop = byte

theorem not_endsAbove_nil (byte : Nat) : ¬ tree.EndsAbove [] byte := by
  rintro ⟨above, _, start, other, _⟩
  exact other (List.prefix_nil.mp start)

theorem not_endsAbove_zero : ¬ tree.EndsAbove path 0 := by
  rintro ⟨_, _, _, _, _, before, _⟩
  exact Nat.not_lt_zero _ before

theorem endsAbove_cons_iff {byte : Nat} (isChild : tree.children[index]? = some child) :
    tree.EndsAbove (index :: path) (tree.childStart index + byte) ↔
      0 < tree.lengths.bytes ∧ tree.lengths.bytes = tree.childStart index + byte ∨
        child.EndsAbove path byte := by
  constructor
  · rintro ⟨above, ancestor, start, other, found, before, stop⟩
    rcases List.prefix_cons_iff.mp start with rfl | ⟨above, rfl, start⟩
    · cases found
      simp only [Place.stop, Place.lengths, Nat.zero_add] at before stop
      exact .inl ⟨stop ▸ before, stop⟩
    · obtain ⟨child', below, isChild', deeper, rfl⟩ := at?_cons_eq_some_iff.mp found
      cases isChild.symm.trans isChild'
      simp only [Place.stop, Place.lengths] at before stop
      refine .inr ⟨above, below, (List.cons_prefix_cons.mp start).2, fun same => other (same ▸ rfl),
        deeper, ?_, ?_⟩
      · omega
      · simp only [Place.stop, Place.lengths]
        omega
  · rintro (⟨text, stop⟩ | ⟨above, below, start, other, deeper, before, stop⟩)
    · refine ⟨[], _, List.nil_prefix, (List.cons_ne_nil index path).symm, rfl, stop ▸ text, ?_⟩
      simpa only [Place.stop, Place.lengths, Nat.zero_add] using stop
    · refine ⟨index :: above, _, List.cons_prefix_cons.mpr ⟨rfl, start⟩,
        fun same => other (List.cons.inj same).2,
        at?_cons_eq_some_iff.mpr ⟨child, below, isChild, deeper, rfl⟩, ?_, ?_⟩
      · exact Nat.add_lt_add_left before _
      · simp only [Place.stop, Place.lengths] at stop ⊢
        omega

/-- Where a child starts before its parent ends, or with it, nothing but the child and the trees in
it can end at a place below. -/
theorem Measured.endsAbove_cons_iff (measured : tree.Measured)
    (isChild : tree.children[index]? = some child) (deeper : child.at? path = some place)
    (enters : tree.childStart index < tree.lengths.bytes ∨ tree.childStart index = 0) :
    tree.EndsAbove (index :: path) (tree.childStart index + place.start) ↔
      child.EndsAbove path place.start := by
  rw [Tree.endsAbove_cons_iff isChild, or_iff_right_iff_imp]
  rintro ⟨text, stop⟩
  have childInside := measured.child_stop_le isChild
  have placeInside := (measured.of_child isChild).stop_le deeper
  simp only [Place.stop, Place.lengths] at placeInside
  have later : 0 < place.start := by omega
  refine ⟨[], _, List.nil_prefix, ?_, rfl, later, ?_⟩
  · rintro rfl
    cases deeper
    exact Nat.lt_irrefl _ later
  · simp only [Place.stop, Place.lengths]
    omega

/-- A place that starts inside the removed text and was read at all is flagged, unless a tree above
it has text and ends right there. Here the removal may have been clipped to the tree: `stop` is
where it ends for the trees around it. A tree that starts inside the removal has it start at
zero. -/
theorem Measured.flags_inside_iff (measured : tree.Measured)
    (carried : tree.carry? (.part edit) = some edited) {stop : Nat}
    (clipped : edit.stopByte = min stop tree.lengths.bytes) (found : tree.at? path = some place)
    (after : edit.startByte < place.start ∨ edit.startByte = 0) (before : place.start < stop)
    (reads : place.start < place.read) :
    ∃ place', edited.at? path = some place' ∧ (place'.changed = true ↔
      place.changed = true ∨ ¬ tree.EndsAbove path place.start) := by
  induction path generalizing tree edited edit place stop with
  | nil =>
    cases found
    have flagged := (carry?_part_cases carried).1
    exact ⟨_, rfl, by simp [Place.changed, flagged, not_endsAbove_nil]⟩
  | cons index path ih =>
    obtain ⟨child, below, isChild, deeper, rfl⟩ := at?_cons_eq_some_iff.mp found
    obtain ⟨_, _, _, _, shares, _, each⟩ := carry?_part_cases carried
    obtain ⟨child', isChild', answers, asks⟩ := each index child isChild
    generalize shares[index]? = asked at answers asks
    have lifts {below' : Place} (deeper' : child'.at? path = some below') :=
      at?_cons_eq_some_iff.mpr ⟨child', below', isChild', deeper', rfl⟩
    have childMeasured := measured.of_child isChild
    have childInside := measured.child_stop_le isChild
    have belowInside := childMeasured.stop_le deeper
    have ordered := edit.startByte_le_stopByte
    simp only [Place.stop, Place.read, Place.lengths] at belowInside after before reads
    cases asks with
    | part part reached inside starts stops =>
      -- The end of the removal, seen from the child, is clipped to the child as well.
      have clipped' : part.stopByte = min (stop - tree.childStart index) child.lengths.bytes := by
        omega
      obtain ⟨below', deeper', same⟩ := ih childMeasured answers clipped' deeper
        (by omega) (by omega) (by simp only [Place.read, Place.lengths]; omega)
      refine ⟨_, lifts deeper', ?_⟩
      rw [measured.endsAbove_cons_iff isChild deeper ?_]
      · exact same
      · rcases inside with inside | rfl
        · omega
        · exact .inr (Lengths.startOf_zero _)
    | glance offset starts near apart =>
      -- Nothing is left of the removal before its end: the tree has no text.
      have none : tree.childStart index + below.start = 0 := by omega
      obtain ⟨below', deeper', flagged⟩ := childMeasured.flags_read answers deeper
        (by simp only [Share.startByte]; omega)
        (by simp only [Share.startByte, Place.read, Place.lengths]; omega)
      refine ⟨_, lifts deeper', ?_⟩
      simp only [none, not_endsAbove_zero, not_false_eq_true, or_true, iff_true]
      exact flagged
    | none beyond apart =>
      cases answers
      refine ⟨_, lifts deeper, (or_iff_left (not_not_intro ?_)).symm⟩
      exact (Tree.endsAbove_cons_iff isChild).mpr (.inl (by omega))

end Tree

end SyntaxForest
