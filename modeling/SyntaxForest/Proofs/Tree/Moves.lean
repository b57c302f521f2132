import SyntaxForest.Proofs.Tree.Revise
import SyntaxForest.Proofs.Tree.Tallied

/-! # Where an edit moves places

An edit moves what starts with it or after it, by as much as the text before grows or shrinks, and
leaves what starts before it. What starts the whole text stays there, whatever is put in before it.
Every node of the tree is moved as its text is, no matter how deep it lies, and what is told of how
far the leaves were read moves along with them.
-/

namespace SyntaxForest

namespace TextEdit

variable {edit : TextEdit} {padding size padding' size' : Span}

/-- The byte at which something starts after the edit, if it started at this byte before; `leads`
tells whether there is nothing before it. -/
def shift (edit : TextEdit) (leads : Prop) [Decidable leads] (start : Nat) : Nat :=
  if leads ∨ start < edit.startByte then start
  else max edit.startByte (start - edit.removed.bytes.toNat) + edit.added.bytes.toNat

theorem shift_of_leads (edit : TextEdit) {leads : Prop} [Decidable leads] (does : leads)
    (start : Nat) : edit.shift leads start = start :=
  if_pos (.inl does)

theorem shift_cases (edit : TextEdit) (leads : Prop) [Decidable leads] (start : Nat) :
    (leads ∨ start < edit.startByte) ∧ edit.shift leads start = start ∨
      ¬ leads ∧ edit.startByte ≤ start ∧ edit.shift leads start =
        max edit.startByte (start - edit.removed.bytes.toNat) + edit.added.bytes.toNat := by
  rw [shift]
  split
  case isTrue stays => exact .inl ⟨stays, rfl⟩
  case isFalse moves =>
    obtain ⟨follows, reached⟩ := not_or.mp moves
    exact .inr ⟨follows, Nat.not_lt.mp reached, rfl⟩

theorem shift_of_follows (edit : TextEdit) {leads : Prop} [Decidable leads] (follows : ¬ leads)
    (start : Nat) : start < edit.startByte ∧ edit.shift leads start = start ∨
      edit.startByte ≤ start ∧ edit.shift leads start =
        max edit.startByte (start - edit.removed.bytes.toNat) + edit.added.bytes.toNat := by
  rcases edit.shift_cases leads start with ⟨stays, same⟩ | ⟨_, moves⟩
  · exact .inl ⟨stays.resolve_left follows, same⟩
  · exact .inr moves

/-- A node that an edit lies within grows by what is added and shrinks by what is removed. -/
theorem bytes_of_resize? (resized : edit.resize? padding size = some (padding', size'))
    (inside : edit.stopByte ≤ padding.bytes.toNat + size.bytes.toNat) :
    padding'.bytes.toNat + size'.bytes.toNat + edit.removed.bytes.toNat =
      padding.bytes.toNat + size.bytes.toNat + edit.added.bytes.toNat := by
  have total := edit.cut.resize_total inside
  rwa [resize_of_resize? resized] at total

end TextEdit

namespace Share

/-- Where something in a child starts after the share of the child. -/
def shift (asked : Option Share) (leads : Prop) [Decidable leads] (start : Nat) : Nat :=
  match asked with
  | some (.part edit) => edit.shift leads start
  | _ => start

theorem shift_of_leads (asked : Option Share) {leads : Prop} [Decidable leads] (does : leads)
    (start : Nat) : shift asked leads start = start := by
  match asked with
  | some (.part edit) => exact edit.shift_of_leads does start
  | some (.glance _) | none => rfl

/-- How the bytes of a child change by its share. -/
def Grows (asked : Option Share) (bytes bytes' : Nat) : Prop :=
  match asked with
  | some (.part edit) => bytes' + edit.removed.bytes.toNat = bytes + edit.added.bytes.toNat
  | _ => bytes' = bytes

end Share

namespace Asked

variable {edit : TextEdit} {start bytes bytes' index : Nat} {asked : Option Share}

theorem part_inside {part : TextEdit} {first : Prop}
    (asks : Asked edit first start bytes (some (.part part))) : part.stopByte ≤ bytes := by
  cases asks with
  | part => omega

/-- A child that carries a part of an edit stays where it is and takes the inserted text, or is moved
and takes none of it. What it loses is what is removed of it. -/
theorem part_cases {part : TextEdit} (asks : Asked edit (index = 0) start bytes (some (.part part)))
    (first : index = 0 → start = 0) :
    (start ≤ edit.startByte ∧ edit.shift (index = 0) start = start ∧
        part.startByte = edit.startByte - start ∧ part.added.bytes.toNat = edit.added.bytes.toNat ∧
          part.removed.bytes.toNat = min edit.stopByte (start + bytes) - edit.startByte) ∨
      edit.startByte ≤ start ∧ edit.shift (index = 0) start =
          max edit.startByte (start - edit.removed.bytes.toNat) + edit.added.bytes.toNat ∧
        part.startByte = 0 ∧ part.added.bytes.toNat = 0 ∧
          part.removed.bytes.toNat = min edit.stopByte (start + bytes) - start := by
  cases asks with
  | part _ reached inside starts stops takes bare =>
    have removed : part.removed.bytes.toNat =
        min edit.stopByte (start + bytes) - start - part.startByte := by
      rw [← stops]
      exact (Nat.add_sub_cancel_left ..).symm
    rcases edit.shift_cases (index = 0) start with ⟨stays, same⟩ | ⟨follows, past, moved⟩
    · have near : start ≤ edit.startByte := by omega
      refine .inl ⟨near, same, starts, by rw [takes stays.symm], ?_⟩
      rw [removed, starts, Nat.sub_sub, Nat.add_sub_cancel' near]
    · have none : part.startByte = 0 := starts.trans (Nat.sub_eq_zero_of_le past)
      refine .inr ⟨past, moved, none, ?_, by rw [removed, none, Nat.sub_zero]⟩
      rw [bare (not_or_intro (Nat.not_lt.mpr past) follows)]
      rfl

/-- What follows a child moves as far as the child does, and as the child grows. -/
theorem shift_next (asks : Asked edit (index = 0) start bytes asked) (first : index = 0 → start = 0)
    (grows : Share.Grows asked bytes bytes') :
    edit.shift (index = 0) start + bytes' = edit.shift (index + 1 = 0) (start + bytes) := by
  have next := edit.shift_of_follows (Nat.add_one_ne_zero index) (start + bytes)
  cases asks with
  | part part reached inside starts stops takes bare =>
    rw [(next.resolve_left fun early => Nat.not_lt.mpr reached early.1).2]
    simp only [Share.Grows] at grows
    rcases (Asked.part part reached inside starts stops takes bare).part_cases first with
      ⟨near, here, _, added, removed⟩ | ⟨past, here, _, added, removed⟩
    all_goals
      rw [here]
      rw [added, removed] at grows
      clear next here added removed starts stops takes bare inside first
      simp only [TextEdit.stopByte, TextEdit.startByte] at *
      omega
  | glance offset starts near apart =>
    have here := edit.shift_cases (index = 0) start
    generalize edit.shift (index = 0) start = moved at here ⊢
    simp only [Share.Grows, TextEdit.startByte, TextEdit.stopByte] at *
    omega
  | none beyond apart =>
    have here := edit.shift_cases (index = 0) start
    generalize edit.shift (index = 0) start = moved at here ⊢
    simp only [Share.Grows, TextEdit.startByte, TextEdit.stopByte] at *
    omega

/-- A place in a child moves with the child, and in it. -/
theorem shift_within {leads : Prop} [Decidable leads] {within : Nat}
    (asks : Asked edit (index = 0) start bytes asked) (first : index = 0 → start = 0)
    (inside : within ≤ bytes) (leading : leads → within = 0) :
    edit.shift (index = 0) start + Share.shift asked leads within =
      edit.shift (index = 0 ∧ leads) (start + within) := by
  by_cases does : leads
  · obtain rfl := leading does
    rw [Share.shift_of_leads asked does, Nat.add_zero, Nat.add_zero]
    simp only [TextEdit.shift, does, and_true]
  have whole := edit.shift_of_follows (not_and_of_not_right (index = 0) does) (start + within)
  generalize edit.shift (index = 0 ∧ leads) (start + within) = movedWithin at whole ⊢
  cases asks with
  | part part reached inside' starts stops takes bare =>
    have below := part.shift_of_follows does within
    change edit.shift (index = 0) start + part.shift leads within = movedWithin
    generalize part.shift leads within = movedBelow at below ⊢
    rcases (Asked.part part reached inside' starts stops takes bare).part_cases first with
      ⟨near, here, starts', added, removed⟩ | ⟨past, here, starts', added, removed⟩
    · rw [here]
      clear here starts stops takes bare first leading
      rcases below with ⟨early, same⟩ | ⟨late, same⟩
      · rw [same, (whole.resolve_right (by omega)).2]
      · rw [same, (whole.resolve_left (by omega)).2, added, removed, starts', ← Nat.add_assoc]
        clear whole same added removed starts'
        simp only [TextEdit.stopByte, TextEdit.startByte] at *
        omega
    · rw [here, (below.resolve_left (by omega)).2, (whole.resolve_left (by omega)).2, added,
        removed, starts']
      clear here below whole starts stops takes bare first leading
      simp only [TextEdit.stopByte, TextEdit.startByte] at *
      omega
  | glance offset starts near apart =>
    have here := edit.shift_cases (index = 0) start
    change edit.shift (index = 0) start + within = movedWithin
    generalize edit.shift (index = 0) start = moved at here ⊢
    simp only [TextEdit.startByte, TextEdit.stopByte] at *
    omega
  | none beyond apart =>
    have here := edit.shift_cases (index = 0) start
    change edit.shift (index = 0) start + within = movedWithin
    generalize edit.shift (index = 0) start = moved at here ⊢
    simp only [TextEdit.startByte, TextEdit.stopByte] at *
    omega

end Asked

namespace Tree

variable {tree edited child : Tree} {asked : Option Share} {edit : TextEdit} {index : Nat}
  {path : List Nat} {place : Place}

/-- Each child moves as far as the children before it grow. -/
theorem startOf_shift {children children' : List Lengths}
    (each : ∀ index child, children[index]? = some child → ∃ child' asked,
      children'[index]? = some child' ∧ Share.Grows asked child.bytes child'.bytes ∧
        Asked edit (index = 0) (Lengths.startOf children index) child.bytes asked)
    (within : index ≤ children.length) :
    Lengths.startOf children' index = edit.shift (index = 0) (Lengths.startOf children index) := by
  induction index with
  | zero => rw [Lengths.startOf_zero, Lengths.startOf_zero, edit.shift_of_leads rfl]
  | succ index ih =>
    have found := List.getElem?_eq_getElem (Nat.lt_of_succ_le within)
    obtain ⟨child', asked, found', grows, asks⟩ := each index _ found
    rw [Lengths.startOf_succ found', Lengths.startOf_succ found, ih (Nat.le_of_succ_le within)]
    exact asks.shift_next (fun first => first ▸ Lengths.startOf_zero children) grows

/-- The edit, if it is a part of one that a tree is asked for, lies within the tree. -/
def Within (tree : Tree) (asked : Option Share) : Prop :=
  ∀ edit, asked = some (.part edit) → edit.stopByte ≤ tree.lengths.bytes

/-- Trees in a row move as they grow by their shares. -/
theorem startOf_of_each {trees trees' : List Tree} {shares : List Share}
    (each : ∀ index child, trees[index]? = some child → ∃ child', trees'[index]? = some child' ∧
      child.answer? shares[index]? = some child' ∧ Asked edit (index = 0)
        (Lengths.startOf (trees.map lengths) index) child.lengths.bytes shares[index]?)
    (grows : ∀ child ∈ trees, ∀ asked child', child.answer? asked = some child' →
      child.Within asked → Share.Grows asked child.lengths.bytes child'.lengths.bytes)
    (within : index ≤ trees.length) : Lengths.startOf (trees'.map lengths) index =
      edit.shift (index = 0) (Lengths.startOf (trees.map lengths) index) := by
  refine startOf_shift (fun index _ found => ?_) (by rwa [List.length_map])
  obtain ⟨child, isChild, rfl⟩ := exists_child_of_lengths found
  obtain ⟨child', isChild', answers, asks⟩ := each index child isChild
  exact ⟨_, _, lengths_of_child isChild', grows child (List.mem_of_getElem? isChild) _ _ answers
    fun part same => (same ▸ asks).part_inside, asks⟩

/-- A tree that an edit lies within grows by what is added and shrinks by what is removed. -/
theorem Tallied.grows (tallied : tree.Tallied) (answers : tree.answer? asked = some edited)
    (inside : tree.Within asked) :
    Share.Grows asked tree.lengths.bytes edited.lengths.bytes := by
  induction tree using induct_below generalizing asked edited with
  | step tree ih =>
    match asked with
    | none =>
      cases answers
      rfl
    | some (.glance offset) => exact congrArg Lengths.bytes (lengths_of_glance answers)
    | some (.part edit) =>
      have stops := inside edit rfl
      obtain ⟨_, length_eq, resized, derived, shares, _, each⟩ := carry?_part_cases answers
      by_cases leaf : tree.children = []
      · exact TextEdit.bytes_of_resize? (resize?_of_resizedInfo (resized leaf)) stops
      · have moved := startOf_of_each each (fun child member _ _ answers inside =>
          ih child member (tallied.of_mem member) answers inside)
          (Nat.le_refl _)
        have before := tallied.here leaf
        have after := Lengths.bytes_of_over? (derived leaf)
        rw [List.length_map, length_eq] at after
        rw [← after, ← childStart, ← before] at moved
        have shifts := edit.shift_of_follows (mt List.length_eq_zero_iff.mp leaf) tree.lengths.bytes
        rw [← moved] at shifts
        simp only [Share.Grows, TextEdit.startByte, TextEdit.stopByte] at *
        omega

theorem Tallied.childStart_of_carry? (tallied : tree.Tallied)
    (carried : tree.carry? (.part edit) = some edited) (within : index ≤ tree.children.length) :
    edited.childStart index = edit.shift (index = 0) (tree.childStart index) := by
  obtain ⟨_, _, _, _, shares, _, each⟩ := carry?_part_cases carried
  exact startOf_of_each each
    (fun _ member _ _ answers inside => (tallied.of_mem member).grows answers inside) within

/-! ## Places -/

/-- The path leads through first children only. -/
def Leading (path : List Nat) : Prop := ∀ index ∈ path, index = 0

instance (path : List Nat) : Decidable (Leading path) :=
  inferInstanceAs (Decidable (∀ index ∈ path, index = 0))

theorem leading_cons_iff : Leading (index :: path) ↔ index = 0 ∧ Leading path :=
  List.forall_mem_cons

theorem start_of_leading (found : tree.at? path = some place) (leading : Leading path) :
    place.start = 0 := by
  induction path generalizing tree place with
  | nil =>
    cases found
    rfl
  | cons index path ih =>
    obtain ⟨first, leading⟩ := leading_cons_iff.mp leading
    obtain ⟨child, below, _, deeper, rfl⟩ := at?_cons_eq_some_iff.mp found
    exact Nat.add_eq_zero_iff.mpr ⟨tree.childStart_eq_zero first, ih deeper leading⟩

/-- An edit makes no places. -/
theorem exists_place_before (answers : tree.answer? asked = some edited)
    (found : edited.at? path = some place) : ∃ place, tree.at? path = some place := by
  induction path generalizing tree edited asked place with
  | nil => exact ⟨_, rfl⟩
  | cons index path ih =>
    obtain ⟨child', below, isChild', deeper, rfl⟩ := at?_cons_eq_some_iff.mp found
    obtain ⟨_, child, isChild, answers'⟩ := exists_child_before answers isChild'
    obtain ⟨place, before⟩ := ih answers' deeper
    exact ⟨_, at?_cons_eq_some_iff.mpr ⟨_, place, isChild, before, rfl⟩⟩

/-- A leaf is told to be read as far as before, and to its end at least if it was changed. -/
theorem scanned_of_leaf (answers : tree.answer? asked = some edited) (leaf : tree.children = []) :
    tree.lengths.scanned.toNat ≤ edited.lengths.scanned.toNat ∧
      edited.lengths.scanned.toNat ≤ max tree.lengths.scanned.toNat edited.lengths.bytes := by
  match asked with
  | none =>
    cases answers
    exact ⟨Nat.le_refl _, Nat.le_max_left ..⟩
  | some (.glance offset) =>
    rw [lengths_of_glance answers]
    exact ⟨Nat.le_refl _, Nat.le_max_left ..⟩
  | some (.part edit) =>
    obtain ⟨_, _, resized, _⟩ := carry?_part_cases answers
    obtain ⟨⟨padding, size⟩, _, covers⟩ := Option.bind_eq_some_iff.mp (resized leaf)
    obtain ⟨lengths, covers, finished⟩ := Option.bind_eq_some_iff.mp covers
    obtain ⟨bytes, sum, rfl⟩ := Option.map_eq_some_iff.mp covers
    have same : edited.lengths = ⟨padding, size, max tree.lengths.scanned bytes⟩ :=
      (congrArg NodeInfo.lengths (Option.some.inj finished)).symm
    have bytesEq : padding.bytes.toNat + size.bytes.toNat = bytes.toNat :=
      Word.add?_eq_some_iff.mp sum
    rw [same, Word.toNat_max, Lengths.bytes, bytesEq]
    exact ⟨Nat.le_max_left .., Nat.le_refl _⟩

/-- Where a place in a child comes to lie. -/
theorem Measured.shift_place (measured : tree.Measured)
    (isChild : tree.children[index]? = some child) (found : child.at? path = some place)
    (asks : Asked edit (index = 0) (tree.childStart index) child.lengths.bytes asked) :
    edit.shift (index = 0) (tree.childStart index) + Share.shift asked (Leading path) place.start =
      edit.shift (Leading (index :: path)) (tree.childStart index + place.start) := by
  have inside := (measured.of_child isChild).stop_le found
  rw [asks.shift_within tree.childStart_eq_zero (Nat.le_trans (Nat.le_add_right ..) inside)
    (start_of_leading found)]
  simp only [TextEdit.shift, leading_cons_iff]

/-- Every place moves with its text, and stays what it is. -/
theorem Measured.place_of_answer? (measured : tree.Measured)
    (answers : tree.answer? asked = some edited) (inside : tree.Within asked)
    (found : tree.at? path = some place) : ∃ place' part, edited.at? path = some place' ∧
      place'.start = Share.shift asked (Leading path) place.start ∧
        place.tree.answer? part = some place'.tree := by
  induction path generalizing tree edited asked place with
  | nil =>
    cases found
    exact ⟨_, asked, rfl, (Share.shift_of_leads asked nofun 0).symm, answers⟩
  | cons index path ih =>
    obtain ⟨child, below, isChild, deeper, rfl⟩ := at?_cons_eq_some_iff.mp found
    have childMeasured := measured.of_child isChild
    match asked with
    | none =>
      cases answers
      exact ⟨_, none, found, rfl, rfl⟩
    | some (.glance offset) =>
      obtain ⟨_, rfl⟩ | ⟨_, _, same, each⟩ := carry?_glance_cases answers
      · exact ⟨_, none, found, rfl, rfl⟩
      obtain ⟨asked, child', isChild', answers', glanced⟩ := each index child isChild
      have quiet : child.Within asked ∧
          Share.shift asked (Leading path) below.start = below.start := by
        cases glanced <;> exact ⟨nofun, rfl⟩
      obtain ⟨below', part, deeper', starts, stays⟩ := ih childMeasured answers' quiet.1 deeper
      refine ⟨_, part, at?_cons_eq_some_iff.mpr ⟨child', below', isChild', deeper', rfl⟩, ?_, stays⟩
      rw [starts, quiet.2, childStart, same]
      rfl
    | some (.part edit) =>
      obtain ⟨_, _, _, _, shares, _, each⟩ := carry?_part_cases answers
      obtain ⟨child', isChild', answers', asks⟩ := each index child isChild
      generalize shares[index]? = asked at answers' asks
      obtain ⟨below', part, deeper', starts, stays⟩ := ih childMeasured answers'
        (fun part same => (same ▸ asks).part_inside) deeper
      refine ⟨_, part, at?_cons_eq_some_iff.mpr ⟨child', below', isChild', deeper', rfl⟩, ?_, stays⟩
      have within := Nat.le_of_lt (List.getElem?_eq_some_iff.mp isChild).1
      dsimp only
      rw [starts, measured.tallied.childStart_of_carry? answers within,
        measured.shift_place isChild deeper asks]
      rfl

/-- A tree was read as far as its leaves were, and to its end. -/
theorem Measured.scanned_le (measured : tree.Measured) {bound : Nat}
    (text : tree.lengths.bytes ≤ bound) (reads : ∀ path place, tree.at? path = some place →
      place.tree.children = [] → place.read ≤ bound) : tree.lengths.scanned.toNat ≤ bound := by
  induction tree generalizing bound with
  | node handle info children ih =>
    cases children with
    | nil =>
      have here := reads [] _ rfl rfl
      rwa [Place.read, Nat.zero_add] at here
    | cons first rest =>
      rw [(measured.here.derived _ _ rfl).scanned_eq]
      refine Nat.max_le.mpr ⟨text, Lengths.farthest_le fun index lengths found => ?_⟩
      change ((first :: rest).map Tree.lengths)[index]? = some lengths at found
      obtain ⟨child, isChild, rfl⟩ := exists_child_of_lengths found
      have stops := measured.child_stop_le isChild
      -- The child has what is left of the bound where it starts.
      have deep : child.lengths.scanned.toNat ≤
          bound - (Tree.node handle info (first :: rest)).childStart index := by
        refine ih child (List.mem_of_getElem? isChild) (measured.of_child isChild) (by omega) ?_
        intro path place deeper leaf
        have reach := reads (index :: path) _
          (at?_cons_eq_some_iff.mpr ⟨child, place, isChild, deeper, rfl⟩) leaf
        simp only [Place.read, Place.lengths] at reach ⊢
        omega
      change 0 + (Tree.node handle info (first :: rest)).childStart index + _ ≤ _
      omega

theorem Measured.answer? (measured : tree.Measured) (answers : tree.answer? asked = some edited) :
    edited.Measured := by
  match asked with
  | none =>
    cases answers
    exact measured
  | some share => exact measured.carry? answers

/-- After an edit a tree is told to be read as far as its leaves were before it, moved as they are,
and to its end. -/
theorem Measured.scanned_le_of_answer? (measured : tree.Measured)
    (answers : tree.answer? asked = some edited) (inside : tree.Within asked) {bound : Nat}
    (text : edited.lengths.bytes ≤ bound) (reads : ∀ path place, tree.at? path = some place →
      place.tree.children = [] →
        Share.shift asked (Leading path) place.start + place.lengths.scanned.toNat ≤ bound) :
    edited.lengths.scanned.toNat ≤ bound := by
  have after := measured.answer? answers
  refine after.scanned_le text fun path place' found' leaf' => ?_
  obtain ⟨place, found⟩ := exists_place_before answers found'
  obtain ⟨again, part, found'', starts, stays⟩ := measured.place_of_answer? answers inside found
  cases found'.symm.trans found''
  have leaf : place.tree.children = [] := by
    have length_eq := children_length_of_answer? stays
    rw [leaf'] at length_eq
    exact List.length_eq_zero_iff.mp length_eq.symm
  have reach := reads path place found leaf
  have scanned := (scanned_of_leaf stays leaf).2
  have stops := after.stop_le found'
  simp only [Place.read, Place.stop, Place.lengths] at *
  omega

end Tree

end SyntaxForest
