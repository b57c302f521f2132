import SyntaxForest.Proofs.Tree.Revise

/-! # What an edit leaves alone

A place is out of reach of an edit if its text was read only up to a byte before the edit, or if it
starts after the edit and no removed text is in it. However the edit is clipped and handed down, what
is out of its reach stays out of the reach of each part, so a tree at such a place is left as it is.
-/

namespace SyntaxForest

/-- The byte of a child up to which text is removed. -/
def Share.stopByte : Share → Nat
  | .part edit => edit.stopByte
  | .glance offset => offset.toNat

/-- A part of an edit is given to a tree only where it starts no later than the tree ends. -/
def Share.Meets (tree : Tree) : Share → Prop
  | .part edit => edit.startByte ≤ tree.lengths.bytes
  | .glance _ => True

namespace Tree

/-- What stands here was read only up to a byte before the stretch, or starts after the start of the
stretch and no earlier than its end. -/
def Place.Apart (place : Place) (start stop : Nat) : Prop :=
  place.read < start ∨ start < place.start ∧ stop ≤ place.start

variable {tree edited child : Tree} {share : Share} {asked : Option Share} {index start stop : Nat}
  {path : List Nat} {place below : Place}

/-- A child that is asked for something meets it, and what is out of reach of the edit is out of
reach of what the child is asked. -/
theorem Place.Apart.of_asked {edit : TextEdit} {first : Prop} {edge : Nat}
    (asks : Asked edit first edge child.lengths.bytes (some share)) (origin : first → edge = 0)
    (apart : Place.Apart ⟨edge + below.start, below.tree⟩ edit.startByte edit.stopByte) :
    share.Meets child ∧ below.Apart share.startByte share.stopByte := by
  simp only [Apart, read, lengths] at apart ⊢
  cases asks with
  | part part reached inside starts stops =>
    simp only [Share.Meets, Share.startByte, Share.stopByte, starts, stops]
    refine ⟨by omega, ?_⟩
    rcases apart with before | ⟨later, beyond⟩
    · exact .inl (by omega)
    · -- A place right at the edge would make the child the first, which starts no later than the edit.
      have enters : below.start ≠ 0 ∨ edge ≤ edit.startByte := by
        rcases inside with within | isFirst
        · exact .inl (by omega)
        · exact .inr (by have := origin isFirst; omega)
      exact .inr (by omega)
  | glance offset starts near =>
    simp only [Share.Meets, Share.startByte, Share.stopByte, starts]
    exact ⟨trivial, by omega⟩

theorem Place.Apart.of_glanced {offset edge : Nat} (glanced : Glanced offset edge (some share))
    (apart : Place.Apart ⟨edge + below.start, below.tree⟩ offset offset) :
    share.Meets child ∧ below.Apart share.startByte share.stopByte := by
  simp only [Apart, read, lengths] at apart ⊢
  cases glanced with
  | glance within starts near =>
    simp only [Share.Meets, Share.startByte, Share.stopByte, starts]
    exact ⟨trivial, by omega⟩

/-- Whatever a child is asked, the child meets it, and what is out of reach in the tree is out of
reach of it. -/
theorem Place.Apart.exists_child (carried : tree.carry? share = some edited)
    (isChild : tree.children[index]? = some child)
    (apart : Place.Apart ⟨tree.childStart index + below.start, below.tree⟩ share.startByte
      share.stopByte) :
    ∃ asked child', edited.children[index]? = some child' ∧ child.answer? asked = some child' ∧
      ∀ share', asked = some share' →
        share'.Meets child ∧ below.Apart share'.startByte share'.stopByte := by
  cases share with
  | part edit =>
    obtain ⟨_, _, _, _, shares, _, each⟩ := carry?_part_cases carried
    obtain ⟨child', place, answers, asks⟩ := each index child isChild
    exact ⟨_, child', place, answers, fun share' same =>
      Place.Apart.of_asked (same ▸ asks) tree.childStart_eq_zero apart⟩
  | glance offset =>
    obtain ⟨_, rfl⟩ | ⟨_, _, _, each⟩ := carry?_glance_cases carried
    · exact ⟨none, child, isChild, rfl, nofun⟩
    · obtain ⟨asked, child', place, answers, glanced⟩ := each index child isChild
      exact ⟨asked, child', place, answers, fun share' same =>
        Place.Apart.of_glanced (same ▸ glanced) apart⟩

/-- A tree that is itself out of reach of a share that it meets is only glanced at, and not as far
as it was read. -/
theorem Measured.eq_of_apart (measured : tree.Measured) (carried : tree.carry? share = some edited)
    (meets : share.Meets tree) (apart : Place.Apart ⟨0, tree⟩ share.startByte share.stopByte) :
    edited = tree := by
  have read := measured.here.read
  simp only [Place.Apart, Place.read, Place.lengths] at apart
  cases share with
  | part edit =>
    simp only [Share.Meets, Share.startByte] at meets apart
    omega
  | glance offset =>
    obtain ⟨_, rfl⟩ | ⟨reads, _⟩ := carry?_glance_cases carried
    · rfl
    · have lt := UInt32.lt_iff_toNat_lt.mp reads
      simp only [Share.startByte] at apart
      omega

/-- What is out of reach of a share is left as it is, wherever it is in the tree. -/
theorem Measured.at?_of_apart (measured : tree.Measured) (carried : tree.carry? share = some edited)
    (meets : share.Meets tree) (found : tree.at? path = some place)
    (apart : place.Apart share.startByte share.stopByte) :
    ∃ place', edited.at? path = some place' ∧ place'.tree = place.tree := by
  induction path generalizing tree edited share place with
  | nil =>
    cases found
    exact ⟨_, rfl, measured.eq_of_apart carried meets apart⟩
  | cons index path ih =>
    obtain ⟨child, below, isChild, deeper, rfl⟩ := at?_cons_eq_some_iff.mp found
    obtain ⟨asked, child', isChild', answers, within⟩ := apart.exists_child carried isChild
    obtain ⟨below', deeper', same⟩ : ∃ below', child'.at? path = some below' ∧
        below'.tree = below.tree := by
      cases asked with
      | none =>
        cases answers
        exact ⟨below, deeper, rfl⟩
      | some share' =>
        obtain ⟨meets', apart'⟩ := within share' rfl
        exact ih (measured.of_child isChild) answers meets' deeper apart'
    exact ⟨_, at?_cons_eq_some_iff.mpr ⟨child', below', isChild', deeper', rfl⟩, same⟩

/-- An edit of the text leaves a tree out of its reach as it is. -/
theorem Measured.at?_of_revise? (measured : tree.Measured) {edit : TextEdit}
    (revised : tree.revise? edit = some (.ok edited)) (found : tree.at? path = some place)
    (apart : place.Apart edit.startByte edit.stopByte) :
    ∃ place', edited.at? path = some place' ∧ place'.tree = place.tree := by
  obtain ⟨fits, ⟨_, rfl⟩ | ⟨_, carried⟩⟩ := revise?_ok revised
  · exact ⟨place, found, rfl⟩
  · have meets : (Share.part edit).Meets tree :=
      Nat.le_trans edit.startByte_le_stopByte fits.inside
    exact measured.at?_of_apart carried meets found apart

end Tree

end SyntaxForest
