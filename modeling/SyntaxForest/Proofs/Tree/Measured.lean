import SyntaxForest.Proofs.Tree.Edit

/-! # Trees that measure their text

The lengths of an internal node are those of its children laid out in order, and every node was
read to its end at least. Measured in natural numbers nothing is lost: the sums that fit are exact.
An edit keeps this up, whatever it says of bytes, rows and columns.
-/

namespace SyntaxForest

namespace Lengths

/-- The bytes of padding and content together, as they are. -/
def bytes (lengths : Lengths) : Nat := lengths.padding.bytes.toNat + lengths.size.bytes.toNat

/-- How far the nodes were read that are laid out from here on. -/
def farthest (start : Nat) : List Lengths → Nat
  | [] => 0
  | child :: rest => max (start + child.scanned.toNat) (farthest (start + child.bytes) rest)

/-- The content and a further child, from its padding on. -/
def appendTo? (size : Span) (child : Lengths) : Option Span :=
  child.total?.bind size.add?

/-- The lengths are those of a node over these children. -/
structure Derived (lengths first : Lengths) (rest : List Lengths) : Prop where
  padding_eq : lengths.padding = first.padding
  size_eq : rest.foldlM appendTo? first.size = some lengths.size
  scanned_eq : lengths.scanned.toNat = max lengths.bytes (farthest 0 (first :: rest))

/-- The lengths are those of a node over these children, if any, that was read to its end. -/
structure Measured (lengths : Lengths) (children : List Lengths) : Prop where
  read : lengths.bytes ≤ lengths.scanned.toNat
  derived : ∀ first rest, children = first :: rest → lengths.Derived first rest

variable {lengths child first : Lengths} {rest children : List Lengths}

theorem measured_leaf_iff : lengths.Measured [] ↔ lengths.bytes ≤ lengths.scanned.toNat :=
  ⟨fun measured => measured.read, fun read => ⟨read, nofun⟩⟩

theorem Derived.measured (derived : lengths.Derived first rest) :
    lengths.Measured (first :: rest) := by
  refine ⟨derived.scanned_eq ▸ Nat.le_max_left .., fun _ _ same => ?_⟩
  obtain ⟨rfl, rfl⟩ := List.cons.inj same
  exact derived

theorem bytes_of_total? {total : Span} (fits : child.total? = some total) :
    total.bytes.toNat = child.bytes :=
  (Word.add?_eq_some_iff.mp (Span.add?_eq_some_iff.mp fits).1).symm

theorem token?_measured {padding size : Span} (token : token? padding size = some lengths) :
    lengths.Measured [] := by
  obtain ⟨bytes, fits, rfl⟩ := Option.map_eq_some_iff.mp token
  exact measured_leaf_iff.mpr (Nat.le_of_eq (Word.add?_eq_some_iff.mp fits))

theorem cover?_measured {covered : Lengths} (covers : lengths.cover? = some covered) :
    covered.Measured [] := by
  obtain ⟨bytes, fits, rfl⟩ := Option.map_eq_some_iff.mp covers
  apply measured_leaf_iff.mpr
  rw [Word.toNat_max]
  exact Nat.le_trans (Nat.le_of_eq (Word.add?_eq_some_iff.mp fits)) (Nat.le_max_right ..)

end Lengths

namespace Summary

variable {summary next last : Summary} {child first : Lengths} {rest : List Lengths}

/-- One summary stands for the children of another and those in the list. Content and total have
grown alike. -/
structure Follows (last summary : Summary) (rest : List Lengths) : Prop where
  padding_eq : last.lengths.padding = summary.lengths.padding
  size_eq : rest.foldlM Lengths.appendTo? summary.lengths.size = some last.lengths.size
  grown : last.total.bytes.toNat + summary.lengths.size.bytes.toNat =
    summary.total.bytes.toNat + last.lengths.size.bytes.toNat
  scanned_eq : last.lengths.scanned.toNat =
    max summary.lengths.scanned.toNat (Lengths.farthest summary.total.bytes.toNat rest)

theorem Follows.cons (extended : summary.extend? child = some next)
    (later : last.Follows next rest) : last.Follows summary (child :: rest) := by
  unfold extend? at extended
  obtain ⟨reach, reached, extended⟩ := Option.bind_eq_some_iff.mp extended
  obtain ⟨whole, fits, extended⟩ := Option.bind_eq_some_iff.mp extended
  obtain ⟨size, sized, extended⟩ := Option.bind_eq_some_iff.mp extended
  obtain ⟨total, summed, extended⟩ := Option.bind_eq_some_iff.mp extended
  cases extended
  obtain ⟨padding, rest, grown, scanned⟩ := later
  have wholeBytes := Lengths.bytes_of_total? fits
  have sizeBytes := Word.add?_eq_some_iff.mp (Span.add?_eq_some_iff.mp sized).1
  have totalBytes := Word.add?_eq_some_iff.mp (Span.add?_eq_some_iff.mp summed).1
  refine ⟨padding, ?_, ?_, ?_⟩
  · rw [List.foldlM_cons, Lengths.appendTo?, fits, Option.bind_some, sized]
    exact rest
  · dsimp only at grown
    omega
  · rw [scanned, Word.toNat_max, ← Word.add?_eq_some_iff.mp reached, Lengths.farthest,
      ← wholeBytes, totalBytes, Nat.max_assoc]

theorem follows_foldlM (folded : rest.foldlM extend? summary = some last) :
    last.Follows summary rest := by
  induction rest generalizing summary with
  | nil =>
    cases folded
    exact ⟨rfl, rfl, rfl, (Nat.max_zero _).symm⟩
  | cons child rest ih =>
    rw [List.foldlM_cons] at folded
    obtain ⟨next, extended, folded⟩ := Option.bind_eq_some_iff.mp folded
    exact .cons extended (ih folded)

end Summary

theorem Lengths.over?_derived {lengths first : Lengths} {rest : List Lengths}
    (gathered : Lengths.over? (first :: rest) = some lengths) : lengths.Derived first rest := by
  rw [Lengths.over?] at gathered
  obtain ⟨start, started, gathered⟩ := Option.bind_eq_some_iff.mp gathered
  obtain ⟨last, folded, finished⟩ := Option.bind_eq_some_iff.mp gathered
  obtain ⟨total, fits, rfl⟩ := Option.map_eq_some_iff.mp started
  obtain rfl := Option.some.inj finished
  have follows := Summary.follows_foldlM folded
  refine ⟨follows.padding_eq, follows.size_eq, ?_⟩
  have grown := follows.grown
  have paddingBytes := congrArg (·.bytes.toNat) follows.padding_eq
  have firstBytes := bytes_of_total? fits
  have same : last.total.bytes.toNat = last.finish.bytes := by
    simp only [bytes, Summary.finish] at firstBytes paddingBytes grown ⊢
    omega
  rw [Summary.finish, Word.toNat_max, same, follows.scanned_eq, Nat.max_comm]
  simp only [farthest, firstBytes, Nat.zero_add]
  rfl

namespace Tree

/-- Every node of the tree measures its text. -/
inductive Measured : Tree → Prop where
  | node {handle : Option NodeId} {info : NodeInfo} {children : List Tree}
    (here : info.lengths.Measured (children.map lengths))
    (below : ∀ child ∈ children, Measured child) : Measured (node handle info children)

variable {tree edited : Tree} {trees trees' : List Tree} {share : Share} {shares : List Share}

/-- Every tree is the same after a list of shares, or has had its own. -/
theorem carryAll?_forall₂ (carried : carryAll? shares trees = some trees') :
    List.Forall₂ (fun tree tree' => tree' = tree ∨
      ∃ share ∈ shares, tree.carry? share = some tree') trees trees' := by
  induction trees generalizing shares trees' with
  | nil =>
    rw [carryAll?_nil_right] at carried
    cases carried
    exact .nil
  | cons tree trees ih =>
    cases shares with
    | nil =>
      rw [carryAll?_nil_left] at carried
      cases carried
      exact List.forall₂_same.mpr fun _ _ => .inl rfl
    | cons share shares =>
      rw [carryAll?_cons] at carried
      obtain ⟨rest, later, carried⟩ := Option.bind_eq_some_iff.mp carried
      obtain ⟨first, here, rfl⟩ := Option.map_eq_some_iff.mp carried
      refine .cons (.inr ⟨share, List.mem_cons_self, here⟩) ((ih later).imp fun _ _ => ?_)
      exact Or.imp_right fun ⟨share, member, holds⟩ =>
        ⟨share, List.mem_cons_of_mem _ member, holds⟩

theorem eq_glance_of_mem {offset start : Word} {lengths : List Lengths}
    (drawn : glances? offset start lengths = some shares) (member : share ∈ shares) :
    ∃ offset, share = .glance offset := by
  induction lengths generalizing start shares with
  | nil =>
    cases drawn
    cases member
  | cons child rest ih =>
    rw [glances?] at drawn
    split at drawn
    case isTrue =>
      cases drawn
      cases member
    case isFalse =>
      obtain ⟨bytes, _, drawn⟩ := Option.bind_eq_some_iff.mp drawn
      obtain ⟨next, _, drawn⟩ := Option.bind_eq_some_iff.mp drawn
      obtain ⟨later, drawn', finished⟩ := Option.bind_eq_some_iff.mp drawn
      cases finished
      rcases List.mem_cons.mp member with rfl | member
      · exact ⟨_, rfl⟩
      · exact ih drawn' member

/-- A glance moves no text. -/
theorem lengths_of_glance {offset : Word} (carried : tree.carry? (.glance offset) = some edited) :
    edited.lengths = tree.lengths := by
  obtain ⟨handle, info, children⟩ := tree
  by_cases past : info.lengths.scanned ≤ offset
  · rw [carry?_glance_past past] at carried
    cases carried
    rfl
  · rw [carry?_glance_reached past] at carried
    obtain ⟨shares, _, carried⟩ := Option.bind_eq_some_iff.mp carried
    obtain ⟨children', _, rfl⟩ := Option.map_eq_some_iff.mp carried
    rfl

theorem lengths_of_glances {offset start : Word} {measures : List Lengths}
    (drawn : glances? offset start measures = some shares)
    (each : carryAll? shares trees = some trees') : trees'.map lengths = trees.map lengths := by
  have same := (carryAll?_forall₂ each).imp (S := fun tree tree' => tree.lengths = tree'.lengths) ?_
  · exact (List.forall₂_eq_eq_eq ▸ List.forall₂_map_left_iff.mpr
      (List.forall₂_map_right_iff.mpr same) : trees.map lengths = trees'.map lengths).symm
  · rintro tree tree' (rfl | ⟨share, member, carried⟩)
    · rfl
    · obtain ⟨offset, rfl⟩ := eq_glance_of_mem drawn member
      exact (lengths_of_glance carried).symm

theorem resizedInfo_measured {edit : TextEdit} {info info' : NodeInfo}
    (resized : Pool.resizedInfo edit true info = some info') : info'.lengths.Measured [] := by
  obtain ⟨stretches, _, resized⟩ := Option.bind_eq_some_iff.mp resized
  obtain ⟨lengths, covers, finished⟩ := Option.bind_eq_some_iff.mp resized
  cases finished
  exact Lengths.cover?_measured covers

theorem Measured.carry? (measured : tree.Measured) (carried : tree.carry? share = some edited) :
    edited.Measured := by
  induction tree generalizing share edited with
  | node handle info children ih =>
    obtain ⟨here, below⟩ := measured
    have all {shares : List Share} {children' : List Tree}
        (carried : carryAll? shares children = some children') :
        ∀ child ∈ children', child.Measured := by
      intro child' member
      obtain ⟨child, member, same | ⟨share, _, carried⟩⟩ :=
        (List.Forall₂.flip (carryAll?_forall₂ carried)).exists_of_mem member
      · exact same ▸ below child member
      · exact ih child member (below child member) carried
    cases share with
    | part edit =>
      by_cases leaf : children = []
      · subst leaf
        rw [carry?_part_leaf] at carried
        obtain ⟨info', resized, rfl⟩ := Option.map_eq_some_iff.mp carried
        exact .node (resizedInfo_measured resized) nofun
      · rw [carry?_part_node edit leaf] at carried
        obtain ⟨info', _, carried⟩ := Option.bind_eq_some_iff.mp carried
        obtain ⟨oldEnd, _, carried⟩ := Option.bind_eq_some_iff.mp carried
        obtain ⟨shares, _, carried⟩ := Option.bind_eq_some_iff.mp carried
        obtain ⟨children', each, carried⟩ := Option.bind_eq_some_iff.mp carried
        obtain ⟨lengths, derived, rfl⟩ := Option.map_eq_some_iff.mp carried
        refine .node ?_ (all each)
        cases children' with
        | nil => exact (leaf (List.forall₂_nil_right_iff.mp (carryAll?_forall₂ each))).elim
        | cons first rest => exact (Lengths.over?_derived derived).measured
    | glance offset =>
      by_cases past : info.lengths.scanned ≤ offset
      · rw [carry?_glance_past past] at carried
        cases carried
        exact .node here below
      · rw [carry?_glance_reached past] at carried
        obtain ⟨shares, drawn, carried⟩ := Option.bind_eq_some_iff.mp carried
        obtain ⟨children', each, rfl⟩ := Option.map_eq_some_iff.mp carried
        refine .node ?_ (all each)
        rwa [lengths_of_glances drawn each]

theorem Measured.revise? {edit : TextEdit} (measured : tree.Measured)
    (revised : tree.revise? edit = some (.ok edited)) : edited.Measured := by
  unfold Tree.revise? at revised
  split at revised
  case h_1 => cases revised
  case h_2 oldEnd newEnd _ =>
    obtain ⟨total, _, revised⟩ := Option.bind_eq_some_iff.mp revised
    split at revised
    case h_1 => cases revised
    case h_2 =>
      split at revised
      case isTrue =>
        cases revised
        exact measured
      case isFalse =>
        obtain ⟨tree', carried, finished⟩ := Option.bind_eq_some_iff.mp revised
        cases finished
        exact measured.carry? carried

end Tree

end SyntaxForest
