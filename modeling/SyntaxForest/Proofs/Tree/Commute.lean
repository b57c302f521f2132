import SyntaxForest.Proofs.Tree.Moves
import SyntaxForest.Proofs.Tree.Outline

/-! # Edits that do not touch

Of two edits the later one starts after the earlier one has ended, so that at least one byte lies
between them. It makes no difference to the outline of a tree which of them is carried out first, if
the later one is moved along with the text it is about. A child is asked for a part of one of them,
in either order, or for parts of both that do not touch either.
-/

namespace SyntaxForest

namespace Cut

variable {cut early later moved : Cut} {padding size start start' bytes bytes' index : Nat}

/-- The later cut where it comes to lie once the earlier one has been made. -/
structure Moved (early later moved : Cut) : Prop where
  apart : early.stop < later.start
  start_eq : moved.start + early.removed = later.start + early.added
  removed_eq : moved.removed = later.removed
  added_eq : moved.added = later.added

/-- A leaf has the same bytes after two cuts in either order. -/
theorem Moved.resize_comm (moves : Moved early later moved) (inside : later.stop ≤ padding + size) :
    early.resize (later.resize padding size).1 (later.resize padding size).2 =
      moved.resize (early.resize padding size).1 (early.resize padding size).2 := by
  obtain ⟨apart, start_eq, removed_eq, added_eq⟩ := moves
  have stop : moved.stop + early.removed = later.stop + early.added := by
    simp only [Cut.stop] at *
    omega
  have ordered : early.start ≤ early.stop := Nat.le_add_right ..
  have removal : early.stop = early.start + early.removed := rfl
  have removal' : later.stop = later.start + later.removed := rfl
  have removal'' : moved.stop = moved.start + moved.removed := rfl
  rcases Nat.lt_or_ge padding later.stop with beyond | within
  · rcases Nat.lt_or_ge later.start padding with before | after
    · rw [resize_of_border beyond before,
        resize_of_padding (show early.stop ≤ later.start + later.added by omega),
        resize_of_padding (show early.stop ≤ padding by omega),
        resize_of_border (show early.start + early.added + (padding - early.stop) < moved.stop by omega)
          (show moved.start < early.start + early.added + (padding - early.stop) by omega)]
      exact congrArg₂ Prod.mk (by omega) (by omega)
    · rw [resize_of_content beyond after]
      rcases Nat.lt_or_ge padding early.stop with beyond' | within'
      · rcases Nat.lt_or_ge early.start padding with before' | after'
        · rw [resize_of_border beyond' before', resize_of_border beyond' before',
            resize_of_content (show early.start + early.added < moved.stop by omega)
              (show early.start + early.added ≤ moved.start by omega)]
          exact congrArg₂ Prod.mk (by omega) (by omega)
        · rw [resize_of_content beyond' after', resize_of_content beyond' after',
            resize_of_content (show padding < moved.stop by omega)
              (show padding ≤ moved.start by omega)]
          exact congrArg₂ Prod.mk (by omega) (by omega)
      · rw [resize_of_padding within', resize_of_padding within',
          resize_of_content
            (show early.start + early.added + (padding - early.stop) < moved.stop by omega)
            (show early.start + early.added + (padding - early.stop) ≤ moved.start by omega)]
        exact congrArg₂ Prod.mk (by omega) (by omega)
  · rw [resize_of_padding within,
      resize_of_padding (show early.stop ≤ later.start + later.added + (padding - later.stop) by omega),
      resize_of_padding (show early.stop ≤ padding by omega),
      resize_of_padding (show moved.stop ≤ early.start + early.added + (padding - early.stop) by omega)]
    exact congrArg₂ Prod.mk (by omega) (by omega)

/-- Where something starts after the cut, if it started at this byte before; `leads` tells whether
there is nothing before it. -/
def shift (cut : Cut) (leads : Prop) [Decidable leads] (start : Nat) : Nat :=
  if leads ∨ start < cut.start then start
  else max cut.start (start - cut.removed) + cut.added

/-- How the bytes of a child change by its part of a cut. -/
def Grows : Option Cut → Nat → Nat → Prop
  | some part, bytes, bytes' => bytes' + part.removed = bytes + part.added
  | none, bytes, bytes' => bytes' = bytes

/-- How a cut falls on a child with this index, start and length: the part of it that falls on the
child, and the start of the child after the cut. -/
inductive Falls (cut : Cut) (index start bytes : Nat) : Option Cut → Nat → Prop where
  | before (ends : start + bytes < cut.start) : Falls cut index start bytes none start
  | takes (leads : start < cut.start ∨ index = 0 ∧ start = 0) (reached : cut.start ≤ start + bytes) :
    Falls cut index start bytes
      (some ⟨cut.start - start, min cut.stop (start + bytes) - cut.start, cut.added⟩) start
  | loses (follows : index ≠ 0) (past : cut.start ≤ start) (inside : start < cut.stop) :
    Falls cut index start bytes (some ⟨0, min cut.stop (start + bytes) - start, 0⟩)
      (cut.start + cut.added)
  | after (follows : index ≠ 0) (past : cut.stop ≤ start) :
    Falls cut index start bytes none (start - cut.removed + cut.added)

theorem falls_within? (cut : Cut) (first : index = 0 → start = 0) :
    Falls cut index start bytes (cut.within? (index = 0) start bytes)
      (cut.shift (index = 0) start) := by
  have ordered : cut.start ≤ cut.stop := Nat.le_add_right ..
  unfold within? shift
  by_cases leads : index = 0 ∨ start < cut.start
  · rw [if_pos leads]
    by_cases ends : start + bytes < cut.start
    · rw [if_neg (by omega)]
      exact .before ends
    · rw [if_pos (by omega), if_pos leads.symm, Nat.max_eq_left (by omega)]
      exact .takes (by omega) (by omega)
  · obtain ⟨follows, past⟩ := not_or.mp leads
    rw [if_neg leads]
    by_cases inside : start < cut.stop
    · have loses := @Falls.loses cut index start bytes follows (by omega) inside
      rw [if_pos (by omega), if_neg (by omega), Nat.max_eq_right (by omega),
        Nat.sub_eq_zero_of_le (by omega)]
      rwa [Nat.max_eq_left (by simp only [stop] at inside; omega)]
    · rw [if_neg (by omega), Nat.max_eq_right (by simp only [stop] at inside; omega)]
      exact .after follows (by omega)

namespace Falls

variable {part part' : Option Cut}

theorem unique {start₁ start₂ : Nat} (falls : Falls cut index start bytes part start₁)
    (falls' : Falls cut index start bytes part' start₂) : part' = part ∧ start₂ = start₁ := by
  have ordered : cut.start ≤ cut.stop := Nat.le_add_right ..
  cases falls <;> cases falls' <;> first | exact ⟨rfl, rfl⟩ | omega

/-- A cut that has been moved falls in the same way on a child that has been moved alike. -/
theorem part_eq_of_moved {cut' : Cut} {forth back start₁ start₂ : Nat}
    (start_eq : cut'.start + back = cut.start + forth) (removed_eq : cut'.removed = cut.removed)
    (added_eq : cut'.added = cut.added) (shifted : start' + back = start + forth)
    (falls : Falls cut index start bytes part start₁)
    (falls' : Falls cut' index start' bytes part' start₂) : part' = part := by
  have removal : cut.stop = cut.start + cut.removed := rfl
  have removal' : cut'.stop = cut'.start + cut'.removed := rfl
  cases falls with
  | before =>
    cases falls' with
    | before | after => rfl
    | _ => omega
  | takes =>
    cases falls' with
    | takes => exact congrArg some (by rw [Cut.mk.injEq]; omega)
    | _ => omega
  | loses =>
    cases falls' with
    | loses => exact congrArg some (by rw [Cut.mk.injEq]; omega)
    | _ => omega
  | after =>
    cases falls' with
    | before | after => rfl
    | _ => omega

/-- A child that goes on after the cut may be of any length. -/
theorem part_eq_of_beyond {start₁ start₂ : Nat} (beyond : cut.stop ≤ start + bytes)
    (beyond' : cut.stop ≤ start + bytes') (falls : Falls cut index start bytes part start₁)
    (falls' : Falls cut index start bytes' part' start₂) : part' = part := by
  have ordered : cut.start ≤ cut.stop := Nat.le_add_right ..
  cases falls with
  | before => omega
  | takes =>
    cases falls' with
    | takes => rw [Nat.min_eq_left beyond, Nat.min_eq_left beyond']
    | _ => omega
  | loses =>
    cases falls' with
    | loses => rw [Nat.min_eq_left beyond, Nat.min_eq_left beyond']
    | _ => omega
  | after =>
    cases falls' with
    | after => rfl
    | _ => omega

end Falls

/-- What two edits ask of a tree of so many bytes: the later one first and then the earlier one, or
the earlier one and then the later. -/
inductive Swaps (bytes : Nat) : Option Cut → Option Cut → Option Cut → Option Cut → Prop where
  | early (cut : Option Cut) : Swaps bytes none cut cut none
  | later (cut : Option Cut) : Swaps bytes cut none none cut
  | both {early later moved : Cut} (moves : Moved early later moved) (inside : later.stop ≤ bytes) :
    Swaps bytes (some later) (some early) (some early) (some moved)

variable {laterPart earlyPart earlyPart' laterPart' : Option Cut}
  {start'' start₁ start₂ bytes₁ bytes₂ : Nat}

namespace Moved

theorem stop_eq (moves : Moved early later moved) :
    moved.stop + early.removed = later.stop + early.added := by
  have start_eq := moves.start_eq
  have removed_eq := moves.removed_eq
  simp only [stop]
  omega

/-- A child that ends before the later cut does so after the earlier one too. -/
theorem ends_before (moves : Moved early later moved) (ends : start + bytes < later.start)
    (falls : Falls early index start bytes earlyPart start₁) (grows : Grows earlyPart bytes bytes₁) :
    start₁ + bytes₁ < moved.start := by
  have apart := moves.apart
  have start_eq := moves.start_eq
  cases falls <;> simp only [Grows, stop] at * <;> omega

/-- A child that starts no earlier than the later cut is asked for none of the earlier one. -/
theorem passed (moves : Moved early later moved) (past : later.start ≤ start)
    (falls : Falls early index start bytes earlyPart start₁) :
    earlyPart = none ∧ start₁ + early.removed = start + early.added := by
  have apart := moves.apart
  have removal : early.stop = early.start + early.removed := rfl
  cases falls with
  | after _ passed => exact ⟨rfl, by omega⟩
  | _ => omega

/-- A child that the later cut starts in goes on after the earlier one, and the later cut starts in
it again once the earlier one has been made. -/
theorem starts_inside (moves : Moved early later moved) (inside : start < later.start)
    (reached : later.start ≤ start + bytes) (falls : Falls early index start bytes earlyPart start₁)
    (grows : Grows earlyPart bytes bytes₁) : start₁ < moved.start ∧ moved.start ≤ start₁ + bytes₁ := by
  have apart := moves.apart
  have start_eq := moves.start_eq
  have removal : early.stop = early.start + early.removed := rfl
  cases falls <;> simp only [Grows] at grows <;> omega

theorem swaps_inside (moves : Moved early later moved) (inside : start < later.start)
    (reached : later.start ≤ start + bytes) (falls : Falls early index start bytes earlyPart start₁)
    (grows : Grows earlyPart bytes bytes₁) (laterFalls : Falls later index start bytes laterPart start₂)
    (laterFalls' : Falls moved index start₁ bytes₁ laterPart' start') :
    Swaps bytes laterPart earlyPart earlyPart laterPart' := by
  obtain ⟨before, reached'⟩ := moves.starts_inside inside reached falls grows
  obtain ⟨rfl, rfl⟩ := laterFalls.unique (.takes (.inl inside) reached)
  obtain ⟨rfl, rfl⟩ := laterFalls'.unique (.takes (.inl before) reached')
  have removal : early.stop = early.start + early.removed := rfl
  have ordered : later.start ≤ later.stop := Nat.le_add_right ..
  have stop_eq := moves.stop_eq
  obtain ⟨apart, start_eq, removed_eq, added_eq⟩ := moves
  cases falls with
  | before => omega
  | takes =>
    simp only [Grows] at grows
    exact .both ⟨by simp only [stop]; omega, by dsimp only; omega, by dsimp only; omega, added_eq⟩
      (by simp only [stop]; omega)
  | loses =>
    simp only [Grows] at grows
    exact .both ⟨by simp only [stop]; omega, by dsimp only; omega, by dsimp only; omega, added_eq⟩
      (by simp only [stop]; omega)
  | after =>
    obtain rfl := grows
    have shifted : start - early.removed + early.added + early.removed = start + early.added := by
      omega
    rw [laterFalls.part_eq_of_moved start_eq removed_eq added_eq shifted laterFalls']
    exact .later _

end Moved

theorem Moved.swaps (moves : Moved early later moved)
    (laterFalls : Falls later index start bytes laterPart start₂)
    (laterGrows : Grows laterPart bytes bytes₂)
    (earlyFalls : Falls early index start bytes earlyPart start₁)
    (earlyGrows : Grows earlyPart bytes bytes₁)
    (earlyFalls' : Falls early index start₂ bytes₂ earlyPart' start')
    (laterFalls' : Falls moved index start₁ bytes₁ laterPart' start'') :
    Swaps bytes laterPart earlyPart' earlyPart laterPart' := by
  rcases Nat.lt_or_ge (start + bytes) later.start with ends | reached
  · have ends' := moves.ends_before ends earlyFalls earlyGrows
    obtain ⟨rfl, rfl⟩ := laterFalls.unique (.before ends)
    obtain rfl := laterGrows
    obtain ⟨rfl, _⟩ := earlyFalls.unique earlyFalls'
    obtain ⟨rfl, _⟩ := laterFalls'.unique (.before ends')
    exact .early _
  rcases Nat.lt_or_ge start later.start with inside | past
  · have swaps := moves.swaps_inside inside reached earlyFalls earlyGrows laterFalls laterFalls'
    obtain ⟨rfl, rfl⟩ := laterFalls.unique (.takes (.inl inside) reached)
    have apart := moves.apart
    simp only [Grows] at laterGrows
    rwa [earlyFalls.part_eq_of_beyond (by omega) (by omega) earlyFalls']
  · have removal : later.stop = later.start + later.removed := rfl
    have past' : later.start ≤ start₂ := by cases laterFalls <;> omega
    obtain ⟨rfl, shifted⟩ := moves.passed past earlyFalls
    obtain ⟨rfl, _⟩ := moves.passed past' earlyFalls'
    obtain rfl := earlyGrows
    rw [laterFalls.part_eq_of_moved moves.start_eq moves.removed_eq moves.added_eq shifted
      laterFalls']
    exact .later _

end Cut

open Cut

namespace Share

theorem exists_part_of_cut? {asked : Option Share} {cut : Cut} (part : Share.cut? asked = some cut) :
    ∃ edit : TextEdit, asked = some (.part edit) ∧ edit.cut = cut := by
  match asked, part with
  | some (.part edit), part => exact ⟨edit, rfl, Option.some.inj part⟩

theorem Grows.cut {asked : Option Share} {bytes bytes' : Nat} (grows : Share.Grows asked bytes bytes') :
    Cut.Grows (Share.cut? asked) bytes bytes' := by
  match asked with
  | some (.part edit) => exact grows
  | some (.glance _) | none => exact grows

end Share

/-- The bytes of a child's part, and where the child comes to lie. -/
theorem Asked.falls {edit : TextEdit} {index start bytes : Nat} {asked : Option Share}
    (asks : Asked edit (index = 0) start bytes asked) (first : index = 0 → start = 0) :
    Falls edit.cut index start bytes (Share.cut? asked) (edit.shift (index = 0) start) := by
  rw [asks.cut?_eq first]
  exact falls_within? edit.cut first

namespace Tree

variable {tree edited child : Tree} {edit : TextEdit} {index : Nat}

/-- A child of a tree that an edit is carried into, before and after. -/
structure PassesOn (edit : TextEdit) (tree edited : Tree) (index : Nat) (child child' : Tree)
    (asked : Option Share) : Prop where
  answers : child.answer? asked = some child'
  falls : Falls edit.cut index (tree.childStart index) child.lengths.bytes (Share.cut? asked)
    (edited.childStart index)
  grows : Grows (Share.cut? asked) child.lengths.bytes child'.lengths.bytes

theorem Tallied.exists_passesOn (tallied : tree.Tallied)
    (carried : tree.carry? (.part edit) = some edited) (found : tree.children[index]? = some child) :
    ∃ child' asked, edited.children[index]? = some child' ∧
      PassesOn edit tree edited index child child' asked := by
  obtain ⟨_, _, _, _, shares, _, each⟩ := carry?_part_cases carried
  obtain ⟨child', found', answers, asks⟩ := each index child found
  have within := Nat.le_of_lt (List.getElem?_eq_some_iff.mp found).1
  have grows := (tallied.of_mem (List.mem_of_getElem? found)).grows answers
    fun part same => (same ▸ asks).part_inside
  refine ⟨child', shares[index]?, found', answers, ?_, grows.cut⟩
  rw [tallied.childStart_of_carry? carried within]
  exact asks.falls tree.childStart_eq_zero

/-- A leaf has the same lengths after two edits that do not touch, in either order. -/
theorem lengths_of_leaf_comm {afterLater afterEarly last last' : Tree}
    {early early' later later' : TextEdit} (moves : Moved early.cut later.cut later'.cut)
    (same : early'.cut = early.cut) (inside : later.cut.stop ≤ tree.lengths.bytes)
    (leaf : tree.children = []) (ran : tree.carry? (.part later) = some afterLater)
    (ran' : afterLater.carry? (.part early') = some last)
    (runs : tree.carry? (.part early) = some afterEarly)
    (runs' : afterEarly.carry? (.part later') = some last') :
    last.lengths.outline = last'.lengths.outline := by
  have childless {asked : TextEdit} {after : Tree} (carried : tree.carry? (.part asked) = some after) :
      after.children = [] := by
    have answers : tree.answer? (some (.part asked)) = some after := carried
    rw [← List.length_eq_zero_iff, children_length_of_answer? answers, leaf, List.length_nil]
  have comm := moves.resize_comm inside
  rw [resize_of_leaf ran leaf, resize_of_leaf runs leaf, resize_of_leaf runs' (childless runs), ← same,
    resize_of_leaf ran' (childless ran)] at comm
  obtain ⟨padding, size⟩ := Prod.mk.inj comm
  exact Lengths.outline_eq_iff.mpr ⟨UInt32.toNat_inj.mp padding, UInt32.toNat_inj.mp size⟩

/-- Two edits that do not touch give a tree the same outline in either order. -/
theorem Tallied.outline_of_swaps {afterLater afterEarly last last' : Tree}
    {later early early' later' : Option Share} (tallied : tree.Tallied)
    (swaps : Swaps tree.lengths.bytes (Share.cut? later) (Share.cut? early') (Share.cut? early)
      (Share.cut? later'))
    (ran : tree.answer? later = some afterLater) (ran' : afterLater.answer? early' = some last)
    (runs : tree.answer? early = some afterEarly) (runs' : afterEarly.answer? later' = some last') :
    last.outline = last'.outline := by
  induction tree using induct_below
    generalizing afterLater afterEarly last last' later early early' later' with
  | step tree ih =>
    generalize laterCut : Share.cut? later = laterPart at swaps
    generalize earlyCut' : Share.cut? early' = earlyPart' at swaps
    generalize earlyCut : Share.cut? early = earlyPart at swaps
    generalize laterCut' : Share.cut? later' = laterPart' at swaps
    cases swaps with
    | early =>
      rw [outline_of_uncut runs' laterCut']
      exact outline_of_answer? (outline_of_uncut ran laterCut) (earlyCut'.trans earlyCut.symm) ran' runs
    | later =>
      rw [outline_of_uncut ran' earlyCut']
      exact outline_of_answer? (outline_of_uncut runs earlyCut).symm (laterCut.trans laterCut'.symm)
        ran runs'
    | both moves inside =>
      obtain ⟨edit₂, rfl, rfl⟩ := Share.exists_part_of_cut? laterCut
      obtain ⟨edit₁', rfl, cut₁⟩ := Share.exists_part_of_cut? earlyCut'
      obtain ⟨edit₁, rfl, rfl⟩ := Share.exists_part_of_cut? earlyCut
      obtain ⟨edit₂', rfl, rfl⟩ := Share.exists_part_of_cut? laterCut'
      have info := info_of_part ran
      have info' := info_of_part runs
      have length_eq := children_length_of_answer? ran
      have length_eq' := children_length_of_answer? runs
      refine outline_of_parts ran' runs' (by rw [info, info']) (by rw [info, info'])
        (by rw [length_eq, length_eq']) (fun leaf => ?_) ?_
      · have leaf' : tree.children = [] :=
          List.length_eq_zero_iff.mp (by rw [← length_eq, leaf, List.length_nil])
        exact lengths_of_leaf_comm moves cut₁ inside leaf' ran ran' runs runs'
      · intro index below below' isLast isLast'
        obtain ⟨_, _, isMiddle, _⟩ := exists_child_before ran' isLast
        obtain ⟨_, child, found, _⟩ := exists_child_before ran isMiddle
        obtain ⟨_, _, found₂, passes₂⟩ := tallied.exists_passesOn ran found
        obtain ⟨_, _, again, passes₁'⟩ := (tallied.answer? ran).exists_passesOn ran' found₂
        cases isLast.symm.trans again
        obtain ⟨_, _, found₁, passes₁⟩ := tallied.exists_passesOn runs found
        obtain ⟨_, _, again', passes₂'⟩ := (tallied.answer? runs).exists_passesOn runs' found₁
        cases isLast'.symm.trans again'
        have member := List.mem_of_getElem? found
        exact ih child member (tallied.of_mem member)
          (moves.swaps passes₂.falls passes₂.grows passes₁.falls passes₁.grows
            (cut₁ ▸ passes₁'.falls) passes₂'.falls)
          passes₂.answers passes₁'.answers passes₁.answers passes₂'.answers

/-- The same for whole edits, some of which may be without bytes. -/
theorem Tallied.outline_of_commuting {afterLater afterEarly last last' : Tree}
    {first first' second second' : TextEdit} (tallied : tree.Tallied)
    (same : first'.cut = first.cut) (moves : Moved first.cut second.cut second'.cut)
    (ran : tree.revise? second = some (.ok afterLater))
    (ran' : afterLater.revise? first = some (.ok last))
    (runs : tree.revise? first' = some (.ok afterEarly))
    (runs' : afterEarly.revise? second' = some (.ok last')) : last.outline = last'.outline := by
  have inside : second.cut.stop ≤ tree.lengths.bytes := (revise?_ok ran).1.inside
  obtain ⟨_, answers₂, cut₂⟩ := exists_asked_of_revise? ran
  obtain ⟨_, answers₁', cut₁'⟩ := exists_asked_of_revise? ran'
  obtain ⟨_, answers₁, cut₁⟩ := exists_asked_of_revise? runs
  obtain ⟨_, answers₂', cut₂'⟩ := exists_asked_of_revise? runs'
  have isEmpty : second'.isEmpty = second.isEmpty := by
    rw [Bool.eq_iff_iff, TextEdit.isEmpty_iff, TextEdit.isEmpty_iff, moves.removed_eq, moves.added_eq]
  rw [TextEdit.isEmpty_congr same, same] at cut₁
  rw [isEmpty] at cut₂'
  refine tallied.outline_of_swaps ?_ answers₂ answers₁' answers₁ answers₂'
  rw [cut₂, cut₁', cut₁, cut₂']
  cases second.isEmpty with
  | true => exact .early _
  | false =>
    cases void : first.isEmpty with
    | true =>
      obtain ⟨removed, added⟩ := TextEdit.isEmpty_iff.mp void
      have still : second'.cut = second.cut := by
        have start := moves.start_eq
        rw [removed, added] at start
        rw [Cut.mk.injEq]
        exact ⟨start, moves.removed_eq, moves.added_eq⟩
      rw [still]
      exact .later _
    | false => exact .both moves inside

end Tree

end SyntaxForest
