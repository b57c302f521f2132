import Mathlib.Data.Multiset.OrderedMonoid
import SyntaxForest.Proofs.Ends
import SyntaxForest.Proofs.Pool.Owned
import SyntaxForest.Proofs.Pool.Turn

/-! # Operations as turns of slots

Whoever calls an operation, it takes the pool through turns, and finds no slot in use on the free
list. Only a release leaves slots without an owner; everything else may give out handles, which are
then in its answer or, for copies that an edit makes, in the journal.
-/

namespace SyntaxForest

/-- The fault that the free list cannot be trusted. -/
def Fault.IsDisorder : Fault → Prop
  | .freeSlotInUse _ => True
  | _ => False

/-- The handle that an event says was given out. -/
def Event.copy? : Event → Option NodeId
  | .copied _ copy => some copy
  | _ => none

namespace Pool

/-- The copies that the journal tells of. -/
def copies (pool : Pool) : Multiset NodeId := pool.journal.toList.filterMap Event.copy?

/-- The number of owners of the node in a slot, none where there is no slot. -/
def owners (pool : Pool) (index : Nat) : Word := (pool.slots[index]?.map (·.refCount)).getD 0

/-- The slots that had owners in the first pool and have none in the second. -/
def lost (pool after : Pool) : Multiset Nat :=
  (Multiset.range pool.slots.size).filter fun index =>
    pool.owners index ≠ 0 ∧ after.owners index = 0

/-! ## Courses -/

namespace Course

variable {pool middle after : Pool} {births births' : Multiset NodeId} {lost lost' : Multiset Nat}
  {index : Nat}

theorem of_turn (turn : pool.Turn births lost after) : pool.Course births lost after := by
  simpa only [add_zero] using Course.refl.tail turn

theorem trans (first : pool.Course births lost middle) (second : middle.Course births' lost' after) :
    pool.Course (births' + births) (lost' + lost) after := by
  induction second with
  | refl => simpa only [zero_add] using first
  | tail _ turn ih =>
    rw [add_assoc, add_assoc]
    exact ih.tail turn

theorem tidy (course : pool.Course births lost after) (tidy : pool.Tidy) : after.Tidy := by
  induction course with
  | refl => exact tidy
  | tail _ turn ih => exact turn.tidy ih

end Course

/-! ## Losses as they are seen from outside -/

section Owners

variable {pool after : Pool} {births : Multiset NodeId} {lost : Multiset Nat}

theorem Shift.count_lost {index : Nat} {was : Option Slot} {new : Slot}
    (shift : Shift index was new births lost) :
    lost.count index = if (was.map (·.refCount)).getD 0 ≠ 0 ∧ new.refCount = 0 then 1 else 0 := by
  cases shift with
  | keep owned stays same => simp [UInt32.pos_iff_ne_zero.mp stays]
  | lose last => simp [last]
  | reuse unowned => simp
  | extend => simp

theorem Shift.unowned_of_barren {index : Nat} {was : Option Slot} {new : Slot}
    (shift : Shift index was new 0 lost) (before : (was.map (·.refCount)).getD 0 = 0) :
    new.refCount = 0 := by
  generalize none : (0 : Multiset NodeId) = births at shift
  cases shift with
  | keep owned => exact absurd before (UInt32.pos_iff_ne_zero.mp owned)
  | lose => rfl
  | reuse | extend => exact absurd none.symm (Multiset.singleton_ne_zero _)

theorem Turn.count_lost (turn : pool.Turn births lost after) (index : Nat) :
    lost.count index = if pool.owners index ≠ 0 ∧ after.owners index = 0 then 1 else 0 := by
  cases turn with
  | @slot changed new shift slots _ _ =>
    rw [owners, owners, slots]
    by_cases same : index = changed
    · subst same
      simpa using shift.count_lost
    · have kept : index ∉ lost := fun loses => same (shift.eq_of_mem loses)
      simp [same, Multiset.count_eq_zero.mpr kept]
  | note event none after_eq =>
    subst after_eq
    simp [none.2, owners]

/-- A handle is given out to a slot without owners, or to a new one. -/
theorem Turn.unowned_of_mem (turn : pool.Turn births lost after) {id : NodeId} (born : id ∈ births) :
    pool.owners id.index = 0 := by
  cases turn with
  | @slot index new shift _ _ _ =>
    rw [owners, shift.index_of_mem born]
    cases here : pool.slots[index]? with
    | none => rfl
    | some old => exact shift.unowned_of_mem born here
  | note event none _ =>
    rw [none.1] at born
    exact absurd born (Multiset.notMem_zero id)

/-- A slot gets an owner only by giving out a handle. -/
theorem Turn.unowned_of_barren (turn : pool.Turn 0 lost after) {index : Nat}
    (before : pool.owners index = 0) : after.owners index = 0 := by
  cases turn with
  | @slot changed new shift slots _ _ =>
    rw [owners, slots]
    by_cases same : index = changed
    · subst same
      rw [if_pos rfl]
      exact shift.unowned_of_barren before
    · simpa [same, owners] using before
  | note event none after_eq =>
    subst after_eq
    exact before

/-- A course that gives out no handle leaves a slot without an owner once at most, and that is seen
from outside. -/
theorem Course.count_lost_of_barren (course : pool.Course 0 lost after) (index : Nat) :
    lost.count index = (if pool.owners index ≠ 0 ∧ after.owners index = 0 then 1 else 0) ∧
      (pool.owners index = 0 → after.owners index = 0) := by
  generalize barren : (0 : Multiset NodeId) = births at course
  induction course with
  | refl => simp
  | @tail _ _ _ _ middle after course turn ih =>
    obtain ⟨rfl, rfl⟩ := add_eq_zero.mp barren.symm
    obtain ⟨before, unowned⟩ := ih rfl
    have stays : middle.owners index = 0 → after.owners index = 0 := turn.unowned_of_barren
    refine ⟨?_, fun none => stays (unowned none)⟩
    rw [Multiset.count_add, before, turn.count_lost]
    by_cases none : pool.owners index = 0
    · simp [none, unowned none]
    · by_cases gone : middle.owners index = 0
      · simp [none, gone, stays gone]
      · simp [none, gone]

/-- Where no slot is left without an owner, none is seen to be. -/
theorem Course.owned_of_lossless (course : pool.Course births 0 after) {index : Nat}
    (owned : pool.owners index ≠ 0) : after.owners index ≠ 0 := by
  generalize lossless : (0 : Multiset Nat) = lost at course
  induction course with
  | refl => exact owned
  | tail course turn ih =>
    obtain ⟨rfl, rfl⟩ := add_eq_zero.mp lossless.symm
    intro none
    have counted := turn.count_lost index
    rw [if_pos ⟨ih rfl, none⟩, Multiset.count_zero] at counted
    exact absurd counted (by decide)

theorem count_lost (pool after : Pool) (index : Nat) : (pool.lost after).count index =
    if pool.owners index ≠ 0 ∧ after.owners index = 0 then 1 else 0 := by
  rw [Pool.lost, Multiset.count_filter]
  by_cases owned : pool.owners index = 0
  · simp [owned]
  · have inside : index < pool.slots.size := by
      by_contra outside
      exact owned (by simp [owners, Nat.le_of_not_lt outside])
    rw [Multiset.count_eq_one_of_mem (Multiset.nodup_range _) (Multiset.mem_range.mpr inside)]

theorem Course.lost_eq_of_barren (course : pool.Course 0 lost after) : lost = pool.lost after := by
  ext index
  rw [Pool.count_lost, (course.count_lost_of_barren index).1]

theorem Course.lost_eq_of_lossless (course : pool.Course births 0 after) :
    0 = pool.lost after := by
  ext index
  rw [Pool.count_lost, Multiset.count_zero]
  split
  case isTrue loses => exact absurd loses.2 (course.owned_of_lossless loses.1)
  case isFalse => rfl

end Owners

/-! ## Turns of single operations -/

section Operations

variable {pool after : Pool} {id : NodeId}

theorem turn_setSlot {slot : Slot} {births : Multiset NodeId} {lost : Multiset Nat}
    {free : List Nat} {index : Nat} (inside : index < pool.slots.size)
    (shift : Shift index pool.slots[index]? slot births lost)
    (tidy : pool.Tidy → (({ pool with free } : Pool).setSlot index slot).Tidy) :
    pool.Turn births lost (({ pool with free } : Pool).setSlot index slot) :=
  .slot shift (getElem?_setSlot inside) tidy rfl

/-- A slot that is found under a handle keeps an owner and its generation. -/
theorem turn_live {old new : Slot} (found : pool.slot? id = some old) (stays : 0 < new.refCount)
    (same : new.generation = old.generation) : pool.Turn 0 0 (pool.setSlot id.index new) := by
  obtain ⟨here, _, owned⟩ := slot?_eq_some_iff.mp found
  have inside := (Array.getElem?_eq_some_iff.mp here).1
  refine @turn_setSlot pool new 0 0 pool.free id.index inside ?_ fun tidy => ?_
  · rw [here]
    exact .keep owned stays same
  · exact tidy.setSlot_live here owned stays

theorem turn_of_retain (ran : retain id pool = .ok () after) :
    pool.Turn 0 0 after ∧ after.journal = pool.journal := by
  unfold retain at ran
  split at ran
  case h_1 => cases ran
  case h_2 slot found =>
    split at ran
    case h_1 => cases ran
    case h_2 refCount sum =>
      cases ran
      refine ⟨turn_live found (UInt32.lt_iff_toNat_lt.mpr ?_) rfl, rfl⟩
      rw [← Word.add?_eq_some_iff.mp sum, UInt32.toNat_zero, UInt32.toNat_one]
      exact Nat.succ_pos _

theorem turn_of_write {node : Node} (ran : write id node pool = .ok () after) :
    pool.Turn 0 0 after ∧ after.journal = pool.journal := by
  unfold write at ran
  split at ran
  case h_1 => cases ran
  case h_2 slot found =>
    cases ran
    exact ⟨turn_live found (slot?_eq_some_iff.mp found).2.2 rfl, rfl⟩

/-- An owner that is given up was there, and if it was the last the node goes. -/
theorem dropUnit_cases {owed : List NodeId} (ran : dropUnit id pool = .ok owed after) :
    ∃ slot, pool.slot? id = some slot ∧
      (slot.refCount = 1 ∧ owed = slot.node.children ∧
          after = ({ pool with free := id.index :: pool.free } : Pool).setSlot id.index
            ⟨slot.generation + 1, 0, .blank⟩ ∨
        slot.refCount ≠ 1 ∧ owed = [] ∧
          after = pool.setSlot id.index { slot with refCount := slot.refCount - 1 }) := by
  unfold dropUnit at ran
  split at ran
  case h_1 => cases ran
  case h_2 slot found =>
    refine ⟨slot, found, ?_⟩
    split at ran
    case isTrue last =>
      cases ran
      exact .inl ⟨last, rfl, rfl⟩
    case isFalse several =>
      cases ran
      exact .inr ⟨several, rfl, rfl⟩

theorem turn_of_dropUnit {owed : List NodeId} (ran : dropUnit id pool = .ok owed after) :
    ∃ lost, pool.Turn 0 lost after ∧ after.journal = pool.journal ∧
      (owed = [] ∧ lost = 0 ∨ (pool.refCount id).toNat = 1) := by
  obtain ⟨slot, found, ⟨last, _, rfl⟩ | ⟨several, rfl, rfl⟩⟩ := dropUnit_cases ran
  · obtain ⟨here, _, owned⟩ := slot?_eq_some_iff.mp found
    have inside := (Array.getElem?_eq_some_iff.mp here).1
    refine ⟨{id.index}, turn_setSlot inside ?_ fun tidy => ?_, rfl, .inr ?_⟩
    · rw [here]
      exact .lose last
    · exact tidy.setSlot_dead here owned _
    · rw [refCount_of_slot? found, last, UInt32.toNat_one]
  · refine ⟨0, turn_live found (UInt32.lt_iff_toNat_lt.mpr ?_) rfl, rfl, .inl ⟨rfl, rfl⟩⟩
    have counted := Word.toNat_sub_one (slot?_eq_some_iff.mp found).2.2
    have differ : slot.refCount.toNat ≠ 1 := fun one => several (UInt32.toNat_inj.mp one)
    dsimp only
    rw [UInt32.toNat_zero]
    omega

theorem turn_of_acquire (ran : acquire pool = .ok id after) :
    pool.Turn {id} 0 after ∧ after.journal = pool.journal := by
  unfold acquire at ran
  split at ran
  case h_1 index free listed =>
    split at ran
    case h_1 slot here =>
      split at ran
      case isTrue unowned =>
        cases ran
        have inside := (Array.getElem?_eq_some_iff.mp here).1
        refine ⟨turn_setSlot inside ?_ fun tidy => ?_, rfl⟩
        · rw [here]
          exact .reuse unowned
        · exact tidy.setSlot_free listed here (by simp)
      case isFalse => cases ran
    case h_2 => cases ran
  case h_2 exhausted =>
    split at ran
    case isTrue =>
      cases ran
      have shift : Shift pool.slots.size pool.slots[pool.slots.size]? ⟨0, 1, .blank⟩
          {⟨pool.slots.size, 0⟩} 0 := by
        rw [Array.getElem?_eq_none (Nat.le_refl _)]
        exact .extend
      refine ⟨.slot shift (fun other => ?_) (fun tidy => tidy.push (by decide)) rfl, rfl⟩
      rw [Array.getElem?_push]
    case isFalse => cases ran

end Operations

end Pool

end SyntaxForest
