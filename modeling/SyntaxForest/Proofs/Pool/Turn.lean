import Mathlib.Algebra.Order.Group.Multiset
import Mathlib.Data.Multiset.Count
import Mathlib.Data.Multiset.Range
import SyntaxForest.Proofs.Pool.Unit

/-! # What becomes of slots

A pool changes one slot at a time, whoever asks for it. A turn tells which handle it gives out, if
any, and which slot it leaves without an owner. From what one turn does follows what the slots have
been through: the generation of a slot counts the nodes that it has lost, and no handle is given out
twice until that count has gone once around.
-/

namespace SyntaxForest.Pool

/-- How the slot with this index may change, with the handle that this gives out and the slot that
it leaves without an owner. -/
inductive Shift (index : Nat) : Option Slot → Slot → Multiset NodeId → Multiset Nat → Prop where
  /-- There still is an owner, and the node is of the same generation. -/
  | keep {old new : Slot} (owned : 0 < old.refCount) (stays : 0 < new.refCount)
    (same : new.generation = old.generation) : Shift index (some old) new 0 0
  | lose {old : Slot} (last : old.refCount = 1) :
    Shift index (some old) ⟨old.generation + 1, 0, .blank⟩ 0 {index}
  | reuse {old : Slot} (unowned : old.refCount = 0) :
    Shift index (some old) { old with refCount := 1 } {⟨index, old.generation⟩} 0
  | extend : Shift index none ⟨0, 1, .blank⟩ {⟨index, 0⟩} 0

/-- One change of a pool: of a slot, or of the journal alone. -/
inductive Turn (pool : Pool) (births : Multiset NodeId) (lost : Multiset Nat) (after : Pool) :
    Prop where
  | slot {index : Nat} {new : Slot} (shift : Shift index pool.slots[index]? new births lost)
    (slots : ∀ other : Nat, after.slots[other]? =
      if other = index then some new else pool.slots[other]?)
    (tidy : pool.Tidy → after.Tidy) (journal : after.journal = pool.journal)
  | note (event : Event) (none : births = 0 ∧ lost = 0)
    (after_eq : after = { pool with journal := pool.journal.push event })

/-- Turns in a row, with all that they give out and leave without an owner. -/
inductive Course (pool : Pool) : Multiset NodeId → Multiset Nat → Pool → Prop where
  | refl : Course pool 0 0 pool
  | tail {births births' : Multiset NodeId} {lost lost' : Multiset Nat} {middle after : Pool}
    (course : Course pool births lost middle) (turn : middle.Turn births' lost' after) :
    Course pool (births' + births) (lost' + lost) after

theorem isLive_iff_slots {pool : Pool} {id : NodeId} : pool.isLive id ↔ ∃ slot : Slot,
    pool.slots[id.index]? = some slot ∧ slot.generation = id.generation ∧ 0 < slot.refCount := by
  simp only [isLive_iff, slot?_eq_some_iff]

/-! ## One turn -/

namespace Shift

variable {index : Nat} {was : Option Slot} {new : Slot} {births : Multiset NodeId}
  {lost : Multiset Nat} {id : NodeId}

theorem index_of_mem (shift : Shift index was new births lost) (born : id ∈ births) :
    id.index = index := by
  cases shift <;> simp_all

theorem eq_of_mem (shift : Shift index was new births lost) {other : Nat} (loses : other ∈ lost) :
    other = index := by
  cases shift <;> simp_all

theorem nodup (shift : Shift index was new births lost) : births.Nodup := by
  cases shift <;> simp

/-- The node in the slot is the one that was born, or the one that was there and was not lost. -/
theorem owned_iff (shift : Shift index was new births lost) (generation : Word) :
    new.generation = generation ∧ 0 < new.refCount ↔ ⟨index, generation⟩ ∈ births ∨
      (∃ old, was = some old ∧ old.generation = generation ∧ 0 < old.refCount) ∧ index ∉ lost := by
  cases shift with
  | keep owned stays same => simp [owned, stays, same]
  | lose last => simp
  | reuse unowned => simp [unowned, eq_comm]
  | extend => simp [eq_comm]

theorem unowned_of_mem (shift : Shift index was new births lost) (born : id ∈ births) {old : Slot}
    (before : was = some old) : old.refCount = 0 := by
  cases shift with
  | keep | lose | extend => simp_all
  | reuse unowned =>
    cases before
    exact unowned

/-- Every node that a slot loses moves it on by one generation. -/
theorem generation (shift : Shift index was new births lost) {count : Nat}
    (numbered : ∀ old, was = some old → old.generation.toNat = count % UInt32.size)
    (unused : was = none → count = 0) :
    new.generation.toNat = (lost.count index + count) % UInt32.size := by
  cases shift with
  | @keep old _ _ _ same =>
    rw [same, numbered old rfl, Multiset.count_zero, Nat.zero_add]
  | @lose old _ =>
    rw [UInt32.toNat_add, numbered old rfl, Multiset.count_singleton_self, Nat.mod_add_mod,
      Nat.add_comm]
    rfl
  | @reuse old _ =>
    rw [numbered old rfl, Multiset.count_zero, Nat.zero_add]
  | extend =>
    rw [unused rfl]
    rfl

end Shift

namespace Turn

variable {pool after : Pool} {births : Multiset NodeId} {lost : Multiset Nat} {id : NodeId}

theorem tidy (turn : pool.Turn births lost after) (tidy : pool.Tidy) : after.Tidy := by
  cases turn with
  | slot _ _ kept _ => exact kept tidy
  | note event _ after_eq =>
    subst after_eq
    exact tidy.note _

theorem isLive_iff (turn : pool.Turn births lost after) :
    after.isLive id ↔ id ∈ births ∨ pool.isLive id ∧ id.index ∉ lost := by
  cases turn with
  | @slot index new shift slots _ _ =>
    rw [isLive_iff_slots, isLive_iff_slots, slots]
    by_cases here : id.index = index
    · subst here
      simpa using shift.owned_iff id.generation
    · have unborn : id ∉ births := fun born => here (shift.index_of_mem born)
      have kept : id.index ∉ lost := fun loses => here (shift.eq_of_mem loses)
      simp [here, unborn, kept]
  | note event none after_eq =>
    obtain ⟨rfl, rfl⟩ := none
    subst after_eq
    simp [isLive, slot?]

theorem not_isLive_of_mem (turn : pool.Turn births lost after) (born : id ∈ births) :
    ¬ pool.isLive id := by
  cases turn with
  | slot shift _ _ _ =>
    intro live
    obtain ⟨old, here, _, owned⟩ := isLive_iff_slots.mp live
    rw [shift.index_of_mem born] at here
    rw [shift.unowned_of_mem born here] at owned
    exact absurd owned (by decide)
  | note event none _ =>
    rw [none.1] at born
    exact absurd born (Multiset.notMem_zero id)

theorem nodup (turn : pool.Turn births lost after) : births.Nodup := by
  cases turn with
  | slot shift _ _ _ => exact shift.nodup
  | note event none _ => exact none.1 ▸ Multiset.nodup_zero

end Turn

/-! ## All turns since a pool was empty -/

/-- No slot has lost its node so often that its generations begin again. -/
def Unwrapped (losses : Multiset Nat) : Prop := ∀ index, losses.count index < UInt32.size

theorem Unwrapped.of_add {lost losses : Multiset Nat} (unwrapped : Unwrapped (lost + losses)) :
    Unwrapped losses := by
  intro index
  have bound := unwrapped index
  rw [Multiset.count_add] at bound
  omega

/-- What a pool has been through since it was empty, as far as its slots can tell. -/
structure Past (pool : Pool) (handed : Multiset NodeId) (losses : Multiset Nat) : Prop where
  tidy : pool.Tidy
  generation : ∀ (index : Nat) slot, pool.slots[index]? = some slot →
    slot.generation.toNat = losses.count index % UInt32.size
  unused : ∀ index : Nat, pool.slots[index]? = none → losses.count index = 0
  handed_of_live : ∀ id, pool.isLive id → id ∈ handed
  nodup : Unwrapped losses → handed.Nodup
  outlived : Unwrapped losses → ∀ id ∈ handed,
    pool.isLive id ∨ id.generation.toNat < losses.count id.index

namespace Past

variable {pool after : Pool} {handed births : Multiset NodeId} {losses lost : Multiset Nat}
  {id : NodeId}

theorem empty (sizing : Sizing) : (Pool.empty sizing).Past 0 0 where
  tidy := tidy_empty sizing
  generation := by simp [Pool.empty]
  unused := by simp
  handed_of_live := fun id live => (not_isLive_empty sizing id live).elim
  nodup := fun _ => Multiset.nodup_zero
  outlived := by simp

/-- A live handle is of the generation that its slot is in. -/
theorem generation_of_live (past : pool.Past handed losses) (unwrapped : Unwrapped losses)
    (live : pool.isLive id) : id.generation.toNat = losses.count id.index := by
  obtain ⟨slot, here, same, _⟩ := isLive_iff_slots.mp live
  rw [← same, past.generation id.index slot here, Nat.mod_eq_of_lt (unwrapped id.index)]

theorem generation_after (past : pool.Past handed losses) (turn : pool.Turn births lost after)
    (index : Nat) (slot : Slot) (now : after.slots[index]? = some slot) :
    slot.generation.toNat = (lost + losses).count index % UInt32.size := by
  rw [Multiset.count_add]
  cases turn with
  | @slot changed new shift slots _ _ =>
    rw [slots] at now
    split at now
    case isTrue same =>
      cases now
      rw [same]
      exact shift.generation (past.generation changed) (past.unused changed)
    case isFalse differ =>
      have kept : index ∉ lost := fun loses => differ (shift.eq_of_mem loses)
      rw [Multiset.count_eq_zero.mpr kept, Nat.zero_add]
      exact past.generation index slot now
  | note event none after_eq =>
    subst after_eq
    rw [none.2, Multiset.count_zero, Nat.zero_add]
    exact past.generation index slot now

theorem unused_after (past : pool.Past handed losses) (turn : pool.Turn births lost after)
    (index : Nat) (missing : after.slots[index]? = none) : (lost + losses).count index = 0 := by
  rw [Multiset.count_add]
  cases turn with
  | slot shift slots _ _ =>
    rw [slots] at missing
    split at missing
    case isTrue => cases missing
    case isFalse differ =>
      have kept : index ∉ lost := fun loses => differ (shift.eq_of_mem loses)
      rw [Multiset.count_eq_zero.mpr kept, past.unused index missing]
  | note event none after_eq =>
    subst after_eq
    rw [none.2, Multiset.count_zero, past.unused index missing]

/-- A turn gives out no handle that has been given out before. -/
theorem notMem_of_born (past : pool.Past handed losses) (turn : pool.Turn births lost after)
    (unwrapped : Unwrapped (lost + losses)) (born : id ∈ births) : id ∉ handed := by
  intro member
  obtain ⟨slot, now, same, _⟩ := isLive_iff_slots.mp (turn.isLive_iff.mpr (.inl born))
  have present := past.generation_after turn id.index slot now
  rw [same, Nat.mod_eq_of_lt (unwrapped id.index), Multiset.count_add] at present
  rcases past.outlived unwrapped.of_add id member with live | outlived
  · exact turn.not_isLive_of_mem born live
  · omega

/-- What a pool has been through grows by what a turn gives out and leaves without an owner. -/
theorem turn (past : pool.Past handed losses) (turn : pool.Turn births lost after) :
    after.Past (births + handed) (lost + losses) := by
  constructor
  case tidy => exact turn.tidy past.tidy
  case generation => exact past.generation_after turn
  case unused => exact past.unused_after turn
  case handed_of_live =>
    intro id live
    rw [Multiset.mem_add]
    exact (turn.isLive_iff.mp live).imp_right fun before => past.handed_of_live id before.1
  case nodup =>
    intro unwrapped
    refine Multiset.nodup_add.mpr ⟨turn.nodup, past.nodup unwrapped.of_add, ?_⟩
    exact Multiset.disjoint_left.mpr fun born => past.notMem_of_born turn unwrapped born
  case outlived =>
    intro unwrapped id member
    rw [turn.isLive_iff, Multiset.count_add]
    rcases Multiset.mem_add.mp member with born | member
    · exact .inl (.inl born)
    rcases past.outlived unwrapped.of_add id member with live | outlived
    · have present := past.generation_of_live unwrapped.of_add live
      by_cases loses : id.index ∈ lost
      · have once := Multiset.one_le_count_iff_mem.mpr loses
        exact .inr (by omega)
      · exact .inl (.inr ⟨live, loses⟩)
    · exact .inr (by omega)

theorem course (past : pool.Past handed losses) (course : pool.Course births lost after) :
    after.Past (births + handed) (lost + losses) := by
  induction course with
  | refl => simpa only [zero_add] using past
  | tail _ turn ih =>
    rw [add_assoc, add_assoc]
    exact ih.turn turn

end Past

end SyntaxForest.Pool
