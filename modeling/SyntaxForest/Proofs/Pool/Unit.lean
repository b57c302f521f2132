import SyntaxForest.Proofs.Computes
import SyntaxForest.Proofs.Pool.View

/-! # One unit, one handle

What the four operations on a single node do to a pool, for any caller: `Changed` says which handle
they touch, what is found there afterwards, and that the free list stays sound.
-/

namespace SyntaxForest.Pool

open PoolM

/-- Another slot, or none, is found at one handle, and the pool is as fit for reuse as it was. -/
structure Changed (pool : Pool) (id : NodeId) (slot : Option Slot) (after : Pool) : Prop where
  slot?_eq : after.slot? = Function.update pool.slot? id slot
  tidy : pool.Tidy → after.Tidy

section Tidy

variable {pool : Pool} {index : Nat} {old new : Slot} {free : List Nat}

theorem Tidy.setSlot (tidy : pool.Tidy) (here : pool.slots[index]? = some old)
    (nodup : free.Nodup) (others : ∀ other, other ≠ index → (other ∈ free ↔ other ∈ pool.free))
    (listed : index ∈ free ↔ new.refCount = 0) (blank : new.refCount = 0 → new.node = .blank) :
    (({ pool with free } : Pool).setSlot index new).Tidy := by
  have inside := (Array.getElem?_eq_some_iff.mp here).1
  have slots := @getElem?_setSlot { pool with free } new index inside
  refine ⟨nodup, fun other => ?_, fun other slot found unowned => ?_⟩
  · change other ∈ free ↔ _
    simp only [slots]
    by_cases same : other = index
    · simp only [same, listed, if_true, Option.some.injEq, exists_eq_left']
    · simp only [if_neg same, others other same, tidy.mem_free_iff]
  · simp only [slots] at found
    split at found
    case isTrue =>
      cases found
      exact blank unowned
    case isFalse => exact tidy.blank other slot found unowned

theorem Tidy.setSlot_live (tidy : pool.Tidy) (here : pool.slots[index]? = some old)
    (owned : 0 < old.refCount) (stays : 0 < new.refCount) : (pool.setSlot index new).Tidy := by
  have nonzero : new.refCount ≠ 0 := UInt32.pos_iff_ne_zero.mp stays
  exact tidy.setSlot here tidy.nodup (fun _ _ => Iff.rfl)
    (iff_of_false (tidy.notMem_free here owned) nonzero) (absurd · nonzero)

theorem Tidy.setSlot_dead (tidy : pool.Tidy) (here : pool.slots[index]? = some old)
    (owned : 0 < old.refCount) (generation : Word) :
    (({ pool with free := index :: pool.free } : Pool).setSlot index
      ⟨generation, 0, .blank⟩).Tidy := by
  have unlisted := tidy.notMem_free here owned
  refine tidy.setSlot here (List.nodup_cons.mpr ⟨unlisted, tidy.nodup⟩) ?_ ?_ ?_
  · intro other differ
    simp [differ]
  · simp
  · exact fun _ => rfl

theorem Tidy.setSlot_free (tidy : pool.Tidy) (listed : pool.free = index :: free)
    (here : pool.slots[index]? = some old) (owned : 0 < new.refCount) :
    (({ pool with free } : Pool).setSlot index new).Tidy := by
  obtain ⟨unlisted, nodup⟩ := List.nodup_cons.mp (listed ▸ tidy.nodup)
  have nonzero : new.refCount ≠ 0 := UInt32.pos_iff_ne_zero.mp owned
  refine tidy.setSlot here nodup ?_ (iff_of_false unlisted nonzero) (absurd · nonzero)
  intro other differ
  simp [listed, differ]

theorem Tidy.push (tidy : pool.Tidy) (owned : 0 < new.refCount) :
    ({ pool with slots := pool.slots.push new } : Pool).Tidy := by
  have nonzero : new.refCount ≠ 0 := UInt32.pos_iff_ne_zero.mp owned
  refine ⟨tidy.nodup, fun index => ?_, fun index slot found unowned => ?_⟩
  · simp only [tidy.mem_free_iff, Array.getElem?_push]
    by_cases last : index = pool.slots.size
    · simp [last, nonzero]
    · simp [last]
  · simp only [Array.getElem?_push] at found
    split at found
    case isTrue =>
      cases found
      exact absurd unowned nonzero
    case isFalse => exact tidy.blank index slot found unowned

theorem Tidy.note (tidy : pool.Tidy) (journal : Array Event) :
    ({ pool with journal } : Pool).Tidy :=
  ⟨tidy.nodup, tidy.mem_free_iff, tidy.blank⟩

theorem tidy_empty (sizing : Sizing) : (empty sizing).Tidy :=
  ⟨List.nodup_nil, by simp [empty], by simp [empty]⟩

end Tidy

section Unit

variable {pool : Pool} {id : NodeId} {slot : Slot}

theorem write_ok (node : Node) (found : pool.slot? id = some slot) :
    ∃ after, write id node pool = .ok () after ∧
      pool.Changed id (some { slot with node }) after := by
  obtain ⟨here, generation, owned⟩ := slot?_eq_some_iff.mp found
  refine ⟨pool.setSlot id.index { slot with node }, by simp only [write, found], ?_, ?_⟩
  · exact slot?_setSlot_live found generation owned
  · exact fun tidy => tidy.setSlot_live here owned owned

theorem changed_of_write {node : Node} {after : Pool} (ran : write id node pool = .ok () after) :
    ∃ slot : Slot, pool.slot? id = some slot ∧
      pool.Changed id (some { slot with node }) after := by
  cases found : pool.slot? id with
  | none =>
    rw [write, found] at ran
    cases ran
  | some slot =>
    obtain ⟨_, ran', changed⟩ := write_ok node found
    cases ran.symm.trans ran'
    exact ⟨slot, rfl, changed⟩

theorem isLive_of_retain {after : Pool} (ran : retain id pool = .ok () after) : pool.isLive id := by
  unfold retain at ran
  split at ran
  case h_1 => cases ran
  case h_2 slot found => exact isLive_iff.mpr ⟨slot, found⟩

theorem retain_computes (found : pool.slot? id = some slot) :
    Computes (retain id) pool (some ()) fun _ _ after =>
      ∃ refCount : Word, refCount.toNat = slot.refCount.toNat + 1 ∧
        pool.Changed id (some { slot with refCount }) after := by
  obtain ⟨here, generation, owned⟩ := slot?_eq_some_iff.mp found
  cases sum : slot.refCount.add? 1 with
  | none =>
    have most := Word.add?_eq_none_iff.mp sum
    have bounded := slot.refCount.toNat_lt_size
    have counted : pool.refCount id = slot.refCount := refCount_of_slot? found
    simp only [Computes, retain, found, sum]
    refine .inl (.owners ?_)
    rw [counted]
    exact Nat.le_antisymm bounded most
  | some refCount =>
    have counted : slot.refCount.toNat + 1 = refCount.toNat := Word.add?_eq_some_iff.mp sum
    have owned' : 0 < refCount := UInt32.lt_iff_toNat_lt.mpr (by simp; omega)
    have ran : retain id pool = .ok () (pool.setSlot id.index { slot with refCount }) := by
      simp only [retain, found, sum]
    refine .of_ok ran ⟨refCount, counted.symm, ?_, ?_⟩
    · exact slot?_setSlot_live found generation owned'
    · exact fun tidy => tidy.setSlot_live here owned owned'

theorem dropUnit_shared (found : pool.slot? id = some slot) (shared : 1 < slot.refCount.toNat) :
    ∃ after, dropUnit id pool = .ok [] after ∧
      ∃ refCount : Word, refCount.toNat + 1 = slot.refCount.toNat ∧
        pool.Changed id (some { slot with refCount }) after := by
  obtain ⟨here, generation, owned⟩ := slot?_eq_some_iff.mp found
  have counted := Word.toNat_sub_one owned
  have owned' : 0 < slot.refCount - 1 := UInt32.lt_iff_toNat_lt.mpr (by simp; omega)
  have several : slot.refCount ≠ 1 := by
    intro last
    simp [last] at shared
  refine ⟨pool.setSlot id.index { slot with refCount := slot.refCount - 1 },
    by simp only [dropUnit, found, if_neg several], _, counted, ?_, ?_⟩
  · exact slot?_setSlot_live found generation owned'
  · exact fun tidy => tidy.setSlot_live here owned owned'

theorem dropUnit_last (found : pool.slot? id = some slot) (last : slot.refCount = 1) :
    ∃ after, dropUnit id pool = .ok slot.node.children after ∧ pool.Changed id none after := by
  obtain ⟨here, generation, owned⟩ := slot?_eq_some_iff.mp found
  refine ⟨({ pool with free := id.index :: pool.free } : Pool).setSlot id.index
    ⟨slot.generation + 1, 0, .blank⟩, by simp only [dropUnit, found, if_pos last], ?_, ?_⟩
  · exact @slot?_setSlot_dead { pool with free := id.index :: pool.free } _ _ _ found rfl
  · exact fun tidy => tidy.setSlot_dead here owned _

theorem releaseAll_cons {rest owed : List NodeId} {after : Pool}
    (ran : dropUnit id pool = .ok owed after) :
    releaseAll (id :: rest) pool = releaseAll (owed.reverse ++ rest) after := by
  rw [releaseAll]
  split
  case h_1 owed middle ran' =>
    cases ran.symm.trans ran'
    rfl
  case h_2 fault middle ran' => cases ran.symm.trans ran'

/-- Nothing goes with a unit that was not the last. -/
theorem release_of_dropUnit {after : Pool} (ran : dropUnit id pool = .ok [] after) :
    release id pool = .ok () after := by
  rw [release, releaseAll_cons ran, List.reverse_nil, List.nil_append, releaseAll]

theorem acquire_computes (tidy : pool.Tidy) :
    Computes acquire pool (some ()) fun _ id after =>
      pool.slot? id = none ∧ pool.Changed id (some ⟨id.generation, 1, .blank⟩) after := by
  cases listed : pool.free with
  | nil =>
    by_cases room : pool.slots.size < UInt32.size
    · have ran : acquire pool =
          .ok ⟨pool.slots.size, 0⟩ { pool with slots := pool.slots.push ⟨0, 1, .blank⟩ } := by
        simp only [acquire, listed, if_pos room]
      refine .of_ok ran ⟨slot?_size _, ?_, ?_⟩
      · exact slot?_push (by decide)
      · exact fun tidy => tidy.push (by decide)
    · simp only [Computes, acquire, listed, if_neg room]
      exact .inl (.slots listed (Nat.not_lt.mp room))
  | cons index free =>
    obtain ⟨slot, here, unowned⟩ :=
      (tidy.mem_free_iff index).mp (listed ▸ List.mem_cons_self)
    have blank := tidy.blank index slot here unowned
    have ran : acquire pool = .ok ⟨index, slot.generation⟩
        (({ pool with free } : Pool).setSlot index { slot with refCount := 1 }) := by
      simp only [acquire, listed, here, if_pos unowned]
    refine .of_ok ran ⟨slot?_free here unowned _, ?_, ?_⟩
    · rw [← blank]
      exact @slot?_setSlot_free { pool with free } slot { slot with refCount := 1 } index here
        unowned (by simp)
    · exact fun tidy => tidy.setSlot_free listed here (by simp)

end Unit

end SyntaxForest.Pool
