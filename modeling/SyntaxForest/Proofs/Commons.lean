import SyntaxForest.Proofs.Pool.Yields
import SyntaxForest.Proofs.Session

/-! # Pools in anyone's hands

Callers need not keep to what they own. They may put one unit into two child lists, give up units
that they do not hold, edit a node that is not theirs, or write to whatever they have a handle to.
Counts of owners then mean nothing, child lists hold handles that have gone or lead back to their
own node, but the free list stays sound and no handle comes back to life. A commons is a pool with
an account of the handles that it has given out and of the nodes that its slots have lost.
-/

namespace SyntaxForest

open PoolM

namespace Call

/-- Whether the answer to the call is a handle that no one has had before. -/
def creates : Call → Bool
  | .acquire | .makeLeaf .. | .makeError .. | .makeNode .. => true
  | .retain .. | .release .. | .edit .. | .amend .. => false

end Call

/-- All by which anyone can change a pool. -/
inductive Move where
  | call (call : Call)
  /-- An edit that may go so deep, deeper than the pool has slots if child lists form a cycle. -/
  | edit (depth : Nat) (root : NodeId) (change : TextEdit)
  /-- Writes to the public fields of a node, if it is still there. -/
  | amendIfLive (id : NodeId) (change : NodeInfo → NodeInfo)
  /-- Puts a whole node, with its child list, in the place of another. -/
  | replace (id : NodeId) (node : Node)

/-- Makes the move and answers with the new handle that its answer names, if any. -/
def Move.perform : Move → PoolM (Multiset NodeId)
  | .call request => do
    let given ← request.perform
    return if request.creates then given else 0
  | .edit depth root change => do
    let _ ← Pool.editBy (Pool.applyEditWithin fun _ => depth) root change
    return 0
  | .amendIfLive id change => do
    let _ ← Pool.amendIfLive id change
    return 0
  | .replace id node => do
    Pool.write id node
    return 0

/-! ## Edits without a bound -/

namespace Pool

variable {pool after : Pool} {root edited : NodeId} {edit : TextEdit}

/-- The edit has been carried into the tree by all the tasks that there were, however deep they
led. -/
def Applies (pool : Pool) (root : NodeId) (edit : TextEdit) (edited : NodeId) (after : Pool) :
    Prop :=
  ∃ unique tasks changed, makeUnique root pool = .ok edited unique ∧
    changeNode edit edited unique = .ok tasks changed ∧ Agenda.Goes editStep tasks changed after

/-- An edit that comes to an end does so within some depth, so that it is one of the moves. -/
theorem applies_iff : pool.Applies root edit edited after ↔
    ∃ depth, applyEditWithin (fun _ => depth) root edit pool = .ok edited after := by
  constructor
  · rintro ⟨unique, tasks, changed, isUnique, changes, goes⟩
    obtain ⟨depth, ran⟩ := (Agenda.goes_iff_exists_run .endless).mp goes
    have carried : carryOut depth tasks changed = .ok () after := ran
    refine ⟨depth, ?_⟩
    rw [applyEditWithin, bind_of_ok isUnique, bind_of_ok changes]
    change (carryOut depth tasks >>= fun _ => pure edited) changed = _
    exact bind_of_ok carried
  · rintro ⟨depth, ran⟩
    obtain ⟨id, unique, isUnique, ran⟩ := bind_eq_ok ran
    obtain ⟨tasks, changed, changes, ran⟩ := bind_eq_ok ran
    obtain ⟨_, _, ⟨⟩, ran⟩ := bind_eq_ok ran
    obtain ⟨_, _, ran, ⟨⟩⟩ := bind_eq_ok ran
    exact ⟨unique, tasks, changed, isUnique, changes,
      (Agenda.goes_iff_exists_run .endless).mpr ⟨depth, ran⟩⟩

/-! ## Turns of a move -/

/-- The pool has gone through turns that have left no slot without an owner but those that are
without one in the end, and what they have given out is named or told to the journal. -/
def Led (pool : Pool) (named : Multiset NodeId) (after : Pool) : Prop :=
  ∃ births, pool.Course births (pool.lost after) after ∧ births + pool.copies = named + after.copies

theorem Told.led {pool after : Pool} {named : Multiset NodeId} (told : pool.Told named after) :
    pool.Led named after := by
  obtain ⟨births, course, told⟩ := told
  exact ⟨births, course.lost_eq_of_lossless ▸ course, told⟩

theorem ends_release (id : NodeId) (pool : Pool) :
    Ends (release id) pool (¬ ·.IsDisorder) fun _ after => pool.Led 0 after := by
  apply (ends_releaseAll [id] pool).mono
  rintro _ after ⟨lost, course, journal⟩
  refine ⟨0, course.lost_eq_of_barren ▸ course, ?_⟩
  rw [copies, copies, journal]

end Pool

/-! ## Moves -/

namespace Move

open Pool

variable {pool : Pool}

private theorem ends_of_yields {α : Type} {action : PoolM α} {named : α → Multiset NodeId}
    {give : α → Multiset NodeId} {draw : Multiset NodeId → Multiset NodeId}
    (yields : Yields action named) (tidy : pool.Tidy)
    (drawn : ∀ answer, draw (give answer) = named answer) :
    Ends (action >>= fun answer => pure (give answer)) pool (¬ ·.IsDisorder) fun given after =>
      pool.Led (draw given) after := by
  apply (yields pool tidy).bind
  intro answer after told
  exact .of_ok rfl (drawn answer ▸ told.led)

theorem ends_call (tidy : pool.Tidy) (call : Call) :
    Ends call.perform pool (¬ ·.IsDisorder) fun given after =>
      pool.Led (if call.creates then given else 0) after := by
  cases call with
  | acquire => exact ends_of_yields .acquire tidy fun _ => rfl
  | makeLeaf table symbol padding size =>
    exact ends_of_yields (.makeLeaf table symbol padding size) tidy fun _ => rfl
  | makeError table padding size lookahead =>
    exact ends_of_yields (.makeError table padding size lookahead) tidy fun _ => rfl
  | makeNode table symbol children =>
    exact ends_of_yields (.makeNode table symbol children) tidy fun _ => rfl
  | retain id => exact ends_of_yields (.retain id) tidy fun _ => rfl
  | release id =>
    apply (ends_release id pool).bind
    exact fun _ after led => .of_ok rfl led
  | edit root change =>
    apply (Yields.editBy (.applyEditWithin _) root change pool tidy).bind
    intro answer after told
    cases answer <;> exact .of_ok rfl told.led
  | amend id change => exact ends_of_yields (.amend id change) tidy fun _ => rfl

/-- What a move does, whoever makes it. -/
theorem ends (tidy : pool.Tidy) (move : Move) :
    Ends move.perform pool (¬ ·.IsDisorder) pool.Led := by
  cases move with
  | call request =>
    apply (ends_call tidy request).bind
    exact fun given after led => .of_ok rfl led
  | edit depth root change =>
    exact @ends_of_yields pool _ _ _ _ (fun named => named)
      (.editBy (.applyEditWithin fun _ => depth) root change) tidy fun _ => rfl
  | amendIfLive id change =>
    exact @ends_of_yields pool _ _ _ _ (fun named => named) (.amendIfLive id change) tidy
      fun _ => rfl
  | replace id node =>
    exact @ends_of_yields pool _ _ _ _ (fun named => named) (.write id node) tidy fun _ => rfl

end Move

/-! ## A sound free list -/

namespace Pool

variable {pool after : Pool} {id : NodeId}

/-- The free list can be trusted, and so can what is acquired from it. -/
structure Sound (pool : Pool) : Prop where
  nodup : pool.free.Nodup
  inside : ∀ index ∈ pool.free, index < pool.slots.size
  listed : ∀ (index : Nat) (inside : index < pool.slots.size),
    index ∈ pool.free ↔ pool.slots[index].refCount = 0
  blank : ∀ (index : Nat) (inside : index < pool.slots.size),
    pool.slots[index].refCount = 0 → pool.slots[index].node = .blank
  liveCount_eq : pool.liveCount = pool.slots.toList.countP (0 < ·.refCount)
  acquired : ∀ id after, acquire pool = .ok id after →
    pool.owners id.index = 0 ∧ after.slots[id.index]? = some ⟨id.generation, 1, .blank⟩

theorem Tidy.liveCount_eq_countP (tidy : pool.Tidy) :
    pool.liveCount = pool.slots.toList.countP (0 < ·.refCount) := by
  have owners : pool.slots.toList.map (·.refCount) =
      (List.range pool.slots.size).map pool.owners := by
    apply List.ext_getElem
    · simp
    · intro index inside _
      simp only [List.length_map, Array.length_toList] at inside
      simp [Pool.owners, inside]
  have listed : ((List.range pool.slots.size).filter (pool.owners · = 0)).Perm pool.free := by
    refine (List.perm_ext_iff_of_nodup (List.nodup_range.filter _) tidy.nodup).mpr fun index => ?_
    rw [tidy.mem_free_iff]
    by_cases inside : index < pool.slots.size
    · simp [Pool.owners, inside]
    · simp [inside]
  have counted : pool.slots.toList.countP (0 < ·.refCount) =
      (List.range pool.slots.size).countP (0 < pool.owners ·) := by
    have mapped := congrArg (List.countP (0 < ·)) owners
    rwa [List.countP_map, List.countP_map] at mapped
  have split : (List.range pool.slots.size).length = _ :=
    List.length_eq_countP_add_countP (pool.owners · = 0)
  rw [List.length_range, List.countP_eq_length_filter, listed.length_eq] at split
  simp only [decide_eq_true_eq, ← ne_eq, ← UInt32.pos_iff_ne_zero] at split
  rw [liveCount, counted]
  omega

theorem Tidy.sound (tidy : pool.Tidy) : pool.Sound where
  nodup := tidy.nodup
  inside := by
    intro index member
    obtain ⟨slot, here, _⟩ := (tidy.mem_free_iff index).mp member
    exact (Array.getElem?_eq_some_iff.mp here).1
  listed := by
    intro index inside
    rw [tidy.mem_free_iff, Array.getElem?_eq_getElem inside]
    simp
  blank := fun index inside => tidy.blank index _ (Array.getElem?_eq_getElem inside)
  liveCount_eq := tidy.liveCount_eq_countP
  acquired := by
    intro id after ran
    obtain ⟨turn, _⟩ := turn_of_acquire ran
    obtain ⟨_, _, _, changed⟩ := (acquire_computes tidy).result ran
    refine ⟨turn.unowned_of_mem (Multiset.mem_singleton_self id), ?_⟩
    exact (slot?_eq_some_iff.mp (by rw [changed.slot?_eq, Function.update_self])).1

theorem owners_setSlot {index : Nat} {new : Slot} (inside : index < pool.slots.size) :
    (pool.setSlot index new).owners index = new.refCount := by
  rw [owners, getElem?_setSlot inside, if_pos rfl, Option.map_some, Option.getD_some]

/-- An owner that is given up was counted. -/
theorem owners_of_dropUnit {owed : List NodeId} (ran : dropUnit id pool = .ok owed after) :
    (after.owners id.index).toNat + 1 = (pool.owners id.index).toNat := by
  obtain ⟨slot, found, dropped⟩ := dropUnit_cases ran
  obtain ⟨here, _, owned⟩ := slot?_eq_some_iff.mp found
  have inside := (Array.getElem?_eq_some_iff.mp here).1
  have counted : pool.owners id.index = slot.refCount := by simp [owners, here]
  rw [counted]
  rcases dropped with ⟨last, _, rfl⟩ | ⟨_, _, rfl⟩
  · rw [owners_setSlot (by exact inside), last]
    rfl
  · rw [owners_setSlot inside]
    exact Word.toNat_sub_one owned

/-! ## Handles that have gone -/

/-- The handle leads to no node, and nothing can be done with it. -/
structure Gone (pool : Pool) (id : NodeId) : Prop where
  not_isLive : pool.isLive id = false
  refCount_eq : pool.refCount id = 0
  node?_eq : pool.node? id = none
  amendIfLive_eq : ∀ change, amendIfLive id change pool = .ok false pool
  node_eq : pool.node id = .error (.released id)
  amend_eq : ∀ change, amend id change pool = .error (.released id) pool
  retain_eq : retain id pool = .error (.released id) pool
  release_eq : release id pool = .error (.released id) pool

theorem gone_iff : pool.Gone id ↔ ¬ pool.isLive id := by
  constructor
  · intro gone live
    rw [gone.not_isLive] at live
    cases live
  intro dead
  have missing : pool.slot? id = none := by simpa [isLive] using dead
  have unread : pool.node id = .error (.released id) := by simp [Pool.node, node?, missing]
  constructor
  case not_isLive => simp [isLive, missing]
  case refCount_eq => simp [refCount, missing]
  case node?_eq => simp [node?, missing]
  case amendIfLive_eq =>
    intro change
    change (if pool.isLive id then amend id change >>= fun _ => pure true else pure false : PoolM Bool)
      pool = _
    rw [if_neg dead]
    rfl
  case node_eq => exact unread
  case amend_eq =>
    intro change
    simp only [amend, bind, EStateM.bind, query, unread]
  case retain_eq => simp only [retain, missing]
  case release_eq =>
    have dropped : dropUnit id pool = .error (.released id) pool := by simp only [dropUnit, missing]
    rw [release, releaseAll]
    split
    case h_1 ran => cases ran.symm.trans dropped
    case h_2 stopped =>
      cases stopped.symm.trans dropped
      rfl

end Pool

/-! ## Commons -/

structure Commons where
  pool : Pool
  /-- The handles that an answer has named or the journal has told of. -/
  handed : Multiset NodeId
  /-- The slots that have been left without an owner, each as often as it was. -/
  losses : Multiset Nat

namespace Commons

def start (sizing : Sizing) : Commons := ⟨.empty sizing, 0, 0⟩

/-- The commons after a move, unless it stops half-way. No move both takes the last owner from a slot
and gives the slot another (`Pool.Led`), so the slots that it leaves without an owner are those that
are seen to have none afterwards. -/
def step? (commons : Commons) (move : Move) : Option Commons :=
  match move.perform commons.pool with
  | .ok named after => some ⟨after, named + after.copies - commons.pool.copies + commons.handed,
    commons.pool.lost after + commons.losses⟩
  | .error _ _ => none

/-- The second commons is what some moves have made of the first. -/
inductive Later (commons : Commons) : Commons → Prop where
  | refl : Later commons commons
  | step {middle after : Commons} (move : Move) (before : Later commons middle)
    (stepped : middle.step? move = some after) : Later commons after

/-- The commons is what some moves have made of an empty pool. -/
def Reached (commons : Commons) : Prop := ∃ sizing, (start sizing).Later commons

variable {commons middle after : Commons} {move : Move} {id : NodeId}

theorem Later.trans (first : commons.Later middle) (second : middle.Later after) :
    commons.Later after := by
  induction second with
  | refl => exact first
  | step move _ stepped ih => exact .step move ih stepped

/-- What was given out stays given out, and what was lost stays lost. -/
theorem Later.grows (later : commons.Later after) :
    commons.handed ≤ after.handed ∧ commons.losses ≤ after.losses := by
  induction later with
  | refl => exact ⟨le_rfl, le_rfl⟩
  | step move _ stepped ih =>
    unfold step? at stepped
    split at stepped
    case h_1 =>
      cases stepped
      exact ⟨ih.1.trans (Multiset.le_add_left _ _), ih.2.trans (Multiset.le_add_left _ _)⟩
    case h_2 => cases stepped

theorem past_step? (past : commons.pool.Past commons.handed commons.losses)
    (stepped : commons.step? move = some after) : after.pool.Past after.handed after.losses := by
  unfold step? at stepped
  split at stepped
  case h_1 named pool ran =>
    cases stepped
    obtain ⟨births, course, told⟩ := (move.ends past.tidy).result ran
    rw [← told, add_tsub_cancel_right]
    exact past.course course
  case h_2 => cases stepped

/-- The account of a commons is right, whatever its callers have done. -/
theorem Reached.past (reached : commons.Reached) :
    commons.pool.Past commons.handed commons.losses := by
  obtain ⟨sizing, later⟩ := reached
  induction later with
  | refl => exact .empty sizing
  | step _ _ stepped ih => exact past_step? ih stepped

theorem Reached.later (reached : commons.Reached) (later : commons.Later after) :
    after.Reached := by
  obtain ⟨sizing, before⟩ := reached
  exact ⟨sizing, before.trans later⟩

/-- A token of one byte, and a node over the token and the node itself. -/
def coil : Pool where
  slots :=
    #[⟨0, 1, ⟨{ NodeInfo.blank with lengths := ⟨.zero, ⟨1, ⟨0, 1⟩⟩, 1⟩ }, []⟩⟩,
      ⟨0, 1, ⟨{ NodeInfo.blank with lengths := ⟨.zero, ⟨9, ⟨0, 9⟩⟩, 9⟩ }, [⟨0, 0⟩, ⟨1, 0⟩]⟩⟩]
  free := []
  journal := #[]
  sizing := .standard

theorem reached_coil : ∃ commons : Commons, commons.Reached ∧ commons.pool = coil := by
  have token : (start .standard).Later _ := .step (.call .acquire) .refl rfl
  have node := token.step (.call .acquire) rfl
  have read := node.step
    (.replace ⟨0, 0⟩ ⟨{ NodeInfo.blank with lengths := ⟨.zero, ⟨1, ⟨0, 1⟩⟩, 1⟩ }, []⟩) rfl
  have coiled := read.step (.replace ⟨1, 0⟩
    ⟨{ NodeInfo.blank with lengths := ⟨.zero, ⟨9, ⟨0, 9⟩⟩, 9⟩ }, [⟨0, 0⟩, ⟨1, 0⟩]⟩) rfl
  exact ⟨_, ⟨_, coiled⟩, rfl⟩

theorem isSome_step? (commons : Commons) (move : Move) : (commons.step? move).isSome =
    match move.perform commons.pool with
    | .ok _ _ => true
    | .error _ _ => false := by
  unfold step?
  split <;> rfl

/-- An insertion goes through the node five times before the token takes it, deeper than the pool has
slots. -/
theorem edit_of_coil : ∃ commons : Commons, commons.Reached ∧ commons.pool.slots.size = 2 ∧
    (commons.step? (.edit 2 ⟨1, 0⟩ ⟨⟨5, ⟨0, 5⟩⟩, .zero, ⟨1, ⟨0, 1⟩⟩⟩)).isSome = false ∧
      (commons.step? (.edit 5 ⟨1, 0⟩ ⟨⟨5, ⟨0, 5⟩⟩, .zero, ⟨1, ⟨0, 1⟩⟩⟩)).isSome = true := by
  obtain ⟨commons, reached, isCoil⟩ := reached_coil
  refine ⟨commons, reached, by rw [isCoil]; rfl, ?_, ?_⟩
  all_goals
    rw [isSome_step?, Move.perform, isCoil, Pool.applyEditWithin_eq_descendEdit]
    decide +kernel

/-- Whatever is done to a pool, its free list stays sound: no move comes upon a slot in use on it,
and no owner is given up that was not counted. -/
theorem Reached.stays_sound (reached : commons.Reached) :
    commons.pool.Sound ∧
      (∀ (move : Move) (index : Nat) (after : Pool),
        move.perform commons.pool ≠ .error (.freeSlotInUse index) after) ∧
      ∀ (id : NodeId) (owed : List NodeId) (pool after : Pool),
        Pool.dropUnit id pool = .ok owed after →
          (after.owners id.index).toNat + 1 = (pool.owners id.index).toNat := by
  have tidy := reached.past.tidy
  refine ⟨tidy.sound, fun move index after stopped => ?_, fun _ _ _ _ => Pool.owners_of_dropUnit⟩
  exact (move.ends tidy).fault stopped trivial

theorem step?_release {pool : Pool} (freed : Pool.release id commons.pool = .ok () pool) :
    commons.step? (.call (.release id)) =
      some ⟨pool, 0 + pool.copies - commons.pool.copies + commons.handed,
        commons.pool.lost pool + commons.losses⟩ := by
  have given : (Call.release id).perform commons.pool = .ok 0 pool := bind_of_ok freed
  have performed : (Move.call (.release id)).perform commons.pool = .ok 0 pool := bind_of_ok given
  simp only [step?, performed]

/-- One unit of a leaf goes to two parents, and one of the parents is given up. The slot of the leaf
is used again while the other parent still holds the old handle. -/
theorem stays_sound_of_unit_used_twice : ∃ commons : Commons,
    commons.pool.childrenOf ⟨2, 0⟩ = [⟨0, 0⟩] ∧ commons.pool.isLive ⟨0, 0⟩ = false ∧
      commons.pool.isLive ⟨0, 1⟩ ∧ commons.pool.Sound := by
  have acquired : (start .standard).Later _ := .step (.call .acquire) .refl rfl
  have first := acquired.step (.call (.makeNode .empty .endOfInput [⟨0, 0⟩])) rfl
  have second := first.step (.call (.makeNode .empty .endOfInput [⟨0, 0⟩])) rfl
  have released := second.step (.call (.release ⟨1, 0⟩)) <| step?_release <|
    Eq.trans (Pool.releaseAll_cons rfl) (Pool.release_of_dropUnit rfl)
  have reused := released.step (.call .acquire) rfl
  exact ⟨_, rfl, rfl, rfl, (Reached.stays_sound ⟨.standard, reused⟩).1⟩

/-- As long as no slot has been left without an owner so often that its generations begin again, a
handle that has gone does not come back to life. -/
theorem gone_of_later (unwrapped : Pool.Unwrapped after.losses) (before : middle.Reached)
    (later : middle.Later after) (given : id ∈ middle.handed) (dead : ¬ middle.pool.isLive id) :
    after.pool.Gone id := by
  obtain ⟨_, lost⟩ := later.grows
  have unwrapped' : Pool.Unwrapped middle.losses := fun index =>
    Nat.lt_of_le_of_lt (Multiset.count_le_of_le index lost) (unwrapped index)
  refine Pool.gone_iff.mpr fun live => ?_
  rcases before.past.outlived unwrapped' id given with alive | outlived
  · exact dead alive
  · have present := (before.later later).past.generation_of_live unwrapped live
    have most := Multiset.count_le_of_le id.index lost
    omega

/-- The generation of a slot counts how often the slot was left without an owner, around the range
of a word. Within that range no handle is given out twice, and none that has gone comes back. Every
handle that is or was live has been given out. -/
theorem Reached.never_revived (reached : commons.Reached) :
    (∀ (index : Nat) (slot : Slot), commons.pool.slots[index]? = some slot →
        slot.generation.toNat = commons.losses.count index % 2 ^ 32) ∧
      (∀ id, commons.pool.isLive id → id ∈ commons.handed) ∧
      ((∀ index, commons.losses.count index < 2 ^ 32) → commons.handed.Nodup ∧
        ∀ middle : Commons, middle.Reached → middle.Later commons →
          ∀ id ∈ middle.handed, ¬ middle.pool.isLive id → commons.pool.Gone id) := by
  have past := reached.past
  refine ⟨past.generation, past.handed_of_live, fun unwrapped => ⟨past.nodup unwrapped, ?_⟩⟩
  exact fun middle before later id => gone_of_later unwrapped before later

/-- A slot that is used a second time, after the node that it held was given up. -/
theorem never_revived_of_reuse : ∃ commons : Commons, commons.handed = {⟨0, 1⟩, ⟨0, 0⟩} ∧
    commons.losses = {0} ∧ commons.pool.isLive ⟨0, 1⟩ ∧ commons.handed.Nodup ∧
      commons.pool.Gone ⟨0, 0⟩ := by
  have acquired : (start .standard).Later _ := .step (.call .acquire) .refl rfl
  have released := acquired.step (.call (.release ⟨0, 0⟩)) <| step?_release <|
    Pool.release_of_dropUnit rfl
  have reached : Reached _ := ⟨.standard, released.step (.call .acquire) rfl⟩
  obtain ⟨nodup, gone⟩ := reached.never_revived.2.2 fun index => by
    have once : ({0} : Multiset Nat).count index ≤ 1 := Multiset.count_le_card _ _
    exact Nat.lt_of_le_of_lt once (by decide)
  have before : Reached _ := ⟨.standard, released⟩
  have handle := gone _ before (.step (.call .acquire) .refl rfl) ⟨0, 0⟩ (by decide) (by decide)
  exact ⟨_, by decide, by decide, by decide, nodup, handle⟩

end Commons

end SyntaxForest
