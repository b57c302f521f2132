import SyntaxForest.Proofs.Pool.Course

/-! # What anyone gets out of a pool

Nothing is asked of the caller here. Counts may disagree with the number of parents and child lists
may hold handles that have gone: as long as the free list is sound, an action keeps it so, and the
handles that it gives out are those that its answer names and those that it tells the journal of. An
edit in particular leaves no slot without an owner, for a node is copied only while it has several.
-/

namespace SyntaxForest

open PoolM

/-! ## Single operations -/

namespace Pool

/-- The pool has gone through turns in which no node lost an owner. -/
structure Enriches (pool : Pool) (births : Multiset NodeId) (after : Pool) : Prop where
  course : pool.Course births 0 after
  journal : after.journal = pool.journal
  owners : ∀ id, (pool.refCount id).toNat ≤ (after.refCount id).toNat

variable {pool middle after : Pool} {births births' : Multiset NodeId} {id : NodeId}

theorem Enriches.trans (first : pool.Enriches births middle)
    (second : middle.Enriches births' after) : pool.Enriches (births' + births) after where
  course := by simpa only [add_zero] using first.course.trans second.course
  journal := second.journal.trans first.journal
  owners := fun id => Nat.le_trans (first.owners id) (second.owners id)

theorem ends_retain (id : NodeId) (pool : Pool) :
    Ends (retain id) pool (¬ ·.IsDisorder) fun _ after => pool.Enriches 0 after := by
  unfold Ends
  cases ran : retain id pool with
  | ok answer after =>
    obtain ⟨turn, journal⟩ := turn_of_retain ran
    obtain ⟨slot, found⟩ := isLive_iff.mp (isLive_of_retain ran)
    obtain ⟨_, _, refCount, counted, changed⟩ := (retain_computes found).result ran
    refine ⟨.of_turn turn, journal, changed.refCount_le ?_⟩
    rw [refCount_of_slot? found, counted]
    exact Nat.le_succ _
  | error fault after =>
    unfold retain at ran
    split at ran
    case h_1 =>
      cases ran
      exact not_false
    case h_2 =>
      split at ran
      · cases ran
        exact not_false
      · cases ran

theorem ends_retainAll (ids : List NodeId) (pool : Pool) :
    Ends (ids.forM retain) pool (¬ ·.IsDisorder) fun _ after => pool.Enriches 0 after := by
  induction ids generalizing pool with
  | nil => exact .of_ok rfl ⟨.refl, rfl, fun _ => Nat.le_refl _⟩
  | cons id ids ih =>
    change Ends (retain id >>= fun _ => ids.forM retain) pool _ _
    apply (ends_retain id pool).bind
    intro _ middle enriched
    apply (ih middle).mono
    exact fun _ _ enriched' => enriched.trans enriched'

theorem ends_write (id : NodeId) (node : Node) (pool : Pool) :
    Ends (write id node) pool (¬ ·.IsDisorder) fun _ after => pool.Enriches 0 after := by
  unfold Ends
  cases ran : write id node pool with
  | ok answer after =>
    obtain ⟨turn, journal⟩ := turn_of_write ran
    obtain ⟨slot, found, changed⟩ := changed_of_write ran
    exact ⟨.of_turn turn, journal, changed.refCount_le (by rw [refCount_of_slot? found])⟩
  | error fault after =>
    unfold write at ran
    split at ran
    · cases ran
      exact not_false
    · cases ran

theorem ends_acquire (tidy : pool.Tidy) :
    Ends acquire pool (¬ ·.IsDisorder) fun id after => pool.Enriches {id} after := by
  unfold Ends
  cases ran : acquire pool with
  | ok id after =>
    obtain ⟨turn, journal⟩ := turn_of_acquire ran
    obtain ⟨_, _, missing, changed⟩ := (acquire_computes tidy).result ran
    exact ⟨.of_turn turn, journal, changed.refCount_le (by simp [refCount, missing])⟩
  | error fault after =>
    rcases (acquire_computes tidy).fault ran with limit | ⟨_, none⟩
    · cases limit <;> exact not_false
    · cases none

/-- The pool has gone through turns in which no node lost its last owner, and what they have given
out is named or told to the journal. -/
def Told (pool : Pool) (named : Multiset NodeId) (after : Pool) : Prop :=
  ∃ births, pool.Course births 0 after ∧ births + pool.copies = named + after.copies

namespace Told

variable {named named' : Multiset NodeId}

theorem refl : pool.Told 0 pool := ⟨0, .refl, rfl⟩

theorem trans (first : pool.Told named middle) (second : middle.Told named' after) :
    pool.Told (named + named') after := by
  obtain ⟨births, course, told⟩ := first
  obtain ⟨births', course', told'⟩ := second
  refine ⟨births' + births, by simpa only [add_zero] using course.trans course', ?_⟩
  rw [add_assoc, told, add_left_comm, told', add_assoc]

theorem tidy (told : pool.Told named after) (tidy : pool.Tidy) : after.Tidy := by
  obtain ⟨_, course, _⟩ := told
  exact course.tidy tidy

theorem of_enriches (enriched : pool.Enriches births after) : pool.Told births after := by
  refine ⟨births, enriched.course, ?_⟩
  rw [copies, copies, enriched.journal]

end Told

/-- A node with several owners is given up without effect on other slots. -/
theorem ends_release_shared (shared : 1 < (pool.refCount id).toNat) :
    Ends (release id) pool (¬ ·.IsDisorder) fun _ after =>
      pool.Course 0 0 after ∧ after.journal = pool.journal := by
  obtain ⟨slot, found⟩ := isLive_iff.mp (refCount_pos_iff.mp (Nat.lt_of_succ_lt shared))
  obtain ⟨after, ran, _⟩ := dropUnit_shared found (refCount_of_slot? found ▸ shared)
  refine .of_ok (release_of_dropUnit ran) ?_
  obtain ⟨lost, turn, journal, ⟨_, rfl⟩ | last⟩ := turn_of_dropUnit ran
  · exact ⟨.of_turn turn, journal⟩
  · omega

/-- Whatever goes with the units, nothing is given out. -/
theorem ends_releaseAll (pending : List NodeId) (pool : Pool) :
    Ends (releaseAll pending) pool (¬ ·.IsDisorder) fun _ after =>
      ∃ lost, pool.Course 0 lost after ∧ after.journal = pool.journal := by
  unfold Ends
  fun_induction releaseAll pending pool with
  | case1 pool => exact ⟨0, .refl, rfl⟩
  | case2 pool id rest owed middle dropped ih =>
    obtain ⟨_, turn, journal, _⟩ := turn_of_dropUnit dropped
    split
    case h_1 ran =>
      rw [ran] at ih
      obtain ⟨_, course, journal'⟩ := ih
      exact ⟨_, by simpa only [add_zero] using (Course.of_turn turn).trans course,
        journal'.trans journal⟩
    case h_2 stopped =>
      rw [stopped] at ih
      exact ih
  | case3 pool id rest fault after stopped =>
    unfold dropUnit at stopped
    split at stopped
    · cases stopped
      exact not_false
    · split at stopped <;> cases stopped

end Pool

/-! ## Actions -/

namespace PoolM

open Pool

variable {α γ : Type}

/-- The action finds no slot in use on the free list, leaves none without an owner, and gives out
what the answer names beside the copies that the journal tells of. -/
def Yields (action : PoolM α) (named : α → Multiset NodeId) : Prop :=
  ∀ pool : Pool, pool.Tidy →
    Ends action pool (¬ ·.IsDisorder) fun answer after => pool.Told (named answer) after

namespace Yields

variable {action : PoolM α} {next : α → PoolM γ} {named : γ → Multiset NodeId} {id : NodeId}

theorem pure (value : α) : Yields (Pure.pure value : PoolM α) fun _ => 0 :=
  fun _ _ => .of_ok rfl .refl

theorem fail {fault : Fault} (orderly : ¬ fault.IsDisorder) :
    Yields (throw fault : PoolM α) fun _ => 0 :=
  fun _ _ => orderly

theorem bind (first : Yields action fun _ => 0) (rest : ∀ value, Yields (next value) named) :
    Yields (action >>= next) named := by
  intro pool tidy
  apply (first pool tidy).bind
  intro value middle told
  apply (rest value middle (told.tidy tidy)).mono
  exact fun _ _ told' => by simpa only [zero_add] using told.trans told'

/-- What follows after a handle has been given out, and answers with it. -/
theorem bind_named {action : PoolM NodeId} {next : NodeId → PoolM NodeId}
    (first : Yields action fun id => {id}) (rest : ∀ id, Yields (next id) fun _ => 0)
    (same : ∀ id pool answer after, next id pool = .ok answer after → answer = id) :
    Yields (action >>= next) fun id => {id} := by
  intro pool tidy
  apply (first pool tidy).bind
  intro id middle told
  have ends := rest id middle (told.tidy tidy)
  unfold Ends at ends ⊢
  cases ran : next id middle with
  | ok answer after =>
    rw [ran] at ends
    rw [same id middle answer after ran]
    simpa only [add_zero] using told.trans ends
  | error fault after =>
    rw [ran] at ends
    exact ends

theorem of_enriches {named : α → Multiset NodeId}
    (ends : ∀ pool : Pool, pool.Tidy → Ends action pool (¬ ·.IsDisorder) fun answer after =>
      pool.Enriches (named answer) after) : Yields action named := by
  intro pool tidy
  apply (ends pool tidy).mono
  exact fun _ _ => Told.of_enriches

theorem query {read : Pool → Except Fault α}
    (reads : ∀ pool, Reads (¬ ·.IsDisorder) (read pool)) : Yields (PoolM.query read) fun _ => 0 := by
  intro pool _
  apply (Ends.query (reads pool)).mono
  rintro answer after ⟨_, rfl⟩
  exact .refl

theorem sum (value : Option α) : Yields (PoolM.sum value) fun _ => 0 := by
  cases value with
  | some value => exact pure value
  | none => exact fail not_false

theorem node (id : NodeId) : Yields (PoolM.query (·.node id)) fun _ => 0 :=
  query fun _ => Reads.node fun _ => not_false

theorem acquire : Yields Pool.acquire fun id => {id} := of_enriches fun _ => ends_acquire

theorem retain (id : NodeId) : Yields (Pool.retain id) fun _ => 0 :=
  of_enriches fun pool _ => ends_retain id pool

theorem write (id : NodeId) (node : Node) : Yields (Pool.write id node) fun _ => 0 :=
  of_enriches fun pool _ => ends_write id node pool

theorem amend (id : NodeId) (change : NodeInfo → NodeInfo) :
    Yields (Pool.amend id change) fun _ => 0 :=
  (node id).bind fun _ => write id _

theorem record {event : Event} (silent : event.copy? = none) :
    Yields (PoolM.record event) fun _ => 0 := by
  intro pool _
  refine .of_ok rfl ⟨0, .of_turn (.note event ⟨rfl, rfl⟩ rfl), ?_⟩
  simp [copies, silent]

/-- A node that has to be copied has several owners, so that giving one up leaves it another. -/
theorem makeUnique (id : NodeId) : Yields (Pool.makeUnique id) fun _ => 0 := by
  intro pool tidy
  apply (Ends.query (Reads.node fun _ => not_false)).bind
  rintro node pool ⟨found, rfl⟩
  change Ends (if pool.refCount id = 1 then _ else _) pool _ _
  split
  case isTrue => exact pure id pool tidy
  case isFalse several =>
    have shared := one_lt_refCount (isLive_of_node? (node_eq_ok_iff.mp found)) several
    apply (ends_retainAll node.children pool).bind
    intro _ retained first
    apply (ends_acquire (first.course.tidy tidy)).bind
    intro copy acquired second
    apply (ends_write copy node acquired).bind
    intro _ written third
    have grown := (first.trans second).trans third
    apply (ends_release_shared (Nat.lt_of_lt_of_le shared (grown.owners id))).bind
    rintro _ released ⟨course, journal⟩
    refine .of_ok rfl ⟨{copy}, ?_, ?_⟩
    · have noted := (grown.course.trans course).tail (.note (.copied id copy) ⟨rfl, rfl⟩ rfl)
      simpa using noted
    · simpa [copies, Event.copy?, journal, grown.journal] using
        (List.perm_append_singleton copy _).symm

theorem attach (link : Link) (child : NodeId) : Yields (Pool.attach link child) fun _ => 0 :=
  (node link.parent).bind fun _ => write link.parent _

theorem summarize (id : NodeId) : Yields (Pool.summarize id) fun _ => 0 := by
  apply (node id).bind
  intro node
  apply (query fun _ => Reads.lengthsOver not_false fun _ _ _ => not_false).bind
  exact fun _ => write id _

theorem changeNode (edit : TextEdit) (id : NodeId) : Yields (Pool.changeNode edit id) fun _ => 0 := by
  apply (node id).bind
  intro node
  apply (sum _).bind
  intro info
  apply (write id _).bind
  intro _
  split
  · exact pure _
  · apply (sum _).bind
    exact fun _ => query fun _ => Reads.shareOut not_false fun _ _ _ => not_false

theorem flagNode (offset : Word) (id : NodeId) : Yields (Pool.flagNode offset id) fun _ => 0 := by
  apply (amend id _).bind
  intro _
  apply query
  intro pool
  refine Reads.bind (Reads.node fun _ => not_false) fun node => ?_
  exact Reads.glanceBack not_false fun _ _ _ => not_false

theorem editStep (task : EditTask) : Yields (Pool.editStep task) fun _ => 0 := by
  cases task with
  | change link child edit =>
    apply (makeUnique child).bind
    intro id
    apply (attach link id).bind
    exact fun _ => changeNode edit id
  | glance link child offset =>
    apply (node child).bind
    intro node
    split
    · exact pure []
    · apply (makeUnique child).bind
      intro id
      apply (attach link id).bind
      exact fun _ => flagNode offset id
  | summarize id =>
    apply (summarize id).bind
    exact fun _ => pure []

/-- What has been told so far does not depend on the tasks that are left. -/
theorem run (agenda : List (Nat × EditTask)) :
    Yields (Agenda.run Pool.editStep .endless agenda) fun _ => 0 := by
  intro pool tidy
  refine @Ends.run _ _ pool Pool.editStep .endless (fun after _ => pool.Told 0 after) agenda ?_ .refl
  intro depth task rest middle told
  apply (editStep task middle (told.tidy tidy)).mono
  intro follow after told'
  exact ⟨fun _ _ => not_false, by simpa only [add_zero] using told.trans told'⟩

/-- However deep the tasks may lead. -/
theorem applyEditWithin (depth : Pool → Nat) (root : NodeId) (edit : TextEdit) :
    Yields (Pool.applyEditWithin depth root edit) fun _ => 0 := by
  apply (makeUnique root).bind
  intro root
  apply (changeNode edit root).bind
  intro tasks pool tidy
  change Ends (Agenda.run Pool.editStep .endless (tasks.map (depth pool, ·)) >>= _) pool _ _
  exact (run _).bind (fun _ => pure root) pool tidy

theorem editBy {apply : NodeId → TextEdit → PoolM NodeId}
    (applies : ∀ root edit, Yields (apply root edit) fun _ => 0) (root : NodeId) (edit : TextEdit) :
    Yields (Pool.editBy apply root edit) fun _ => 0 := by
  unfold Pool.editBy
  split
  · exact pure _
  · apply (node root).bind
    intro node
    apply (sum _).bind
    intro total
    split
    · exact pure _
    · split
      · apply (record rfl).bind
        exact fun _ => pure _
      · apply (record rfl).bind
        intro _
        apply (applies root edit).bind
        exact fun _ => pure _

/-! ### Building and writing -/

theorem makeLeaf (table : SymbolTable) (symbol : Symbol) (padding size : Span) :
    Yields (Pool.makeLeaf table symbol padding size) fun id => {id} := by
  apply acquire.bind_named
  · intro id
    apply (sum _).bind
    intro lengths
    exact (write id _).bind fun _ => pure id
  · intro id pool answer after ran
    obtain ⟨lengths, _, _, ran⟩ := bind_eq_ok ran
    obtain ⟨_, _, _, ran⟩ := bind_eq_ok ran
    cases ran
    rfl

theorem makeError (table : SymbolTable) (padding size : Span) (lookahead : Option Char) :
    Yields (Pool.makeError table padding size lookahead) fun id => {id} := by
  apply (makeLeaf table .error padding size).bind_named
  · exact fun id => (amend id _).bind fun _ => pure id
  · intro id pool answer after ran
    obtain ⟨_, _, _, ran⟩ := bind_eq_ok ran
    cases ran
    rfl

theorem makeNode (table : SymbolTable) (symbol : Symbol) (children : List NodeId) :
    Yields (Pool.makeNode table symbol children) fun id => {id} := by
  unfold Pool.makeNode
  split
  case isTrue => exact fun _ _ => not_false
  case isFalse =>
    apply (query fun _ => Reads.shownCounts not_false fun _ _ _ => not_false).bind
    intro shown
    apply (query fun _ => Reads.mapM fun _ _ => Reads.node fun _ => not_false).bind
    intro below
    apply acquire.bind_named
    · intro id
      apply (write id _).bind
      exact fun _ => (summarize id).bind fun _ => pure id
    · intro id pool answer after ran
      obtain ⟨_, _, _, ran⟩ := bind_eq_ok ran
      obtain ⟨_, _, _, ran⟩ := bind_eq_ok ran
      cases ran
      rfl

theorem amendIfLive (id : NodeId) (change : NodeInfo → NodeInfo) :
    Yields (Pool.amendIfLive id change) fun _ => 0 := by
  intro pool tidy
  change Ends (if pool.isLive id then _ else _) pool _ _
  split
  · exact ((amend id change).bind fun _ => pure true) pool tidy
  · exact pure false pool tidy

end Yields

end PoolM

end SyntaxForest
