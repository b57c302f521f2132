import SyntaxForest.Pool.Edit
import SyntaxForest.Proofs.Ends
import SyntaxForest.Proofs.Pool.Ranked

/-! # Edits go down

An edit works on child lists while it rewrites them, and it may be an edit of a node that other
trees hold. It never gives up the last owner of a node, and a copy takes the rank of its original.
So every task is about a live node, of a rank below that of the task it came from, and no task
comes upon a handle that has gone.
-/

namespace SyntaxForest

open PoolM

/-- Some quantity does not fit: a sum, or a number of owners or of slots. -/
def Fault.IsShortage : Fault → Prop
  | .overflow | .tooManyOwners _ | .poolExhausted _ => True
  | _ => False

theorem Fault.IsLimit.isShortage {fault : Fault} (limit : fault.IsLimit) : fault.IsShortage := by
  cases fault <;> first | exact trivial | exact limit.elim

namespace Pool

variable {pool middle after : Pool} {rank rank' rank'' : NodeId → Nat} {id other child : NodeId}
  {slot : Slot}

/-- The nodes are ranked after as before, and none of them has gone. -/
structure Extends (pool : Pool) (rank : NodeId → Nat) (after : Pool) (rank' : NodeId → Nat) : Prop
    where
  ranked : after.Ranked rank'
  live : ∀ {id}, pool.isLive id → after.isLive id
  same : ∀ {id}, pool.isLive id → rank' id = rank id

theorem Ranked.extends (ranked : pool.Ranked rank) : pool.Extends rank pool rank :=
  ⟨ranked, fun live => live, fun _ => rfl⟩

theorem Extends.trans (first : pool.Extends rank middle rank')
    (second : middle.Extends rank' after rank'') : pool.Extends rank after rank'' where
  ranked := second.ranked
  live := fun live => second.live (first.live live)
  same := fun live => (second.same (first.live live)).trans (first.same live)

/-! ## Changes of one node -/

namespace Ranked

/-- Ranks depend on the child lists alone. -/
theorem extends_of_children (ranked : pool.Ranked rank) (tidy : after.Tidy)
    (children : ∀ id, (after.node? id).map (·.children) = (pool.node? id).map (·.children)) :
    pool.Extends rank after rank := by
  have liveness : ∀ id, after.isLive id = pool.isLive id := fun id => isLive_congr (children id)
  have child : ∀ {parent child}, after.Child parent child → pool.Child parent child := by
    rintro parent child ⟨node, found, member⟩
    have same := children parent
    rw [found, Option.map_some, eq_comm, Option.map_eq_some_iff] at same
    obtain ⟨node', found', same⟩ := same
    exact ⟨node', found', same ▸ member⟩
  refine ⟨⟨tidy, fun below => ?_, fun below => ranked.lower (child below)⟩, fun live => ?_,
    fun _ => rfl⟩
  · exact (liveness _).trans (ranked.live (child below))
  · exact (liveness _).trans live

theorem note (ranked : pool.Ranked rank) (event : Event) :
    pool.Extends rank { pool with journal := pool.journal.push event } rank :=
  ranked.extends_of_children (ranked.tidy.note _) fun _ => rfl

/-- A new node without children may be given any rank. -/
theorem appear (ranked : pool.Ranked rank) (missing : pool.slot? id = none)
    (changed : pool.Changed id (some slot) after) (childless : slot.node.children = [])
    (level : Nat) : pool.Extends rank after (Function.update rank id level) := by
  have differ : ∀ {other}, pool.isLive other → other ≠ id := by
    rintro other live rfl
    simp [isLive, missing] at live
  have stays : ∀ {other}, pool.isLive other → after.isLive other := by
    intro other live
    rwa [isLive_congr (congrArg _ (changed.node?_of_ne (differ live)))]
  have child : ∀ {parent child}, after.Child parent child → pool.Child parent child := by
    rintro parent child ⟨node, found, member⟩
    by_cases same : parent = id
    · rw [same, changed.node?_self, Option.map_some, Option.some_inj] at found
      rw [← found, childless] at member
      cases member
    · exact ⟨node, (changed.node?_of_ne same).symm.trans found, member⟩
  refine ⟨⟨changed.tidy ranked.tidy, fun below => stays (ranked.live (child below)), ?_⟩, stays, ?_⟩
  · rintro parent other below
    have parentLive := (child below).isLive_parent
    rw [Function.update_of_ne (differ parentLive),
      Function.update_of_ne (differ (ranked.live (child below)))]
    exact ranked.lower (child below)
  · exact fun live => Function.update_of_ne (differ live) ..

/-- A child list may be rewritten with live nodes of lower rank. -/
theorem rewrite (ranked : pool.Ranked rank) (changed : pool.Changed id (some slot) after)
    (below : ∀ child ∈ slot.node.children, pool.isLive child ∧ rank child < rank id) :
    pool.Extends rank after rank := by
  have stays : ∀ {other}, pool.isLive other → after.isLive other := by
    intro other live
    by_cases same : other = id
    · rw [same, isLive, changed.slot?_eq, Function.update_self]
      rfl
    · rwa [isLive_congr (congrArg _ (changed.node?_of_ne same))]
  have child : ∀ {parent child}, after.Child parent child →
      pool.isLive child ∧ rank child < rank parent := by
    rintro parent child ⟨node, found, member⟩
    by_cases same : parent = id
    · rw [same, changed.node?_self, Option.map_some, Option.some_inj] at found
      rw [same]
      exact below child (found ▸ member)
    · have before := child_of_mem ((changed.node?_of_ne same).symm.trans found) member
      exact ⟨ranked.live before, ranked.lower before⟩
  exact ⟨⟨changed.tidy ranked.tidy, fun below => stays (child below).1, fun below => (child below).2⟩,
    stays, fun _ => rfl⟩

end Ranked

/-! ## A node of its own -/

/-- Nothing but owners has been added. -/
structure Richer (pool after : Pool) : Prop where
  tidy : pool.Tidy → after.Tidy
  nodes : ∀ id, after.node? id = pool.node? id
  owners : ∀ id, (pool.refCount id).toNat ≤ (after.refCount id).toNat

theorem ends_retain_live (live : pool.isLive id) :
    Ends (retain id) pool Fault.IsShortage fun _ after => pool.Richer after := by
  obtain ⟨slot, found⟩ := isLive_iff.mp live
  apply ((retain_computes found).ends (fun _ limit => limit.isShortage) nofun).mono
  rintro _ after ⟨_, _, refCount, counted, changed⟩
  refine ⟨changed.tidy, changed.node?_eq (node?_eq_some_iff.mpr ⟨slot, found, rfl⟩),
    changed.refCount_le ?_⟩
  rw [refCount_of_slot? found, counted]
  exact Nat.le_succ _

theorem ends_retainAll_live {ids : List NodeId} (live : ∀ id ∈ ids, pool.isLive id) :
    Ends (ids.forM retain) pool Fault.IsShortage fun _ after => pool.Richer after := by
  induction ids generalizing pool with
  | nil => exact .of_ok rfl ⟨fun tidy => tidy, fun _ => rfl, fun _ => Nat.le_refl _⟩
  | cons id ids ih =>
    change Ends (retain id >>= fun _ => ids.forM retain) pool _ _
    apply (ends_retain_live (live id List.mem_cons_self)).bind
    intro _ middle richer
    have live' : ∀ id ∈ ids, middle.isLive id := by
      intro id member
      rw [isLive_congr (congrArg _ (richer.nodes id))]
      exact live id (List.mem_cons_of_mem _ member)
    apply (ih live').mono
    exact fun _ after richer' => ⟨fun tidy => richer'.tidy (richer.tidy tidy),
      fun id => (richer'.nodes id).trans (richer.nodes id),
      fun id => Nat.le_trans (richer.owners id) (richer'.owners id)⟩

theorem ends_node (live : pool.isLive id) :
    Ends (query (·.node id)) pool Fault.IsShortage fun node after =>
      pool.node? id = some node ∧ after = pool := by
  apply (Ends.query (Reads.node fun dead => (dead live).elim)).mono
  exact fun node after ⟨found, same⟩ => ⟨node_eq_ok_iff.mp found, same⟩

namespace Ranked

/-- A new node may have the child list of another, and then takes its rank. -/
theorem copy {copy : NodeId} {node : Node} (ranked : pool.Ranked rank)
    (found : pool.node? id = some node) (missing : pool.slot? copy = none)
    (changed : pool.Changed copy (some ⟨copy.generation, 1, .blank⟩) middle) :
    ∃ after, write copy node middle = .ok () after ∧ after.isLive copy ∧
      pool.Extends rank after (Function.update rank copy (rank id)) ∧
        ∀ other, pool.isLive other → after.refCount other = pool.refCount other := by
  have first := ranked.appear missing changed rfl (rank id)
  have blank := congrFun changed.slot?_eq copy
  rw [Function.update_self] at blank
  obtain ⟨after, ran, changed'⟩ := write_ok node blank
  have second := first.ranked.rewrite changed' fun child member => by
    have below := child_of_mem found member
    rw [first.same (ranked.live below), Function.update_self]
    exact ⟨first.live (ranked.live below), ranked.lower below⟩
  have fresh : middle.isLive copy := isLive_iff.mpr ⟨_, blank⟩
  refine ⟨after, ran, second.live fresh, first.trans second, fun other live => ?_⟩
  have differ : other ≠ copy := by
    rintro rfl
    simp [isLive, missing] at live
  rw [changed'.refCount_of_ne differ, changed.refCount_of_ne differ]

/-- A node that has other owners stays when one is given up. -/
theorem release_shared (ranked : pool.Ranked rank) (shared : 1 < (pool.refCount id).toNat) :
    ∃ after, release id pool = .ok () after ∧ pool.Extends rank after rank := by
  obtain ⟨slot, here⟩ := isLive_iff.mp (refCount_pos_iff.mp (Nat.lt_of_succ_lt shared))
  obtain ⟨after, dropped, refCount, _, changed⟩ :=
    dropUnit_shared here (refCount_of_slot? here ▸ shared)
  refine ⟨after, release_of_dropUnit dropped, ?_⟩
  exact ranked.extends_of_children (changed.tidy ranked.tidy) fun other =>
    congrArg _ (changed.node?_eq (node?_eq_some_iff.mpr ⟨slot, here, rfl⟩) other)

/-- The copy of a node takes its rank. -/
theorem makeUnique (ranked : pool.Ranked rank) (live : pool.isLive id) :
    Ends (Pool.makeUnique id) pool Fault.IsShortage fun copy after =>
      ∃ rank', pool.Extends rank after rank' ∧ after.isLive copy ∧ rank' copy = rank id := by
  apply (ends_node live).bind
  rintro node pool ⟨found, rfl⟩
  change Ends (if pool.refCount id = 1 then _ else _) pool _ _
  split
  case isTrue => exact .of_ok rfl ⟨rank, ranked.extends, live, rfl⟩
  case isFalse several =>
    apply (ends_retainAll_live fun child member => ranked.live (child_of_mem found member)).bind
    intro _ retained richer
    have first : pool.Extends rank retained rank :=
      ranked.extends_of_children (richer.tidy ranked.tidy) fun other => congrArg _ (richer.nodes other)
    apply ((acquire_computes first.ranked.tidy).ends (fun _ limit => limit.isShortage) nofun).bind
    rintro copy acquired ⟨_, _, missing, changed⟩
    obtain ⟨written, ran, fresh, second, counts⟩ :=
      first.ranked.copy ((richer.nodes id).trans found) missing changed
    -- Neither the owners that the children got nor the copy took an owner from the original.
    have shared : 1 < (written.refCount id).toNat := by
      rw [counts id (first.live live)]
      exact Nat.lt_of_lt_of_le (one_lt_refCount live several) (richer.owners id)
    obtain ⟨released, ran', third⟩ := second.ranked.release_shared shared
    have last := third.trans (third.ranked.note (.copied id copy))
    refine .after ran (.after ran' (.of_ok rfl ?_))
    refine ⟨_, first.trans (second.trans last), last.live fresh, ?_⟩
    rw [last.same fresh, Function.update_self]

theorem attach (ranked : pool.Ranked rank) {link : Link} (parent : pool.isLive link.parent)
    (live : pool.isLive child) (lower : rank child < rank link.parent) :
    Ends (Pool.attach link child) pool Fault.IsShortage fun _ after =>
      pool.Extends rank after rank := by
  apply (ends_node parent).bind
  rintro node pool ⟨found, rfl⟩
  obtain ⟨slot, here, rfl⟩ := node?_eq_some_iff.mp found
  obtain ⟨after, ran, changed⟩ :=
    write_ok { slot.node with children := slot.node.children.set link.index child } here
  refine .of_ok ran (ranked.rewrite changed fun other member => ?_)
  rcases List.mem_or_eq_of_mem_set member with old | rfl
  · exact ⟨ranked.live (child_of_mem found old), ranked.lower (child_of_mem found old)⟩
  · exact ⟨live, lower⟩

/-- Ranks do not depend on what a node is beside its children. -/
theorem writeInfo (ranked : pool.Ranked rank) {node : Node} (found : pool.node? id = some node)
    (info : NodeInfo) :
    ∃ after, write id ⟨info, node.children⟩ pool = .ok () after ∧ pool.Extends rank after rank ∧
      after.node? id = some ⟨info, node.children⟩ := by
  obtain ⟨slot, here, rfl⟩ := node?_eq_some_iff.mp found
  obtain ⟨after, ran, changed⟩ := write_ok ⟨info, slot.node.children⟩ here
  refine ⟨after, ran, ranked.rewrite changed fun other member => ?_, changed.node?_self⟩
  exact ⟨ranked.live (child_of_mem found member), ranked.lower (child_of_mem found member)⟩

theorem amend (ranked : pool.Ranked rank) (live : pool.isLive id) (change : NodeInfo → NodeInfo) :
    Ends (Pool.amend id change) pool Fault.IsShortage fun _ after => pool.Extends rank after rank := by
  apply (ends_node live).bind
  rintro node pool ⟨found, rfl⟩
  obtain ⟨after, ran, extended, _⟩ := ranked.writeInfo found (change node.toNodeInfo)
  exact .of_ok ran extended

theorem summarize (ranked : pool.Ranked rank) (live : pool.isLive id) :
    Ends (Pool.summarize id) pool Fault.IsShortage fun _ after => pool.Extends rank after rank := by
  apply (ends_node live).bind
  rintro node pool ⟨found, rfl⟩
  have children : ∀ child ∈ node.children, pool.isLive child := fun child member =>
    ranked.live (child_of_mem found member)
  apply (Ends.query (Reads.lengthsOver trivial fun child member dead =>
    (dead (children child member)).elim)).bind
  rintro lengths pool ⟨_, rfl⟩
  obtain ⟨after, ran, extended, _⟩ := ranked.writeInfo found { node.toNodeInfo with lengths }
  exact .of_ok ran extended

end Ranked

/-! ## Tasks -/

variable {task : EditTask} {tasks done : List EditTask} {depth depth' : Nat} {ids : List NodeId}

/-- The task is about a node that has been changed, or about one of its children. -/
def EditTask.IsOf (pool : Pool) (id : NodeId) (task : EditTask) : Prop :=
  task = .summarize id ∨
    ∃ child index share, pool.Child id child ∧ task = taskOf ⟨id, index⟩ child share

/-- The task is about live nodes, with enough levels left for all below them. -/
def EditTask.Within (pool : Pool) (rank : NodeId → Nat) (depth : Nat) : EditTask → Prop
  | .change link child _ | .glance link child _ =>
    pool.isLive link.parent ∧ rank child < rank link.parent ∧ pool.Within rank depth child
  | .summarize id => pool.isLive id

theorem EditTask.Within.mono (within : task.Within pool rank depth) (le : depth ≤ depth')
    (extended : pool.Extends rank after rank') : task.Within after rank' depth' := by
  cases task with
  | change link child _ | glance link child _ =>
    obtain ⟨parent, lower, live, room⟩ := within
    refine ⟨extended.live parent, ?_, extended.live live, ?_⟩
    · rwa [extended.same parent, extended.same live]
    · rw [extended.same live]
      exact Nat.lt_of_lt_of_le room le
  | summarize id => exact extended.live within

/-- The tasks of a node need no more levels than there are below it. -/
theorem Ranked.within_of (ranked : pool.Ranked rank) (live : pool.isLive id)
    (isOf : task.IsOf pool id) : task.Within pool rank (rank id) := by
  rcases isOf with rfl | ⟨child, index, share, below, rfl⟩
  · exact live
  · have within : pool.isLive id ∧ rank child < rank id ∧ pool.Within rank (rank id) child :=
      ⟨live, ranked.lower below, ranked.live below, ranked.lower below⟩
    cases share <;> exact within

theorem mem_shareOut {parent : NodeId} {edit : TextEdit} {oldEnd : Span} {split : Split} {index : Nat}
    (found : pool.shareOut parent edit oldEnd split index done ids = .ok tasks)
    (member : task ∈ tasks) : task ∈ done ∨
      ∃ child ∈ ids, ∃ index share, task = taskOf ⟨parent, index⟩ child share := by
  induction ids generalizing split index done with
  | nil =>
    cases found
    exact .inl member
  | cons child rest ih =>
    rw [shareOut] at found
    obtain ⟨node, _, found⟩ := Reads.bind_eq_ok found
    obtain ⟨total, _, found⟩ := Reads.bind_eq_ok found
    obtain ⟨right, _, found⟩ := Reads.bind_eq_ok found
    split at found
    case h_1 =>
      cases found
      exact .inl member
    case h_2 share split _ =>
      rcases ih found with new | ⟨child, place, same⟩
      · rcases List.mem_cons.mp new with rfl | old
        · exact .inr ⟨child, List.mem_cons_self, index, share, rfl⟩
        · exact .inl old
      · exact .inr ⟨child, List.mem_cons_of_mem _ place, same⟩

theorem mem_glanceBack {parent : NodeId} {offset start : Word} {index : Nat}
    (found : pool.glanceBack parent offset start index done ids = .ok tasks)
    (member : task ∈ tasks) : task ∈ done ∨
      ∃ child ∈ ids, ∃ index share, task = taskOf ⟨parent, index⟩ child share := by
  induction ids generalizing start index done with
  | nil =>
    cases found
    exact .inl member
  | cons child rest ih =>
    rw [glanceBack] at found
    split at found
    case isTrue =>
      cases found
      exact .inl member
    case isFalse =>
      obtain ⟨node, _, found⟩ := Reads.bind_eq_ok found
      obtain ⟨bytes, _, found⟩ := Reads.bind_eq_ok found
      obtain ⟨next, _, found⟩ := Reads.bind_eq_ok found
      rcases ih found with new | ⟨child, place, same⟩
      · rcases List.mem_cons.mp new with rfl | old
        · exact .inr ⟨child, List.mem_cons_self, index, .glance (offset - start), rfl⟩
        · exact .inl old
      · exact .inr ⟨child, List.mem_cons_of_mem _ place, same⟩

namespace Ranked

theorem changeNode (ranked : pool.Ranked rank) (live : pool.isLive id) (edit : TextEdit) :
    Ends (Pool.changeNode edit id) pool Fault.IsShortage fun tasks after =>
      pool.Extends rank after rank ∧ ∀ task ∈ tasks, task.IsOf after id := by
  apply (ends_node live).bind
  rintro node pool ⟨found, rfl⟩
  apply (Ends.sum trivial).bind
  rintro info pool ⟨_, rfl⟩
  obtain ⟨after, ran, extended, found'⟩ := ranked.writeInfo found info
  refine .after ran ?_
  split
  case isTrue => exact .of_ok rfl ⟨extended, nofun⟩
  case isFalse =>
    apply (Ends.sum trivial).bind
    rintro oldEnd after ⟨_, rfl⟩
    have below : ∀ child ∈ node.children, after.Child id child := fun _ member =>
      ⟨_, found', member⟩
    have reads : Reads Fault.IsShortage
        (after.shareOut id edit oldEnd .start 0 [.summarize id] node.children) :=
      Reads.shareOut trivial fun child member dead =>
        (dead (extended.ranked.live (below child member))).elim
    apply (Ends.query reads).mono
    rintro tasks after ⟨shared, rfl⟩
    refine ⟨extended, fun task member => ?_⟩
    rcases mem_shareOut shared member with last | ⟨child, place, index, share, same⟩
    · exact .inl (List.mem_singleton.mp last)
    · exact .inr ⟨child, index, share, below child place, same⟩

theorem flagNode (ranked : pool.Ranked rank) (live : pool.isLive id) (offset : Word) :
    Ends (Pool.flagNode offset id) pool Fault.IsShortage fun tasks after =>
      pool.Extends rank after rank ∧ ∀ task ∈ tasks, task.IsOf after id := by
  apply (ranked.amend live _).bind
  intro _ after extended
  obtain ⟨node, found⟩ := isLive_iff_node?.mp (extended.live live)
  have below : ∀ child ∈ node.children, after.Child id child := fun _ => child_of_mem found
  have read : (do
      let node ← after.node id
      after.glanceBack id offset 0 0 [] node.children) =
        after.glanceBack id offset 0 0 [] node.children := by
    rw [node_eq_ok_iff.mpr found]
    rfl
  have reads : Reads Fault.IsShortage (after.glanceBack id offset 0 0 [] node.children) :=
    Reads.glanceBack trivial fun child member dead =>
      (dead (extended.ranked.live (below child member))).elim
  apply (Ends.query (read ▸ reads)).mono
  rintro tasks after ⟨glanced, rfl⟩
  refine ⟨extended, fun task member => ?_⟩
  rw [read] at glanced
  rcases mem_glanceBack glanced member with none | ⟨child, place, index, share, same⟩
  · cases none
  · exact .inr ⟨child, index, share, below child place, same⟩

/-- A child is made the parent's own before its task goes on. -/
theorem takeOver (ranked : pool.Ranked rank) {link : Link} {next : NodeId → PoolM (List EditTask)}
    (parent : pool.isLive link.parent) (lower : rank child < rank link.parent)
    (within : pool.Within rank depth child)
    (goes : ∀ {middle : Pool} {rank' : NodeId → Nat} {id : NodeId}, middle.Ranked rank' →
      middle.isLive id → Ends (next id) middle Fault.IsShortage fun tasks after =>
        middle.Extends rank' after rank' ∧ ∀ task ∈ tasks, task.IsOf after id) :
    Ends (do
      let id ← Pool.makeUnique child
      Pool.attach link id
      next id) pool Fault.IsShortage fun tasks after =>
        ∃ rank', pool.Extends rank after rank' ∧
          ∀ task ∈ tasks, 0 < depth ∧ task.Within after rank' (depth - 1) := by
  apply (ranked.makeUnique within.live).bind
  rintro id middle ⟨rank', first, live, same⟩
  have lower' : rank' id < rank' link.parent := by rwa [same, first.same parent]
  apply (first.ranked.attach (first.live parent) live lower').bind
  intro _ attached second
  apply (goes second.ranked (second.live live)).mono
  rintro tasks after ⟨third, isOf⟩
  refine ⟨rank', first.trans (second.trans third), fun task member => ?_⟩
  have room := within.lower
  have within := third.ranked.within_of (third.live (second.live live)) (isOf task member)
  exact ⟨by omega, within.mono (by omega) third.ranked.extends⟩

/-- A task leads to tasks of lower rank. -/
theorem editStep (ranked : pool.Ranked rank) (within : task.Within pool rank depth) :
    Ends (Pool.editStep task) pool Fault.IsShortage fun follow after =>
      ∃ rank', pool.Extends rank after rank' ∧
        ∀ next ∈ follow, 0 < depth ∧ next.Within after rank' (depth - 1) := by
  cases task with
  | change link child edit =>
    obtain ⟨parent, lower, within⟩ := within
    exact ranked.takeOver parent lower within fun ranked live => ranked.changeNode live edit
  | glance link child offset =>
    obtain ⟨parent, lower, within⟩ := within
    apply (ends_node within.live).bind
    rintro node pool ⟨_, rfl⟩
    split
    · exact .of_ok rfl ⟨rank, ranked.extends, nofun⟩
    · exact ranked.takeOver parent lower within fun ranked live => ranked.flagNode live offset
  | summarize id =>
    apply (ranked.summarize within).bind
    exact fun _ after extended => .of_ok rfl ⟨rank, extended, nofun⟩

end Ranked

/-! ## Whole edits -/

/-- Every task of the agenda has the levels that it needs. -/
def WithinAgenda (pool : Pool) (agenda : List (Nat × EditTask)) : Prop :=
  ∃ rank, pool.Ranked rank ∧ ∀ item ∈ agenda, item.2.Within pool rank item.1

/-- The tasks of an edit never need more levels than they are given. -/
theorem WithinAgenda.run {agenda : List (Nat × EditTask)} (within : pool.WithinAgenda agenda) :
    Ends (Agenda.run Pool.editStep .endless agenda) pool Fault.IsShortage fun _ after =>
      ∃ rank, after.Ranked rank := by
  have ends : Ends (Agenda.run Pool.editStep .endless agenda) pool Fault.IsShortage fun _ after =>
      after.WithinAgenda [] := by
    refine Ends.run (fun depth task rest middle ⟨rank, ranked, within⟩ => ?_) within
    apply (ranked.editStep (within _ List.mem_cons_self)).mono
    rintro follow after ⟨rank', extended, below⟩
    refine ⟨fun floor inner => ?_, rank', extended.ranked, fun item member => ?_⟩
    · obtain ⟨next, place⟩ := List.exists_mem_of_ne_nil follow inner
      exact absurd (below next place).1 (floor ▸ Nat.lt_irrefl 0)
    · rcases List.mem_append.mp member with new | old
      · obtain ⟨next, place, rfl⟩ := List.mem_map.mp new
        exact (below next place).2
      · exact (within item (List.mem_cons_of_mem _ old)).mono (Nat.le_refl _) extended
  apply ends.mono
  exact fun _ after ⟨rank, ranked, _⟩ => ⟨rank, ranked⟩

namespace Ranked

theorem applyEdit (ranked : pool.Ranked rank) (live : pool.isLive id) (edit : TextEdit) :
    Ends (Pool.applyEdit id edit) pool Fault.IsShortage fun _ after => ∃ rank, after.Ranked rank := by
  apply (ranked.makeUnique live).bind
  rintro root middle ⟨rank', first, live, _⟩
  apply (first.ranked.changeNode live edit).bind
  rintro tasks changed ⟨second, isOf⟩
  obtain ⟨low, ranked, room⟩ := second.ranked.exists_low
  have within : changed.WithinAgenda (tasks.map (changed.slots.size, ·)) := by
    refine ⟨low, ranked, fun item member => ?_⟩
    obtain ⟨task, place, rfl⟩ := List.mem_map.mp member
    have live := second.live live
    exact (ranked.within_of live (isOf task place)).mono (Nat.le_of_lt (room root live)) ranked.extends
  change Ends (Agenda.run Pool.editStep .endless (tasks.map (changed.slots.size, ·)) >>= _) changed _ _
  apply within.run.bind
  exact fun _ after ranked => .of_ok rfl ranked

/-- An edit of any live node, whoever owns it, ends unless some quantity does not fit. -/
theorem edit (ranked : pool.Ranked rank) (live : pool.isLive id) (edit : TextEdit) :
    Ends (Pool.edit id edit) pool Fault.IsShortage fun _ after => ∃ rank, after.Ranked rank := by
  unfold Pool.edit editBy
  split
  case h_1 => exact .of_ok rfl ⟨rank, ranked⟩
  case h_2 =>
    apply (ends_node live).bind
    rintro node pool ⟨_, rfl⟩
    apply (Ends.sum trivial).bind
    rintro total pool ⟨_, rfl⟩
    split
    case h_1 => exact .of_ok rfl ⟨rank, ranked⟩
    case h_2 =>
      split
      case isTrue => exact .after rfl (.of_ok rfl ⟨rank, (ranked.note _).ranked⟩)
      case isFalse =>
        have noted := ranked.note (.appliedEdit edit.start.bytes edit.removed.bytes edit.added.bytes)
        refine .after rfl ?_
        apply (noted.ranked.applyEdit (noted.live live) edit).bind
        exact fun _ after ranked => .of_ok rfl ranked

end Ranked

end Pool

end SyntaxForest
