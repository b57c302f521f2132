import SyntaxForest.Proofs.Edit.Arrivals
import SyntaxForest.Proofs.Pool.Copy
import SyntaxForest.Proofs.Tree.Touched

/-! # What an edit copies

Whether a node is copied is decided when its turn comes. By then the nodes after it have been dealt
with, and owners have come and gone below them. Nothing on a path without second owners is among
those, for what reaches a node there reaches the node above it. And where another unit reached a
node at first it still does when its turn comes, so that the node is copied, and then its children,
which both the node and the copy have.
-/

namespace SyntaxForest.Pool

open PoolM

/-- Owners have come and gone below these handles at most, and not even there where no node has a
second owner. No node has lost its last. -/
structure Recounts (pool : Pool) (ids : List NodeId) (after : Pool) : Prop where
  grows : ∀ other, pool.isLive other → after.isLive other
  counts : ∀ other, pool.isLive other → (∀ id ∈ ids, ¬ pool.Reaches id other) →
    after.refCount other = pool.refCount other
  steady : (∀ id ∈ ids, ∀ other, pool.Reaches id other → pool.refCount other = 1) →
    pool.Steady after

/-- What has become of the place of the first handle, which showed the tree and had this share of an
edit, if any. The second handle has it now. -/
structure Placed (pool after : Pool) (units : Multiset NodeId) (id id' : NodeId) (tree : Tree)
    (asked : Option Share) : Prop where
  /-- What has no second owner on the way down to it stays. -/
  stays : ∀ path place, pool.idAt? id path = some place → pool.Solo id path →
    after.idAt? id' path = some place
  /-- If another unit reaches it, all that is touched is copied. -/
  fresh : ∀ unit ∈ units, pool.Reaches unit id → ∀ share ∈ asked, ∀ path,
    tree.touches share path = true →
    ∃ place, after.idAt? id' path = some place ∧ ¬ pool.isLive place

/-- What has become of the places of children, each with the share of its index. -/
def PlacedAll (pool after : Pool) (units : Multiset NodeId) (ids ids' : List NodeId)
    (trees : List Tree) (shares : List Share) : Prop :=
  ∀ (index : Nat) id tree, ids[index]? = some id → trees[index]? = some tree →
    ∃ id', ids'[index]? = some id' ∧ pool.Placed after units id id' tree shares[index]?

section Compose

variable {pool middle after : Pool} {opened : Finset NodeId} {units more : Multiset NodeId}
  {child child' id id' : NodeId} {ids ids' rest rest' : List NodeId} {tree : Tree}
  {trees : List Tree} {share : Share} {shares : List Share} {asked : Option Share}
  {path : List Nat}

theorem Recounts.of_steady (steady : pool.Steady after) : pool.Recounts ids after where
  grows := fun other => (steady.isLive_iff other).mpr
  counts := fun other _ _ => steady.refCount_eq other
  steady := fun _ => steady

/-- A child is dealt with after those that come later in the list. -/
theorem Recounts.cons (later : pool.Recounts rest middle)
    (same : pool.SameBelow middle child) (first : middle.Recounts [child] after) :
    pool.Recounts (child :: rest) after where
  grows := fun other live => first.grows other (later.grows other live)
  counts := by
    intro other live apart
    obtain ⟨apartFirst, apartLater⟩ := List.forall_mem_cons.mp apart
    rw [first.counts other (later.grows other live), later.counts other live apartLater]
    intro id member reaches
    obtain rfl := List.mem_singleton.mp member
    exact apartFirst (same.reaches_iff.mp reaches)
  steady := by
    intro single
    obtain ⟨singleFirst, singleLater⟩ := List.forall_mem_cons.mp single
    have before := later.steady singleLater
    refine before.trans (first.steady fun id member other reaches => ?_)
    obtain rfl := List.mem_singleton.mp member
    rw [before.refCount_eq, singleFirst other (same.reaches_iff.mp reaches)]

/-- A path without second owners stays one, where owners come and go below other units only. -/
theorem Solo.of_recounts (solo : pool.Solo id path) (recounts : pool.Recounts ids after)
    (owned : pool.Owned opened units) (held : ∀ unit ∈ ids, unit ∈ units)
    (same : pool.SameBelow after id) (here : pool.isLive id ∧ id ∉ opened)
    (apart : ∀ unit ∈ ids, ¬ pool.Reaches unit id) : after.Solo id path := by
  have single : after.refCount id = 1 := by rw [recounts.counts id here.1 apart, solo.here]
  induction path generalizing id with
  | nil => exact single
  | cons index path ih =>
    refine ⟨single, fun child isChild => ?_⟩
    rw [same id .refl] at isChild
    have solo' := solo.2 child isChild
    have below := child_iff.mpr (List.mem_of_getElem? isChild)
    have here' := owned.of_child here below
    have apart' (unit : NodeId) (member : unit ∈ ids) : ¬ pool.Reaches unit child := fun reaches =>
      apart unit member (owned.reaches_parent here below solo'.here (held unit member) reaches)
    -- What reaches the child by now would reach its only owner.
    exact ih solo' (same.of_child below) here' apart'
      (by rw [recounts.counts child here'.1 apart', solo'.here])

theorem Placed.of_untouched (pool : Pool) (units : Multiset NodeId) (id : NodeId)
    (untouched : ∀ share ∈ asked, ∀ path, tree.touches share path = false) :
    pool.Placed pool units id id tree asked where
  stays := fun _ _ found _ => found
  fresh := by
    intro _ _ _ share isAsked path touched
    rw [untouched share isAsked path] at touched
    cases touched

/-- What is done after a child has been dealt with leaves its place alone. -/
theorem Placed.then_kept (placed : pool.Placed middle more id id' tree asked) (le : units ≤ more)
    (same : middle.SameBelow after id') : pool.Placed after units id id' tree asked where
  stays := by
    intro path place found solo
    rw [same.idAt?_eq, placed.stays path place found solo]
  fresh := by
    intro unit held reaches share isAsked path touched
    rw [same.idAt?_eq]
    exact placed.fresh unit (Multiset.mem_of_le le held) reaches share isAsked path touched

/-- What has been done before a child is dealt with has left its place alone. -/
theorem Placed.of_kept (placed : middle.Placed after more id id' tree asked) (le : units ≤ more)
    (same : ∀ unit ∈ id ::ₘ units, pool.SameBelow middle unit)
    (grows : ∀ other, pool.isLive other → middle.isLive other)
    (solo : ∀ path, pool.Solo id path → middle.Solo id path) :
    pool.Placed after units id id' tree asked where
  stays := by
    intro path place found isSolo
    refine placed.stays path place ?_ (solo path isSolo)
    rw [(same id (Multiset.mem_cons_self ..)).idAt?_eq, found]
  fresh := by
    intro unit held reaches share isAsked path touched
    have reaches' := (same unit (Multiset.mem_cons_of_mem held)).reaches_iff.mpr reaches
    obtain ⟨place, found, dead⟩ :=
      placed.fresh unit (Multiset.mem_of_le le held) reaches' share isAsked path touched
    exact ⟨place, found, fun live => dead (grows place live)⟩

theorem PlacedAll.cons (first : pool.Placed after units child child' tree (some share))
    (later : pool.PlacedAll after units rest rest' trees shares) :
    pool.PlacedAll after units (child :: rest) (child' :: rest') (tree :: trees)
      (share :: shares) := by
  intro index
  cases index with
  | zero =>
    rintro _ _ ⟨⟩ ⟨⟩
    exact ⟨child', rfl, first⟩
  | succ index => exact later index

theorem PlacedAll.then_kept (placed : pool.PlacedAll middle more ids ids' trees shares)
    (le : units ≤ more) (same : ∀ id' ∈ ids', middle.SameBelow after id') :
    pool.PlacedAll after units ids ids' trees shares := by
  intro index id tree found isTree
  obtain ⟨id', found', placed⟩ := placed index id tree found isTree
  exact ⟨id', found', placed.then_kept le (same id' (List.mem_of_getElem? found'))⟩

end Compose

/-! ## Tasks -/

section Tasks

variable {pool middle changed finished after : Pool} {opened : Finset NodeId}
  {units : Multiset NodeId} {child id : NodeId} {handle : Option NodeId} {info : NodeInfo}
  {ids ids' : List NodeId} {tree : Tree} {trees : List Tree} {depth : Nat} {share : Share}
  {shares : List Share} {tasks : List EditTask}

/-- In every pool that shows the tree below an open node, this is what becomes of the place. -/
def Copied (tree : Tree) : Prop :=
  ∀ {pool after : Pool} {opened : Finset NodeId} {units : Multiset NodeId} {child child' : NodeId}
    {parent : Node} {depth : Nat} (link : Link) (share : Share),
    pool.Owned (insert link.parent opened) (child ::ₘ units) → link.parent ∉ opened →
    pool.node? link.parent = some parent → parent.children[link.index]? = some child →
    pool.Shows child tree → tree.height ≤ depth →
    carryOut depth [taskOf link child share] pool = .ok () after →
    (after.childrenOf link.parent)[link.index]? = some child' →
    pool.Placed after units child child' tree (some share) ∧ pool.Recounts [child] after

/-- A child with one owner is reached from no other child, nor is what has one owner below it. -/
theorem Pending.solo_of_later {before rest : List NodeId} {path : List Nat}
    (pending : pool.Pending opened units id info before (child :: rest) (tree :: trees))
    (recounts : pool.Recounts rest middle) (same : pool.SameBelow middle child)
    (solo : pool.Solo child path) : middle.Solo child path := by
  have owned := pending.later.last.1
  have held (unit : NodeId) (member : unit ∈ rest) : unit ∈ units + rest :=
    Multiset.mem_add.mpr (.inr (Multiset.mem_coe.mpr member))
  have apart (unit : NodeId) (member : unit ∈ rest) : ¬ pool.Reaches unit child := fun reaches =>
    owned.several_of_reaches (held unit member) reaches solo.here
  exact solo.of_recounts recounts owned
    (fun unit member => Multiset.mem_cons_of_mem (held unit member)) same
    (owned.of_unit (Multiset.mem_cons_self ..)) apart

/-- The children of a node are dealt with from the last to the first. -/
theorem placed_tasksFrom {before : List NodeId}
    (pending : pool.Pending opened units id info before ids trees)
    (shallow : ∀ tree ∈ trees, tree.height ≤ depth) (copied : ∀ tree ∈ trees, Copied tree)
    (ran : carryOut depth (tasksFrom id before.length ids shares).reverse pool = .ok () after)
    (now : after.childrenOf id = before ++ ids') :
    pool.PlacedAll after units ids ids' trees shares ∧ pool.Recounts ids after := by
  induction trees generalizing before shares units ids ids' after with
  | nil =>
    obtain rfl := List.forall₂_nil_right_iff.mp pending.below
    rw [tasksFrom, List.reverse_nil, carryOut_nil] at ran
    · cases ran
      exact ⟨by simp [PlacedAll], .of_steady (.refl pool)⟩
    · simp
  | cons tree trees ih =>
    obtain ⟨child, rest, shows, below', rfl⟩ := List.forall₂_cons_right_iff.mp pending.below
    cases shares with
    | nil =>
      rw [tasksFrom, List.reverse_nil, carryOut_nil] at ran
      · cases ran
        rw [childrenOf_of_node? pending.found] at now
        obtain rfl := List.append_cancel_left now
        exact ⟨fun index id tree found _ => ⟨id, found, .of_untouched _ _ _ (by simp)⟩,
          .of_steady (.refl pool)⟩
      · simp
    | cons share shares =>
      have shallow' : ∀ tree ∈ trees, tree.height ≤ depth := fun tree member =>
        shallow tree (List.mem_cons_of_mem _ member)
      have length : (before ++ [child]).length = before.length + 1 := by simp
      rw [tasksFrom, List.reverse_cons, carryOut_append, ← length] at ran
      obtain ⟨_, middle, ranLater, ranFirst⟩ := bind_eq_ok ran
      have done := computes_tasksFrom pending.later shares (fun tree _ => carried tree) shallow'
      obtain ⟨trees', _, rest', pending', spares⟩ := done.result ranLater
      obtain ⟨placedLater, recountsLater⟩ := ih pending.later shallow'
        (fun tree member => copied tree (List.mem_cons_of_mem _ member)) ranLater
        (childrenOf_of_node? pending'.found)
      obtain ⟨owned', place⟩ := pending'.last
      have shows' := spares.kept.shows (Multiset.mem_cons_self ..) shows
      have deep := shallow tree List.mem_cons_self
      obtain ⟨tree', _, child', owned'', found'', _, spares'⟩ :=
        (carried tree ⟨id, before.length⟩ share owned' pending'.unopened pending'.found place shows'
          deep).result ranFirst
      obtain rfl : ids' = child' :: rest' := by
        rw [childrenOf_of_node? found''] at now
        simpa using now.symm
      have told : (after.childrenOf id)[before.length]? = some child' := by simp [now]
      obtain ⟨placedFirst, recountsFirst⟩ := copied tree List.mem_cons_self
        ⟨id, before.length⟩ share owned' pending'.unopened pending'.found place shows' deep ranFirst
        told
      have same (unit : NodeId) (held : unit ∈ child ::ₘ units) : pool.SameBelow middle unit :=
        spares.kept.sameBelow held
      have same' := same child (Multiset.mem_cons_self ..)
      have first := placedFirst.of_kept (Multiset.le_add_right ..) same recountsLater.grows
        fun _ => pending.solo_of_later recountsLater same'
      have later := placedLater.then_kept (Multiset.le_cons_self ..) fun id' member =>
        spares'.kept.sameBelow (Multiset.mem_add.mpr (.inr (Multiset.mem_coe.mpr member)))
      exact ⟨.cons first later, recountsLater.cons same' recountsFirst⟩

/-! ## One node -/

/-- Does to a node what a share asks, once it has no owner but its holder. -/
def act (share : Share) (id : NodeId) : PoolM (List EditTask) :=
  match share with
  | .part edit => changeNode edit id
  | .glance offset => flagNode offset id

/-- A share that does not arrive at a child comes to nothing. -/
theorem editStep_cases {link : Link} {node : Node} (found : pool.node? child = some node)
    (stepped : editStep (taskOf link child share) pool = .ok tasks changed) :
    ¬ share.Arrives node.lengths ∧ tasks = [] ∧ changed = pool ∨
      share.Arrives node.lengths ∧ ∃ id middle, takeOver link child pool = .ok id middle ∧
        act share id middle = .ok tasks changed := by
  cases share with
  | part edit =>
    rw [taskOf, editStep_change] at stepped
    exact .inr ⟨trivial, bind_eq_ok stepped⟩
  | glance offset =>
    rw [taskOf, editStep_glance, bind_of_ok (query_node found)] at stepped
    split at stepped
    case isTrue past =>
      cases stepped
      exact .inl ⟨not_not_intro past, rfl, rfl⟩
    case isFalse reached => exact .inr ⟨reached, bind_eq_ok stepped⟩

/-- A node that a share arrives at hands on its shares, and all else that happens to it is written
in its place. -/
theorem Opened.act_cases (state : middle.Opened opened units id info ids trees)
    (arrives : share.Arrives info.lengths) (acts : act share id middle = .ok tasks changed)
    (done : carryOut depth tasks changed = .ok () after) :
    ∃ info' shares finished, changed.Opened opened units id info' ids trees ∧
      (Tree.node handle info trees).handsOn? share = some shares ∧ middle.Mends changed ∧
      carryOut depth (tasksFrom id 0 ids shares).reverse changed = .ok () finished ∧
      finished.Mends after := by
  cases share with
  | part edit =>
    obtain ⟨info', state', ⟨rfl, rfl⟩ | ⟨inner, oldEnd, shares, ends, drawn, rfl⟩⟩ :=
      state.changeNode_cases acts
    · obtain rfl := List.forall₂_nil_left_iff.mp state.below
      rw [carryOut_nil] at done
      cases done
      have none : carryOut depth (tasksFrom id 0 [] []).reverse changed = .ok () changed := by
        simp only [tasksFrom, List.reverse_nil, carryOut_nil]
        rfl
      exact ⟨info', [], changed, state', rfl, .of_changeNode acts, none, .refl changed⟩
    · have someTrees : trees ≠ [] := by
        rintro rfl
        exact inner (List.forall₂_nil_right_iff.mp state.below)
      have hands : (Tree.node handle info trees).handsOn? (.part edit) = some shares := by
        simp [Tree.handsOn?, Tree.children, someTrees, ends, drawn]
      rw [carryOut_append, carryOut_summarize] at done
      obtain ⟨_, finished, ran, summarized⟩ := bind_eq_ok done
      exact ⟨info', shares, finished, state', hands, .of_changeNode acts, ran,
        .of_summarize summarized⟩
  | glance offset =>
    obtain ⟨shares, drawn, rfl, state', _⟩ := (state.flagNode offset).result acts
    refine ⟨_, shares, after, state', ?_, .of_flagNode acts, done, .refl after⟩
    rw [Tree.handsOn?]
    exact (if_neg arrives).trans drawn

theorem Taken.placed (taken : pool.Taken units child id changed)
    (below : List.Forall₂ changed.Shows ids tree.children) (before : changed.childrenOf id = ids)
    (hands : tree.handsOn? share = some shares)
    (placed : changed.PlacedAll finished units ids ids' tree.children shares)
    (now : finished.childrenOf id = ids') (mends : finished.Mends after) :
    pool.Placed after units child id tree (some share) := by
  have entries : pool.childrenOf child = ids := taken.childrenOf_eq.symm.trans before
  constructor
  case stays =>
    intro path place found solo
    cases path with
    | nil =>
      obtain ⟨rfl, _⟩ := taken.alone solo
      exact found
    | cons index path =>
      obtain ⟨next, isChild, deeper⟩ := idAt?_cons_eq_some_iff.mp found
      have same := (taken.sameBelow child (Multiset.mem_cons_self ..)).of_child
        (child_iff.mpr (List.mem_of_getElem? isChild))
      obtain ⟨tree', isTree, _⟩ := below.getElem? (entries ▸ isChild)
      obtain ⟨next', isChild', placed'⟩ := placed index next tree' (entries ▸ isChild) isTree
      rw [(mends.sameBelow id).idAt?_eq]
      refine idAt?_cons_eq_some_iff.mpr ⟨next', now ▸ isChild', ?_⟩
      exact placed'.stays path place ((same.idAt?_eq path).trans deeper)
        ((solo.2 next isChild).congr (taken.alone solo.1).2 same)
  case fresh =>
    intro unit held reaches share' isShare path touched
    obtain rfl := Option.mem_some_iff.mp isShare
    cases path with
    | nil => exact ⟨id, rfl, taken.copied (taken.shared unit held reaches)⟩
    | cons index path =>
      obtain ⟨tree', isTree, share', asked, touched'⟩ := (Tree.touches_cons_iff hands).mp touched
      obtain ⟨next, isChild, _⟩ := (List.Forall₂.flip below).getElem? isTree
      obtain ⟨next', isChild', placed'⟩ := placed index next tree' isChild isTree
      have reaches' : changed.Reaches unit next :=
        (taken.sameBelow unit (Multiset.mem_cons_of_mem held)).reaches_iff.mpr
          (reaches.tail (child_iff.mpr (entries ▸ List.mem_of_getElem? isChild)))
      obtain ⟨place, found, dead⟩ := placed'.fresh unit held reaches' share' asked path touched'
      refine ⟨place, ?_, fun live => dead (taken.grows place live)⟩
      rw [(mends.sameBelow id).idAt?_eq]
      exact idAt?_cons_eq_some_iff.mpr ⟨next', now ▸ isChild', found⟩

theorem Taken.recounts (taken : pool.Taken units child id changed)
    (before : changed.childrenOf id = ids) (recounts : changed.Recounts ids finished)
    (mends : finished.Mends after) : pool.Recounts [child] after := by
  have entries : pool.childrenOf child = ids := taken.childrenOf_eq.symm.trans before
  have reaches_of (next : NodeId) (member : next ∈ ids) (other : NodeId)
      (reaches : changed.Reaches next other) : pool.Reaches child other := by
    have below : pool.Child child next := child_iff.mpr (entries ▸ member)
    have same := (taken.sameBelow child (Multiset.mem_cons_self ..)).of_child below
    exact .head below (same.reaches_iff.mp reaches)
  constructor
  case grows =>
    intro other live
    exact (mends.steady.isLive_iff other).mpr (recounts.grows other (taken.grows other live))
  case counts =>
    intro other live apart
    have apart' := apart child List.mem_cons_self
    rw [mends.steady.refCount_eq, recounts.counts other (taken.grows other live),
      taken.counts other live apart']
    exact fun next member reaches => apart' (reaches_of next member other reaches)
  case steady =>
    intro single
    have single' := single child List.mem_cons_self
    have steady := (taken.alone (single' child .refl)).2
    refine (steady.trans (recounts.steady fun next member other reaches => ?_)).trans mends.steady
    rw [steady.refCount_eq, single' other (reaches_of next member other reaches)]

/-- A node that a share arrives at is dealt with once it has been made unique. -/
theorem Taken.deals (taken : pool.Taken units child id middle)
    (state : middle.Opened opened units id info ids trees)
    (arrives : share.Arrives info.lengths) (acts : act share id middle = .ok tasks changed)
    (done : carryOut depth tasks changed = .ok () after)
    (shallow : ∀ tree ∈ trees, tree.height ≤ depth) (copied : ∀ tree ∈ trees, Copied tree) :
    pool.Placed after units child id (.node handle info trees) (some share) ∧
      pool.Recounts [child] after := by
  obtain ⟨info', shares, finished, state', hands, mends, ran, mends'⟩ :=
    @Opened.act_cases _ _ _ _ _ _ handle _ _ _ _ _ _ state arrives acts done
  obtain ⟨_, _, ids', state'', _⟩ :=
    (state'.carryAll shares (fun tree _ => carried tree) shallow).result ran
  have before := childrenOf_of_node? state'.found
  have now := childrenOf_of_node? state''.found
  obtain ⟨placed, recounts⟩ := placed_tasksFrom state'.pending shallow copied ran now
  exact ⟨(taken.mends mends).placed state'.below before hands placed now mends',
    (taken.mends mends).recounts before recounts mends'⟩

theorem Opened.settled_of_act (state : pool.Opened opened units id info ids trees)
    (arrives : share.Arrives info.lengths) (acts : act share id pool = .ok tasks changed)
    (done : carryOut depth tasks changed = .ok () after)
    (shallow : ∀ tree ∈ trees, tree.height ≤ depth) :
    ∃ tree', pool.Settled after opened units id tree' := by
  have ran := (bind_of_ok acts).trans done
  cases share with
  | part edit =>
    have changes : Computes (changeNode edit id >>= carryOut depth) pool
        ((Tree.node none info trees).carry? (.part edit))
        fun tree' _ after => pool.Settled after opened units id tree' :=
      state.change edit (fun tree _ => carried tree) fun _ _ _ => ⟨depth, shallow, fun _ => rfl⟩
    obtain ⟨tree', _, settled⟩ := changes.result ran
    exact ⟨tree', settled⟩
  | glance offset =>
    have flags := state.flag offset (fun tree _ => carried tree) shallow
    obtain ⟨tree', _, settled⟩ := flags.result ran
    exact ⟨tree', settled⟩

/-- An edit copies what it touches below shared nodes, on every tree. -/
theorem copied (tree : Tree) : Copied tree := by
  induction tree with
  | node handle info trees ih =>
    intro pool after opened units child child' parent depth link share owned unopened parentFound
      place shows deep ran now
    obtain ⟨_, ids, found, below⟩ := shows_iff.mp shows
    obtain ⟨depth, rfl, shallow⟩ := Tree.exists_depth_below deep
    rw [carryOut_one] at ran
    obtain ⟨tasks, changed, stepped, done⟩ := bind_eq_ok ran
    obtain ⟨passed, rfl, rfl⟩ | ⟨arrives, id, middle, taken, acts⟩ := editStep_cases found stepped
    · rw [carryOut_nil] at done
      cases done
      obtain rfl : child = child' := by
        rw [childrenOf_of_node? parentFound, place] at now
        exact Option.some.inj now
      refine ⟨.of_untouched _ _ _ ?_, .of_steady (.refl _)⟩
      rintro _ ⟨⟩
      exact Tree.not_touches (Tree.handsOn?_eq_none passed)
    · obtain ⟨_, _, ids', state, written, _⟩ :=
        (owned.takeOver unopened parentFound shows).result taken
      obtain ⟨_, settled⟩ := state.settled_of_act arrives acts done shallow
      obtain rfl : id = child' := by
        have told := (settled.spares.opened _ (Finset.mem_insert_self ..)).trans written
        rw [childrenOf_of_node? told] at now
        dsimp only at now
        rw [List.getElem?_set_self (List.getElem?_eq_some_iff.mp place).1] at now
        exact Option.some.inj now
      exact (owned.taken_of_takeOver taken).deals state arrives acts done shallow ih

end Tasks

/-! ## Whole edits -/

/-- An edit that is not empty takes over the root, and deals with it as with any child. -/
theorem Owned.edit_deals {pool after : Pool} {units : Multiset NodeId} {root edited : NodeId}
    {tree : Tree} {edit : TextEdit} (owned : pool.Owned ∅ (root ::ₘ units))
    (shows : pool.Shows root tree) (ran : Pool.edit root edit pool = .ok (.ok edited) after)
    (inhabited : edit.isEmpty = false) :
    (pool.refCount root = 1 ∧ edited = root ∨ pool.refCount root ≠ 1 ∧ ¬ pool.isLive edited) ∧
      pool.Placed after units root edited tree (some (.part edit)) ∧
        pool.Recounts [root] after := by
  obtain ⟨isEmpty, _⟩ | ⟨_, noted, recorded, applied⟩ := edit_eq_ok ran
  · rw [inhabited] at isEmpty
    cases isEmpty
  · obtain ⟨noted', recorded', owned', nodes⟩ := owned.record
      (.appliedEdit edit.start.bytes edit.removed.bytes edit.added.bytes)
    cases recorded.symm.trans recorded'
    obtain ⟨id, middle, unique, applied⟩ := bind_eq_ok applied
    obtain ⟨tasks, changed, acts, applied⟩ := bind_eq_ok applied
    obtain ⟨_, _, read, applied⟩ := bind_eq_ok applied
    cases read
    obtain ⟨_, last, done, applied⟩ := bind_eq_ok applied
    cases applied
    obtain ⟨handle, info, trees⟩ := tree
    have shows' := shows.transfer fun other _ => nodes other
    obtain ⟨_, _, ids, state, _⟩ := (owned'.makesOpen shows').result unique
    obtain ⟨_, state', _⟩ := state.changeNode_cases acts
    have taken := Taken.of_mends (.of_record recorded) (owned'.taken_of_makeUnique unique)
    refine ⟨taken.alone_or_copied.imp_left fun ⟨single, same, _⟩ => ⟨single, same⟩, ?_⟩
    exact @Taken.deals _ _ _ _ _ _ _ _ handle _ _ _ _ (.part edit) _ taken state trivial acts done
      (fun _ => state'.height_le) fun tree _ => copied tree

end SyntaxForest.Pool
