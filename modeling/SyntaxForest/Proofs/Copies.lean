import SyntaxForest.Proofs.Apart
import SyntaxForest.Proofs.Edit.Copies

/-! # Copying for the sake of sharing

An edit copies a node because the node has a second owner, and for no other reason. What a caller
has to itself is changed where it stands, and once a node is copied all that the edit touches below
it is copied too.
-/

namespace SyntaxForest

/-- What an edit of a tree has copied, and what it has not. -/
structure Pool.Copies (pool : Pool) (root : NodeId) (tree : Tree) (edit : TextEdit)
    (edited : NodeId) (after : Pool) : Prop where
  /-- The answer is another handle just if the root is shared and the edit is not empty. -/
  ne_iff : edited ≠ root ↔ edit.isEmpty = false ∧ 1 < (pool.refCount root).toNat
  /-- A place holds the same handle if no node from the root down to it has a second owner. -/
  stays : ∀ path place, pool.idAt? root path = some place → pool.Solo root path →
    after.idAt? edited path = some place
  /-- If no node of the tree has a second owner, no slot is acquired and none is freed. -/
  steady : (∀ id, pool.Reaches root id → pool.refCount id = 1) →
    pool.Steady after ∧ after.liveCount = pool.liveCount ∧
      ∀ id, after.refCount id = pool.refCount id
  /-- If the root is shared, a place that the edit touches holds a handle that was not live. -/
  fresh : 1 < (pool.refCount root).toNat → ∀ path, tree.touchedBy edit path = true →
    ∃ place, after.idAt? edited path = some place ∧ ¬ pool.isLive place
  /-- A place that the edit touches holds a node with a flag. -/
  flagged : ∀ path, tree.touchedBy edit path = true → ∃ place node,
    after.idAt? edited path = some place ∧ after.node? place = some node ∧ node.changed = true
  /-- A place that the edit does not touch holds the same node, under the same handle. -/
  untouched : ∀ path place, pool.idAt? root path = some place → tree.touchedBy edit path = false →
    after.idAt? edited path = some place ∧ after.node? place = pool.node? place

namespace Pool

variable {pool after : Pool} {units : Multiset NodeId} {root edited id place : NodeId}
  {tree tree' : Tree} {edit : TextEdit} {path : List Nat}

/-! ## Handles and trees -/

theorem idAt?_eq_map_spotAt? : pool.idAt? id path = (pool.spotAt? id path).map (·.id) := by
  induction path generalizing id with
  | nil => rfl
  | cons index path ih =>
    rw [idAt?, spotAt?, childrenOf]
    cases pool.node? id with
    | none => rfl
    | some node =>
      cases isChild : node.children[index]? with
      | none => simp [isChild]
      | some child => cases deeper : pool.spotAt? child path <;> simp [isChild, ih, deeper]

/-- A handle is found where the tree has a place, and shows what stands there. -/
theorem Shows.idAt? (shows : pool.Shows id tree) {here : Tree.Place}
    (found : tree.at? path = some here) :
    ∃ place, pool.idAt? id path = some place ∧ pool.Shows place here.tree := by
  obtain ⟨spot, found', _, shows'⟩ := shows.spotAt? found
  exact ⟨spot.id, by rw [idAt?_eq_map_spotAt?, found', Option.map_some], shows'⟩

theorem Shows.at?_of_idAt? (shows : pool.Shows id tree) (found : pool.idAt? id path = some place) :
    ∃ here, tree.at? path = some here ∧ pool.Shows place here.tree := by
  rw [idAt?_eq_map_spotAt?] at found
  obtain ⟨spot, found', rfl⟩ := Option.map_eq_some_iff.mp found
  obtain ⟨here, isHere, _, shows'⟩ := shows.at? found'
  exact ⟨here, isHere, shows'⟩

/-- What a share touches is the same in all trees that a handle shows. -/
theorem Shows.touches_eq (shows : pool.Shows id tree) (shows' : pool.Shows id tree') (share : Share)
    (path : List Nat) : tree.touches share path = tree'.touches share path := by
  rw [← Tree.touches_plain, shows.plain_eq shows', Tree.touches_plain]

/-! ## Whole edits -/

theorem Owned.carried_of_edit (owned : pool.Owned ∅ (root ::ₘ units)) (shows : pool.Shows root tree)
    (ran : Pool.edit root edit pool = .ok (.ok edited) after) (inhabited : edit.isEmpty = false) :
    ∃ tree', tree.carry? (.part edit) = some tree' ∧ after.Shows edited tree' := by
  obtain ⟨tree', revised, settled⟩ := owned.settled_of_edit shows ran
  obtain ⟨_, ⟨isEmpty, _⟩ | ⟨_, carried⟩⟩ := Tree.revise?_ok revised
  · rw [inhabited] at isEmpty
    cases isEmpty
  · exact ⟨tree', carried, settled.shows⟩

theorem copies_of_isEmpty (ran : Pool.edit root edit pool = .ok (.ok edited) after)
    (isEmpty : edit.isEmpty = true) : pool.Copies root tree edit edited after := by
  obtain ⟨_, rfl, recorded⟩ | ⟨inhabited, _⟩ := edit_eq_ok ran
  · have mends := Mends.of_record recorded
    have same (path : List Nat) := (mends.sameBelow edited).idAt?_eq path
    constructor
    case ne_iff => simp [isEmpty]
    case stays => exact fun path place found _ => (same path).trans found
    case steady =>
      exact fun _ => ⟨mends.steady, mends.steady.liveCount_eq, mends.steady.refCount_eq⟩
    case fresh => simp [Tree.touchedBy, isEmpty]
    case flagged => simp [Tree.touchedBy, isEmpty]
    case untouched =>
      cases recorded
      exact fun path place found _ => ⟨(same path).trans found, rfl⟩
  · rw [isEmpty] at inhabited
    cases inhabited

theorem Owned.copies (owned : pool.Owned ∅ (root ::ₘ units)) (shows : pool.Shows root tree)
    (ran : Pool.edit root edit pool = .ok (.ok edited) after) :
    pool.Copies root tree edit edited after := by
  cases isEmpty : edit.isEmpty with
  | true => exact copies_of_isEmpty ran isEmpty
  | false =>
    obtain ⟨alone_or_copied, placed, recounts⟩ := owned.edit_deals shows ran isEmpty
    have touched (path : List Nat) : tree.touchedBy edit path = tree.touches (.part edit) path := by
      rw [Tree.touchedBy, isEmpty, Bool.not_false, Bool.true_and]
    constructor
    case ne_iff =>
      obtain ⟨single, rfl⟩ | ⟨several, dead⟩ := alone_or_copied
      · simp [single]
      · have differ : edited ≠ root := fun same => dead (same ▸ shows.isLive)
        exact iff_of_true differ ⟨isEmpty, one_lt_refCount shows.isLive several⟩
    case stays => exact placed.stays
    case steady =>
      intro single
      have steady := recounts.steady fun id member => List.mem_singleton.mp member ▸ single
      exact ⟨steady, steady.liveCount_eq, steady.refCount_eq⟩
    case fresh =>
      intro shared path isTouched
      have several : pool.refCount root ≠ 1 := by
        intro single
        rw [single] at shared
        exact absurd shared (by decide)
      obtain ⟨unit, held, reaches⟩ := owned.exists_reaches several
      rw [touched] at isTouched
      exact placed.fresh unit held reaches _ rfl path isTouched
    case flagged =>
      intro path isTouched
      rw [touched] at isTouched
      obtain ⟨tree', carried, shows'⟩ := owned.carried_of_edit shows ran isEmpty
      obtain ⟨here, found, changed⟩ := Tree.changed_of_touches carried isTouched
      obtain ⟨place, found', showsHere⟩ := shows'.idAt? found
      obtain ⟨ids, node, _⟩ := showsHere.node?
      exact ⟨place, _, found', node, changed⟩
    case untouched =>
      intro path place found missed
      obtain ⟨named, showsNamed, isNamed⟩ :=
        (owned.grounded_of_unit (Multiset.mem_cons_self root units)).exists_named
      rw [touched, shows.touches_eq showsNamed] at missed
      obtain ⟨tree', carried, shows'⟩ := owned.carried_of_edit showsNamed ran isEmpty
      obtain ⟨here, isHere, showsHere⟩ := showsNamed.at?_of_idAt? found
      obtain ⟨here', isHere', same⟩ := Tree.at?_of_not_touches carried isHere missed
      obtain ⟨place', found', showsHere'⟩ := shows'.idAt? isHere'
      rw [same] at showsHere'
      have namedHere := isNamed.of_at? isHere
      obtain rfl := namedHere.unique showsHere showsHere'
      exact ⟨found', namedHere.node?_eq showsHere showsHere' .refl⟩

end Pool

namespace Session

variable {allowed : Session → Call → Prop} {session : Session} {root edited : NodeId}
  {tree : Tree} {edit : TextEdit} {after : Pool}

/-- An edit that is carried out copies what it touches below a shared root, leaves the handles of
what has a single owner all the way down, and takes no slot where nothing is shared. -/
theorem Reached.edit_copies_shared (reached : Reached allowed session) (held : root ∈ session.held)
    (shows : session.pool.Shows root tree)
    (ran : Pool.edit root edit session.pool = .ok (.ok edited) after) :
    session.pool.Copies root tree edit edited after := by
  have owned := reached.owned
  rw [← Multiset.cons_erase held] at owned
  exact owned.copies shows ran

/-- The tree of the two tokens, in which no node tells its handle. -/
def pairedTree : Tree :=
  .node none { NodeInfo.blank with lengths := ⟨.zero, ⟨6, ⟨0, 6⟩⟩, 6⟩ }
    [.node none { NodeInfo.blank with lengths := ⟨.zero, ⟨3, ⟨0, 3⟩⟩, 3⟩ } [],
      .node none { NodeInfo.blank with lengths := ⟨.zero, ⟨3, ⟨0, 3⟩⟩, 3⟩ } []]

theorem shows_pairedTree : paired.pool.Shows ⟨2, 0⟩ pairedTree := by
  refine Pool.shows_iff.mpr ⟨nofun, [⟨0, 0⟩, ⟨1, 0⟩], rfl, .cons ?_ (.cons ?_ .nil)⟩
  · exact Pool.shows_iff.mpr ⟨nofun, [], rfl, .nil⟩
  · exact Pool.shows_iff.mpr ⟨nofun, [], rfl, .nil⟩

/-- Text is put into the second token. The node and that token are copied, and the first token is
not. -/
theorem edit_copies_shared_of_paired : ∃ after,
    Pool.edit ⟨2, 0⟩ ⟨⟨5, ⟨0, 5⟩⟩, .zero, ⟨1, ⟨0, 1⟩⟩⟩ paired.pool = .ok (.ok ⟨3, 0⟩) after ∧
      paired.pool.Copies ⟨2, 0⟩ pairedTree ⟨⟨5, ⟨0, 5⟩⟩, .zero, ⟨1, ⟨0, 1⟩⟩⟩ ⟨3, 0⟩ after ∧
      (∃ place, after.idAt? ⟨3, 0⟩ [1] = some place ∧ ¬ paired.pool.isLive place) ∧
      after.idAt? ⟨3, 0⟩ [0] = some ⟨0, 0⟩ := by
  have copied : paired.pool.editPasses ⟨2, 0⟩ ⟨⟨5, ⟨0, 5⟩⟩, .zero, ⟨1, ⟨0, 1⟩⟩⟩
      (fun edited _ => decide (edited = ⟨3, 0⟩)) = true := by
    rw [Pool.editPasses, Pool.edit_eq_descendEdit]
    decide +kernel
  obtain ⟨edited, after, ran, isThird⟩ := Pool.editPasses_iff.mp copied
  obtain rfl := of_decide_eq_true isThird
  have copies := reached_paired.edit_copies_shared (by decide) shows_pairedTree ran
  exact ⟨after, ran, copies, copies.fresh (by decide) [1] (by decide +kernel),
    (copies.untouched [0] ⟨0, 0⟩ rfl (by decide +kernel)).1⟩

end Session

end SyntaxForest
