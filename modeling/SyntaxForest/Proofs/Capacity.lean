import SyntaxForest.Proofs.Ends
import SyntaxForest.Proofs.Frontier
import SyntaxForest.Proofs.Overrun
import SyntaxForest.Proofs.Recorded

/-! # What stops a node from being built

As long as everything keeps to one row and nothing is edited, every node was read just to its end,
so the lengths of a node can be told wherever its bytes can be numbered. Its counts are another
matter. A node that stands in many child lists is counted as often as it is shown, and a short text
does not bound that: nodes without text take no room in it, and a hidden node that takes one child
twice shows twice as many. So a node is built unless the pool is full or more nodes are shown than
can be counted.
-/

namespace SyntaxForest

open PoolM

/-! ## Lengths -/

namespace Lengths

variable {lengths first : Lengths} {rest children : List Lengths} {texts : List Text}

/-- The node was read to its end and no further. -/
def Exact (lengths : Lengths) : Prop := lengths.scanned.toNat = lengths.bytes

theorem token?_exact {padding size : Span} (token : token? padding size = some lengths) :
    lengths.Exact := by
  obtain ⟨bytes, fits, rfl⟩ := Option.map_eq_some_iff.mp token
  exact (Word.add?_eq_some_iff.mp fits).symm

theorem startOf_length_eq_sum (children : List Lengths) :
    startOf children children.length = (children.map bytes).sum := by
  induction children with
  | nil => rfl
  | cons child rest ih => rw [List.length_cons, startOf_cons_succ, ih, List.map_cons, List.sum_cons]

/-- Of children that were read to their ends none was read past the end of the last. -/
theorem farthest_le_of_exact (exact : ∀ child ∈ children, child.Exact) :
    farthest 0 children ≤ startOf children children.length := by
  refine farthest_le fun index child found => ?_
  rw [exact child (List.mem_of_getElem? found), Nat.zero_add]
  exact end_le_length found

theorem Derived.exact_of_all (derived : lengths.Derived first rest)
    (exact : ∀ child ∈ first :: rest, child.Exact) : lengths.Exact := by
  rw [Exact, derived.scanned_eq, Nat.max_eq_left (derived.bytes_eq ▸ farthest_le_of_exact exact)]

/-- Over children that were read to their ends the lengths of a node can be told, and bytes alone
decide that. -/
theorem exists_over?_of_exact (all : List.Forall₂ Lengths.Measures children texts)
    (exact : ∀ child ∈ children, child.Exact) (inner : children ≠ [])
    (fits : (children.map bytes).sum < UInt32.size) : ∃ lengths, over? children = some lengths ∧
      lengths.bytes = (children.map bytes).sum ∧ lengths.Exact := by
  rw [← startOf_length_eq_sum] at fits ⊢
  obtain ⟨lengths, gathered⟩ := exists_over? all (startOf_length all ▸ fits)
    fun index child found _ => by
      rw [exact child (List.mem_of_getElem? found)]
      exact Nat.lt_of_le_of_lt (end_le_length found) fits
  obtain ⟨first, rest, rfl⟩ := List.exists_cons_of_ne_nil inner
  have derived := over?_derived gathered
  exact ⟨lengths, gathered, derived.bytes_eq, derived.exact_of_all exact⟩

end Lengths

/-! ## Counts -/

namespace ShownCounts

variable {counts : ShownCounts} {child : NodeInfo} {children : List NodeInfo}

theorem exists_count? (visible : counts.visible.toNat + child.addsVisible < UInt32.size)
    (named : counts.named.toNat + child.addsNamed < UInt32.size) :
    ∃ counts', counts.count? child = some counts' := by
  rw [NodeInfo.addsVisible] at visible
  rw [NodeInfo.addsNamed] at named
  rw [count?]
  split
  case isTrue isVisible =>
    rw [if_pos isVisible] at visible named
    obtain ⟨visible', first⟩ := Word.exists_add? (a := counts.visible) (b := 1) visible
    obtain ⟨named', second⟩ := Word.exists_add? (a := counts.named)
      (b := if child.named then 1 else 0) (by split <;> simp_all)
    exact ⟨⟨visible', named'⟩, by rw [first, second]; rfl⟩
  case isFalse isHidden =>
    rw [if_neg isHidden] at visible named
    obtain ⟨visible', first⟩ := Word.exists_add? visible
    obtain ⟨named', second⟩ := Word.exists_add? named
    exact ⟨⟨visible', named'⟩, by rw [first, second]; rfl⟩

theorem exists_foldlM_count?
    (visible : counts.visible.toNat + (children.map NodeInfo.addsVisible).sum < UInt32.size)
    (named : counts.named.toNat + (children.map NodeInfo.addsNamed).sum < UInt32.size) :
    ∃ counts', children.foldlM count? counts = some counts' := by
  induction children generalizing counts with
  | nil => exact ⟨counts, rfl⟩
  | cons child children ih =>
    rw [List.map_cons, List.sum_cons] at visible named
    obtain ⟨middle, first⟩ : ∃ middle, counts.count? child = some middle :=
      exists_count? (by omega) (by omega)
    obtain ⟨visible', named'⟩ := count?_adds first
    rw [List.foldlM_cons, first]
    exact ih (by omega) (by omega)

end ShownCounts

/-- Once its lengths can be told only the counts of a node are left to fit. -/
theorem NodeInfo.over?_of_lengths {lengths : Lengths} {children : List NodeInfo}
    (table : SymbolTable) (symbol : Symbol)
    (gathered : Lengths.over? (children.map (·.lengths)) = some lengths) :
    NodeInfo.over? table symbol children =
      (children.foldlM ShownCounts.count? ⟨0, 0⟩).map fun shown =>
        { ofSymbol symbol (table.traits symbol) with
          lengths, shown
          fragileLeft := fragileAtLeft children
          fragileRight := fragileAtRight children } := by
  rw [over?, gathered]
  cases children.foldlM ShownCounts.count? ⟨0, 0⟩ <;> rfl

namespace Tree

variable {trees : List Tree}

/-- What a parent counts for trees that count their frontiers is what they show together. -/
theorem sum_adds (obey : ∀ tree ∈ trees, tree.Obeys ShownCounts.rule) :
    ((trees.map info).map NodeInfo.addsVisible).sum = (frontierAll trees).length ∧
      ((trees.map info).map NodeInfo.addsNamed).sum =
        (frontierAll trees).countP (·.info.named) := by
  have adds (tree : Tree) (place : tree ∈ trees) :=
    adds_of_counts (obey tree place).counts_frontier.1 (obey tree place).counts_frontier.2
  rw [← List.countP_true, countP_frontierAll, countP_frontierAll, List.map_map, List.map_map]
  exact ⟨congrArg List.sum (List.map_congr_left fun tree place => (adds tree place).1),
    congrArg List.sum (List.map_congr_left fun tree place => (adds tree place).2)⟩

/-- The counts of a node fit if and only if all that it shows can be counted. -/
theorem exists_counts_iff (obey : ∀ tree ∈ trees, tree.Obeys ShownCounts.rule) :
    (∃ counts, (trees.map info).foldlM ShownCounts.count? ⟨0, 0⟩ = some counts) ↔
      (frontierAll trees).length < UInt32.size := by
  obtain ⟨visible, named⟩ := sum_adds obey
  constructor
  · rintro ⟨counts, counted⟩
    rw [← visible, ← Nat.zero_add (List.sum _)]
    exact (ShownCounts.foldlM_count? counted).1 ▸ counts.visible.toNat_lt_size
  · intro few
    have fewer := List.countP_le_length (p := fun tree : Tree => tree.info.named)
      (l := frontierAll trees)
    refine ShownCounts.exists_foldlM_count? ?_ ?_
    · rw [visible]
      exact (Nat.zero_add _).trans_lt few
    · rw [named]
      exact (Nat.zero_add _).trans_lt (Nat.lt_of_le_of_lt fewer few)

end Tree

/-! ## Slots -/

namespace Pool

variable {pool after : Pool} {fault : Fault}

/-- The fault tells that the pool has as many live nodes as there are numbers for slots. -/
structure Exhausts (pool : Pool) (fault : Fault) : Prop where
  fault_eq : fault = .poolExhausted pool.slots.size
  full : UInt32.size ≤ pool.liveCount

theorem acquire_ends (pool : Pool) :
    Ends acquire pool (fun fault => fault.IsLimit → pool.Exhausts fault) fun _ _ => True := by
  unfold Ends
  split
  case h_1 => exact trivial
  case h_2 fault after stopped =>
    intro limit
    unfold acquire at stopped
    split at stopped
    case h_1 index rest free =>
      split at stopped
      case h_1 slot found =>
        split at stopped <;> cases stopped
        exact limit.elim
      case h_2 =>
        cases stopped
        exact limit.elim
    case h_2 free =>
      split at stopped
      case isTrue => cases stopped
      case isFalse full =>
        cases stopped
        refine ⟨rfl, ?_⟩
        rw [liveCount, free]
        exact Nat.not_lt.mp full

theorem write_ends {stops : Fault → Prop} {id : NodeId} (gone : stops (.released id)) (node : Node)
    (pool : Pool) : Ends (write id node) pool stops fun _ _ => True := by
  unfold Ends write
  cases pool.slot? id with
  | none => exact gone
  | some slot => exact trivial

theorem summarize_ends {stops : Fault → Prop} (overflow : stops .overflow)
    (gone : ∀ id, stops (.released id)) (id : NodeId) (pool : Pool) :
    Ends (summarize id) pool stops fun _ _ => True := by
  refine (Ends.query (Reads.node fun _ => gone id)).bind ?_
  rintro node _ ⟨_, rfl⟩
  refine (Ends.query (Reads.lengthsOver overflow fun id _ _ => gone id)).bind ?_
  rintro lengths _ ⟨_, rfl⟩
  exact write_ends (gone id) _ _

/-- The only limit that a new node can meet is that of the slots. -/
theorem makeNode_ends (table : SymbolTable) (symbol : Symbol) (children : List NodeId)
    (pool : Pool) : Ends (makeNode table symbol children) pool
      (fun fault => fault.IsLimit → pool.Exhausts fault) fun _ _ => True := by
  have gone (id : NodeId) : (Fault.released id).IsLimit → pool.Exhausts (.released id) := nofun
  have overflow : Fault.overflow.IsLimit → pool.Exhausts .overflow := nofun
  rw [makeNode]
  split
  case isTrue => exact fun limit => limit.elim
  case isFalse =>
    refine (Ends.query (Reads.shownCounts overflow fun id _ _ => gone id)).bind ?_
    rintro shown _ ⟨_, rfl⟩
    refine (Ends.query (Reads.mapM fun id _ => Reads.node fun _ => gone id)).bind ?_
    rintro below _ ⟨_, rfl⟩
    refine (acquire_ends _).bind fun id acquired _ => ?_
    refine (write_ends (gone id) _ acquired).bind fun _ written _ => ?_
    exact (summarize_ends overflow gone id written).bind fun _ _ _ => .of_ok rfl trivial

end Pool

/-! ## Sessions that build -/

namespace Session

variable {session : Session} {id : NodeId} {node : Node} {tree : Tree} {children : List NodeId}
  {trees : List Tree}

/-- The caller builds trees of text on one row, shares them and gives them up. -/
def BuildsOnOneRow (_ : Session) : Call → Prop
  | .makeLeaf _ _ padding size | .makeError _ padding size _ => padding.Unbroken ∧ size.Unbroken
  | .makeNode .. | .retain .. | .release .. => True
  | .acquire | .edit .. | .amend .. => False

theorem Reached.onOneRow (reached : Reached BuildsOnOneRow session) : Reached OnOneRow session := by
  refine reached.mono fun session call may => ?_
  cases call with
  | makeLeaf | makeError => exact may
  | makeNode | retain | release => trivial
  | acquire | edit | amend => exact may.elim

theorem Reached.exists_recorded {allowed : Session → Call → Prop}
    (reached : Reached allowed session) : ∃ makers, Recorded allowed session makers := by
  induction reached with
  | start sizing => exact ⟨_, .start sizing⟩
  | @step session after call _ may stepped ih =>
    obtain ⟨makers, recorded⟩ := ih
    unfold step? at stepped
    split at stepped
    case isTrue held =>
      split at stepped
      case h_1 given pool ran =>
        cases stepped
        exact ⟨_, recorded.step call may held ran⟩
      case h_2 => cases stepped
    case isFalse => cases stepped

/-- A leaf is as it was made. -/
theorem Reached.exact_of_leaf (reached : Reached BuildsOnOneRow session)
    (found : session.pool.node? id = some node) (leaf : node.children = []) :
    node.lengths.Exact := by
  obtain ⟨makers, recorded⟩ := reached.exists_recorded
  refine recorded.forall_node (fun node _ => node.children = [] → node.lengths.Exact)
    (fun _ _ _ may => may) ?_ (fun _ _ _ _ _ may _ _ => may.elim) found leaf
  intro pool call node trees creates makes sameLength leaf
  cases call with
  | acquire =>
    obtain ⟨_, same, _⟩ := Tree.node.inj makes
    rw [same]
    rfl
  | makeLeaf | makeError =>
    obtain ⟨lengths, token, made⟩ := makes
    obtain ⟨_, same, _⟩ := Tree.node.inj made
    rw [same]
    exact Lengths.token?_exact token
  | makeNode table symbol children =>
    obtain ⟨info, trees', inner, below, _, made⟩ := makes
    obtain ⟨_, _, rfl⟩ := Tree.node.inj made
    rw [leaf, ← below.length_eq] at sameLength
    exact (inner (List.length_eq_zero_iff.mp sameLength.symm)).elim
  | retain | release | edit | amend => cases creates

/-- Every node was read just to its end. -/
theorem Reached.exact_of_shows (reached : Reached BuildsOnOneRow session)
    (shows : session.pool.Shows id tree) : tree.lengths.Exact := by
  have measured := reached.onOneRow.writesLeaves.pool_measured.shows shows
  induction tree generalizing id with
  | node handle info children ih =>
    obtain ⟨_, ids, found, all⟩ := Pool.shows_iff.mp shows
    obtain ⟨here, below⟩ := measured
    cases children with
    | nil =>
      obtain rfl := List.forall₂_nil_right_iff.mp all
      exact reached.exact_of_leaf found rfl
    | cons first rest =>
      -- A node is read as far as its children are, so it is for the leaves to be read no further.
      refine (here.derived _ _ rfl).exact_of_all fun lengths member => ?_
      obtain ⟨child, place, rfl⟩ : ∃ child ∈ first :: rest, child.lengths = lengths :=
        List.mem_map.mp member
      obtain ⟨id', _, shows'⟩ := (List.Forall₂.flip all).exists_of_mem place
      exact ih child place shows' (below child place)

/-- Every node counts its frontier. -/
theorem Reached.obeys_shown (reached : Reached BuildsOnOneRow session)
    (shows : session.pool.Shows id tree) : tree.Obeys ShownCounts.rule := by
  refine (reached.pool_obeys ShownCounts.rule_derived fun session call may => ?_).shows shows
  apply KeepsShown.respects
  cases call with
  | amend => exact may.elim
  | acquire | makeLeaf | makeError | makeNode | retain | release | edit => trivial

/-- The lengths of a node can be told over all children whose bytes can be numbered together, and
nothing is read past its end. -/
theorem Reached.exists_over? (reached : Reached BuildsOnOneRow session) (inner : children ≠ [])
    (below : List.Forall₂ session.pool.Shows children trees)
    (fits : (trees.map (·.lengths.bytes)).sum < UInt32.size) :
    ∃ lengths, Lengths.over? (trees.map Tree.lengths) = some lengths ∧
      lengths.bytes = (trees.map (·.lengths.bytes)).sum ∧ lengths.Exact := by
  obtain ⟨texts, all⟩ := List.Forall₂.exists_of_forall (R := Tree.Spells) fun tree place => by
    obtain ⟨_, _, shows⟩ := (List.Forall₂.flip below).exists_of_mem place
    obtain ⟨text, _, spells⟩ := reached.onOneRow.unbroken.shows shows
    exact ⟨text, spells⟩
  have inner' : trees ≠ [] := Tree.inner_of_length_eq below.length_eq.symm inner
  have sum : (trees.map (·.lengths.bytes)).sum =
      ((trees.map Tree.lengths).map Lengths.bytes).sum := by
    rw [List.map_map]
    rfl
  rw [sum] at fits ⊢
  refine Lengths.exists_over?_of_exact (Tree.Spells.lengths_measures_all all) ?_
    (mt List.map_eq_nil_iff.mp inner') fits
  intro lengths member
  obtain ⟨tree, place, rfl⟩ := List.mem_map.mp member
  obtain ⟨_, _, shows⟩ := (List.Forall₂.flip below).exists_of_mem place
  exact reached.exact_of_shows shows

/-- What becomes of a node over children whose bytes can be numbered together. Its lengths can be
told, and the node is built over the children that it was asked for, unless the pool is full or more
visible nodes are shown below it than can be counted. -/
theorem Reached.makeNode_decided (reached : Reached BuildsOnOneRow session) (table : SymbolTable)
    (symbol : Symbol) (inner : children ≠ [])
    (held : (children : Multiset NodeId) ≤ session.held)
    (below : List.Forall₂ session.pool.Shows children trees)
    (fits : (trees.map (·.lengths.bytes)).sum < UInt32.size) :
    ∃ lengths, Lengths.over? (trees.map Tree.lengths) = some lengths ∧
      lengths.bytes = (trees.map (·.lengths.bytes)).sum ∧
      lengths.scanned.toNat = (trees.map (·.lengths.bytes)).sum ∧
      match Pool.makeNode table symbol children session.pool with
      | .ok id after => (Tree.frontierAll trees).length < UInt32.size ∧ ∃ info,
        after.Shows id (.node none info trees) ∧ info.lengths = lengths ∧
          info.shown.visible.toNat = (Tree.frontierAll trees).length ∧
          info.shown.named.toNat = (Tree.frontierAll trees).countP (·.info.named)
      | .error fault _ => session.pool.Exhausts fault ∨
        fault = .overflow ∧ UInt32.size ≤ (Tree.frontierAll trees).length := by
  obtain ⟨lengths, gathered, bytes, exact⟩ := reached.exists_over? inner below fits
  refine ⟨lengths, gathered, bytes, exact.trans bytes, ?_⟩
  have obey (tree : Tree) (place : tree ∈ trees) : tree.Obeys ShownCounts.rule := by
    obtain ⟨_, _, shows⟩ := (List.Forall₂.flip below).exists_of_mem place
    exact reached.obeys_shown shows
  have told : Lengths.over? ((trees.map Tree.info).map (·.lengths)) = some lengths := by
    rw [List.map_map]
    exact gathered
  have derives := NodeInfo.over?_of_lengths table symbol told
  have whole : (session.held - children) + (children : Multiset NodeId) = session.held :=
    tsub_add_cancel_of_le held
  have computes := (whole.symm ▸ reached.owned).makeNode table symbol inner below
  split
  case h_1 id after ran =>
    obtain ⟨info, told, settled⟩ := computes.result ran
    obtain ⟨shown, counted, rfl⟩ := Option.map_eq_some_iff.mp (derives.symm.trans told)
    obtain ⟨visible, named⟩ := ShownCounts.foldlM_count? counted
    obtain ⟨sumVisible, sumNamed⟩ := Tree.sum_adds obey
    exact ⟨(Tree.exists_counts_iff obey).mp ⟨shown, counted⟩, _, settled.shows, rfl,
      visible.trans ((Nat.zero_add _).trans sumVisible),
      named.trans ((Nat.zero_add _).trans sumNamed)⟩
  case h_2 fault after stopped =>
    have exhausts := (Pool.makeNode_ends table symbol children _).fault stopped
    refine (computes.fault stopped).imp (fun limit => exhausts limit.isLimit)
      fun ⟨isOverflow, missing⟩ => ⟨isOverflow, ?_⟩
    -- The lengths are there, so what is missing are the counts.
    rw [derives, Option.map_eq_none_iff] at missing
    refine Nat.not_lt.mp fun few => ?_
    obtain ⟨counts, counted⟩ := (Tree.exists_counts_iff obey).mpr few
    cases missing.symm.trans counted

/-! ## A crowd without text -/

/-- A visible token without text, and hidden nodes that each stand over the one before twice. -/
def crowdNode : Nat → Node
  | 0 => ⟨NodeInfo.ofSymbol ⟨0⟩ .ofRule, []⟩
  | n + 1 =>
    ⟨{ NodeInfo.ofSymbol ⟨1⟩ .hidden with shown := ⟨.ofNat (2 ^ (n + 1)), .ofNat (2 ^ (n + 1))⟩ },
      [⟨n, 0⟩, ⟨n, 0⟩]⟩

/-- The caller holds the last of these nodes twice. -/
def crowd (n : Nat) : Session where
  pool :=
    { slots := ((List.range (n + 1)).map fun index => ⟨0, 2, crowdNode index⟩).toArray
      free := [], journal := #[], sizing := .standard }
  held := {⟨n, 0⟩, ⟨n, 0⟩}

deriving instance DecidableEq for Session

/-- Each round costs one node more and counts twice as many. -/
theorem crowd_step : ∀ n < 31,
    ((crowd n).step? (.makeNode ruleAndGroup ⟨1⟩ [⟨n, 0⟩, ⟨n, 0⟩])).bind
      (·.step? (.retain ⟨n + 1, 0⟩)) = some (crowd (n + 1)) := by
  decide +kernel

theorem reached_crowd (n : Nat) (few : n ≤ 31) : Reached BuildsOnOneRow (crowd n) := by
  induction n with
  | zero =>
    have token : Reached BuildsOnOneRow _ := .step
      (.makeLeaf ruleAndGroup ⟨0⟩ .zero .zero) (.start .standard) ⟨rfl, rfl⟩ rfl
    exact token.step (.retain ⟨0, 0⟩) trivial rfl
  | succ n ih =>
    obtain ⟨middle, made, retained⟩ := Option.bind_eq_some_iff.mp (crowd_step n few)
    have node := (ih (Nat.le_of_succ_le few)).step
      (.makeNode ruleAndGroup ⟨1⟩ [⟨n, 0⟩, ⟨n, 0⟩]) trivial made
    exact node.step (.retain ⟨n + 1, 0⟩) trivial retained

/-- The next node would show as many nodes as there are words. -/
theorem crowd_stops : ∃ after, Pool.makeNode ruleAndGroup ⟨1⟩ [⟨31, 0⟩, ⟨31, 0⟩] (crowd 31).pool =
    .error .overflow after := by
  have stops : (match Pool.makeNode ruleAndGroup ⟨1⟩ [⟨31, 0⟩, ⟨31, 0⟩] (crowd 31).pool with
      | .error .overflow _ => true
      | _ => false) = true := by decide +kernel
  split at stops
  case h_1 after ran => exact ⟨after, ran⟩
  case h_2 => cases stops

theorem crowd_lengths : (crowd 31).pool.lengths? ⟨31, 0⟩ = some .zero := by decide +kernel

/-- What does not fit is the number of nodes that would be shown. -/
theorem makeNode_decided_of_crowd : ∃ tree after, (crowd 31).pool.Shows ⟨31, 0⟩ tree ∧
    tree.lengths.bytes = 0 ∧ UInt32.size ≤ (Tree.frontierAll [tree, tree]).length ∧
      Pool.makeNode ruleAndGroup ⟨1⟩ [⟨31, 0⟩, ⟨31, 0⟩] (crowd 31).pool =
        .error .overflow after := by
  have reached := reached_crowd 31 (Nat.le_refl 31)
  have held : ⟨31, 0⟩ ∈ (crowd 31).held := by decide
  obtain ⟨tree, shows⟩ := reached.owned.exists_shows held
  have below : List.Forall₂ (crowd 31).pool.Shows [⟨31, 0⟩, ⟨31, 0⟩] [tree, tree] :=
    .cons shows (.cons shows .nil)
  have empty : tree.lengths = .zero := by
    obtain ⟨_, found, _⟩ := shows.node?
    have lengths := crowd_lengths
    rw [Pool.lengths?, found] at lengths
    exact Option.some.inj lengths
  have fits : ([tree, tree].map (·.lengths.bytes)).sum < UInt32.size := by
    simp only [List.map_cons, List.map_nil, empty]
    decide
  have inner : ([⟨31, 0⟩, ⟨31, 0⟩] : List NodeId) ≠ [] := List.cons_ne_nil _ _
  obtain ⟨_, _, _, _, decided⟩ :=
    reached.makeNode_decided ruleAndGroup ⟨1⟩ inner (by decide) below fits
  obtain ⟨after, stopped⟩ := crowd_stops
  rw [stopped] at decided
  rcases decided with exhausts | ⟨_, many⟩
  · cases exhausts.fault_eq
  · exact ⟨tree, after, shows, congrArg Lengths.bytes empty, many, stopped⟩

/-- A node over two children without text is not built. -/
theorem makeNode_stops_of_crowd : Reached BuildsOnOneRow (crowd 31) ∧
    (([⟨31, 0⟩, ⟨31, 0⟩] : List NodeId) : Multiset NodeId) ≤ (crowd 31).held ∧
      (crowd 31).pool.lengths? ⟨31, 0⟩ = some .zero ∧
      (crowd 31).pool.liveCount = 32 ∧
        ∃ after, Pool.makeNode ruleAndGroup ⟨1⟩ [⟨31, 0⟩, ⟨31, 0⟩] (crowd 31).pool =
          .error .overflow after :=
  ⟨reached_crowd 31 (Nat.le_refl 31), le_refl _, crowd_lengths, rfl, crowd_stops⟩

end Session

end SyntaxForest
