import SyntaxForest.Proofs.Outline
import SyntaxForest.Proofs.Ruled
import SyntaxForest.Proofs.Tree.Frontier
import Mathlib.Algebra.GroupWithZero.Nat

/-! # How trees are written and counted

What a tree shows is found twice: going down, when it is written, and going up, when a node that is
built counts what its children show. Both find the frontier. The text of a live node is its label and
the texts of its frontier, and its counts are those of its frontier as long as callers leave alone what
is counted, whatever is edited and copied.
-/

namespace SyntaxForest

/-! ## Counts -/

namespace NodeInfo

/-- How many visible nodes a parent counts for the node. -/
def addsVisible (info : NodeInfo) : Nat := if info.visible then 1 else info.shown.visible.toNat

/-- How many named ones of those. -/
def addsNamed (info : NodeInfo) : Nat :=
  if info.visible then (if info.named then 1 else 0) else info.shown.named.toNat

/-- The node with nothing but what is counted. -/
def counted (info : NodeInfo) : NodeInfo :=
  { blank with visible := info.visible, named := info.named, shown := info.shown }

end NodeInfo

namespace ShownCounts

theorem count?_adds {counts counts' : ShownCounts} {child : NodeInfo}
    (counted : counts.count? child = some counts') :
    counts'.visible.toNat = counts.visible.toNat + child.addsVisible ∧
      counts'.named.toNat = counts.named.toNat + child.addsNamed := by
  rw [count?] at counted
  split at counted
  case isTrue isVisible =>
    obtain ⟨visible, first, counted⟩ := Option.bind_eq_some_iff.mp counted
    obtain ⟨named, second, same⟩ := Option.bind_eq_some_iff.mp counted
    cases same
    rw [NodeInfo.addsVisible, NodeInfo.addsNamed, if_pos isVisible, if_pos isVisible]
    refine ⟨(Word.add?_eq_some_iff.mp first).symm, (Word.add?_eq_some_iff.mp second).symm.trans ?_⟩
    split <;> rfl
  case isFalse isHidden =>
    obtain ⟨visible, first, counted⟩ := Option.bind_eq_some_iff.mp counted
    obtain ⟨named, second, same⟩ := Option.bind_eq_some_iff.mp counted
    cases same
    rw [NodeInfo.addsVisible, NodeInfo.addsNamed, if_neg isHidden, if_neg isHidden]
    exact ⟨(Word.add?_eq_some_iff.mp first).symm, (Word.add?_eq_some_iff.mp second).symm⟩

theorem foldlM_count? {children : List NodeInfo} {counts counts' : ShownCounts}
    (counted : children.foldlM count? counts = some counts') :
    counts'.visible.toNat = counts.visible.toNat + (children.map NodeInfo.addsVisible).sum ∧
      counts'.named.toNat = counts.named.toNat + (children.map NodeInfo.addsNamed).sum := by
  induction children generalizing counts with
  | nil =>
    cases counted
    exact ⟨rfl, rfl⟩
  | cons child children ih =>
    obtain ⟨middle, first, rest⟩ := Option.bind_eq_some_iff.mp counted
    obtain ⟨visible, named⟩ := count?_adds first
    obtain ⟨visible', named'⟩ := ih rest
    rw [List.map_cons, List.map_cons, List.sum_cons, List.sum_cons]
    omega

/-- A node shows what its children add up to. -/
def rule : Rule NodeInfo where
  view := NodeInfo.counted
  Holds info below := info.shown.visible.toNat = (below.map NodeInfo.addsVisible).sum ∧
    info.shown.named.toNat = (below.map NodeInfo.addsNamed).sum

theorem rule_derived : rule.Derived where
  leaf := by
    intro info empty
    simp only [rule, empty]
    exact ⟨rfl, rfl⟩
  inner := by
    intro table symbol children info derived
    obtain ⟨shown, counted, derived⟩ := Option.bind_eq_some_iff.mp derived
    obtain ⟨_, _, rfl⟩ := Option.map_eq_some_iff.mp derived
    obtain ⟨visible, named⟩ := foldlM_count? counted
    simp only [rule, List.map_map]
    exact ⟨visible.trans (Nat.zero_add _), named.trans (Nat.zero_add _)⟩
  kind := by
    intro info info' below same holds
    have shown := congrArg NodeInfo.shown same
    simp only [NodeInfo.kind] at shown
    simpa only [rule, shown] using holds
  view_kind := fun _ => rfl

end ShownCounts

namespace Tree

theorem countP_frontierAll (p : Tree → Bool) (trees : List Tree) : (frontierAll trees).countP p =
    (trees.map fun tree => (if tree.info.visible then [tree] else tree.frontier).countP p).sum := by
  induction trees with
  | nil => rfl
  | cons tree trees ih => rw [frontierAll, List.countP_append, ih, List.map_cons, List.sum_cons]

/-- A parent counts for a tree what it finds of it: the tree itself, or the frontier of a hidden one. -/
theorem adds_of_counts {tree : Tree}
    (visible : tree.info.shown.visible.toNat = tree.frontier.countP fun _ => true)
    (named : tree.info.shown.named.toNat = tree.frontier.countP (·.info.named)) :
    tree.info.addsVisible =
        (if tree.info.visible then [tree] else tree.frontier).countP (fun _ => true) ∧
      tree.info.addsNamed =
        (if tree.info.visible then [tree] else tree.frontier).countP (·.info.named) := by
  rw [NodeInfo.addsVisible, NodeInfo.addsNamed]
  split
  · rw [List.countP_singleton, List.countP_singleton]
    exact ⟨rfl, rfl⟩
  · exact ⟨visible, named⟩

/-- The counts of a tree that obeys the rule are those of its frontier. -/
theorem Obeys.counts_frontier {tree : Tree} (obeys : tree.Obeys ShownCounts.rule) :
    tree.info.shown.visible.toNat = tree.frontier.countP (fun _ => true) ∧
      tree.info.shown.named.toNat = tree.frontier.countP (·.info.named) := by
  induction obeys with
  | @node handle info children here _ ih =>
    obtain ⟨visible, named⟩ := here
    rw [List.map_map] at visible named
    have adds (child : Tree) (place : child ∈ children) :=
      adds_of_counts (ih child place).1 (ih child place).2
    rw [frontier, countP_frontierAll, countP_frontierAll, info_node]
    exact ⟨visible.trans (congrArg List.sum (List.map_congr_left fun child place =>
        (adds child place).1)),
      named.trans (congrArg List.sum (List.map_congr_left fun child place => (adds child place).2))⟩

end Tree

/-! ## Texts -/

namespace Pool

variable {pool : Pool} {id : NodeId} {ids : List NodeId} {tree : Tree} {trees : List Tree}
  {depth : Nat} {table : SymbolTable}

/-- Written one after the other, trees add to a text what each of them adds. -/
theorem run_sexprAll (table : SymbolTable) (all : List.Forall₂ pool.Shows ids trees)
    (each : ∀ tree ∈ trees, ∀ id text, pool.Shows id tree →
      Agenda.run (pool.sexprStep table) .endless [(depth, .below id)] text =
        .ok () (text ++ Tree.written table [tree])) (text : String) :
    Agenda.run (pool.sexprStep table) .endless ((ids.map .below).map (depth, ·)) text =
      .ok () (text ++ Tree.written table trees) := by
  induction all generalizing text with
  | nil => rw [Tree.written_nil, String.append_empty, List.map_nil, List.map_nil, Agenda.run]
  | @cons id tree ids trees shows _ ih =>
    have first := each tree List.mem_cons_self id text shows
    have rest := ih fun tree place => each tree (List.mem_cons_of_mem _ place)
    rw [List.map_cons, List.map_cons, ← List.singleton_append, Agenda.run_append, first]
    have whole := Tree.written_append table [tree] trees
    rw [List.singleton_append] at whole
    simp only [rest, whole, String.append_assoc]

theorem isEmpty_of_shows (all : List.Forall₂ pool.Shows ids trees) : ids.isEmpty = trees.isEmpty := by
  cases all <;> rfl

/-- A node that is shown is written as a whole, after what leads to it. -/
theorem run_writeNode (lead text : String) (all : List.Forall₂ pool.Shows ids tree.children)
    (below : ∀ text, Agenda.run (pool.sexprStep table) .endless
      ((ids.map .below).map (depth, ·)) text =
        .ok () (text ++ Tree.written table tree.children)) :
    ∃ follow after, writeNode lead table ⟨tree.info, ids⟩ text = .ok follow after ∧
      Agenda.run (pool.sexprStep table) .endless (follow.map (depth, ·)) after =
        .ok () (text ++ (lead ++ tree.render table)) := by
  refine ⟨_, _, rfl, ?_⟩
  have close (text : String) : pool.sexprStep table .close text = .ok [] (text ++ ")") := rfl
  rw [List.map_append, Agenda.run_append, below, Tree.render_eq, Node.isLeaf, isEmpty_of_shows all]
  simp only [List.map_singleton, Agenda.run, close, String.append_assoc]

/-- The task of a tree adds its text, after a space, or the texts of its children if it is hidden. -/
theorem Shows.run_below (shows : pool.Shows id tree) (deep : tree.height ≤ depth) (text : String) :
    Agenda.run (pool.sexprStep table) .endless [(depth, .below id)] text =
      .ok () (text ++ Tree.written table [tree]) := by
  induction tree using Tree.induct_below generalizing id depth text with
  | step tree ih =>
    obtain ⟨ids, found, all⟩ := shows.node?
    obtain ⟨less, rfl, low⟩ := Tree.exists_depth_children deep
    have below := run_sexprAll table all fun tree isChild id text shows =>
      ih tree isChild shows (low tree isChild) text
    rw [Agenda.run_one, sexprStep_below table found, Tree.written_cons, Tree.written_nil,
      String.append_empty]
    cases isVisible : tree.info.visible with
    | true =>
      obtain ⟨follow, after, wrote, ran⟩ := run_writeNode " " text all below
      rw [if_pos rfl, if_pos rfl, wrote, Tree.told, isVisible]
      exact ran
    | false =>
      rw [if_neg Bool.false_ne_true, if_neg Bool.false_ne_true, Tree.told_false_of_hidden isVisible,
        String.empty_append]
      exact below text

/-- A tree is written as its text tells. -/
theorem Shows.sexpr_eq (shows : pool.Shows id tree) (deep : tree.height ≤ pool.walkDepth)
    (table : SymbolTable) : pool.sexpr table id = .ok (tree.render table) := by
  obtain ⟨ids, found, all⟩ := shows.node?
  obtain ⟨less, isDepth, low⟩ := Tree.exists_depth_children deep
  have below := run_sexprAll table all fun tree isChild id text shows =>
    shows.run_below (low tree isChild) text
  obtain ⟨follow, after, wrote, ran⟩ := run_writeNode "" "" all below
  rw [sexpr, walk, List.map_singleton, isDepth, Agenda.run_one, sexprStep_root table found, wrote]
  simp only [ran, String.empty_append]

end Pool

namespace Session

variable {allowed : Session → Call → Prop} {session : Session} {id : NodeId}

/-- What the caller writes leaves alone whether a node is visible and named, and its counts. -/
def KeepsShown (session : Session) : Call → Prop
  | .amend id change => ∀ node, session.pool.node? id = some node →
    (change node.toNodeInfo).visible = node.visible ∧ (change node.toNodeInfo).named = node.named ∧
      (change node.toNodeInfo).shown = node.shown
  | _ => True

theorem KeepsShown.respects {call : Call} (keeps : session.KeepsShown call) :
    session.Respects ShownCounts.rule call := by
  cases call with
  | amend id change =>
    intro node found
    obtain ⟨visible, named, shown⟩ := keeps node found
    refine ⟨fun below holds => ?_, .inl ?_⟩
    · simpa only [ShownCounts.rule, shown] using holds
    · simp only [ShownCounts.rule, NodeInfo.counted, visible, named, shown]
  | acquire | makeLeaf | makeError | makeNode | retain | release | edit => exact trivial

/-- A tree is written as its label and the texts of its frontier. A hidden node below the root may
therefore give way to its children, and the text is another only if that leaves an error bare of
children. As long as callers leave alone what is counted, a node counts its frontier and the named
nodes in it. -/
theorem Reached.sexpr_frontier (reached : Reached allowed session) (live : session.pool.isLive id) :
    (∀ (table : SymbolTable) (info : NodeInfo) (isLeaf : Bool),
      (∀ c, info.symbol = .error → isLeaf = true → info.lookahead = some c →
        table.label info isLeaf = "UNEXPECTED " ++ Text.quote c) ∧
      (¬ (info.symbol = .error ∧ isLeaf = true ∧ info.lookahead.isSome = true) →
        table.label info isLeaf =
          (table.name? info.symbol).getD ("#" ++ toString info.symbol.index))) ∧
    (∃ tree, session.pool.Shows id tree) ∧
    ∀ tree, session.pool.Shows id tree →
      (∀ table, session.pool.sexpr table id = .ok (tree.render table)) ∧
      (∀ allowed' session' id' tree' table, Reached allowed' session' →
        session'.pool.Shows id' tree' → tree.Splices tree' →
          (session.pool.sexpr table id = session'.pool.sexpr table id' ↔
            ¬ Tree.Bares true tree tree')) ∧
      ((∀ session call, allowed session call → session.KeepsShown call) →
        tree.info.shown.visible.toNat = tree.frontier.length ∧
          tree.info.shown.named.toNat = tree.frontier.countP (·.info.named)) := by
  have owned := reached.owned
  refine ⟨fun table info isLeaf => ⟨?_, SymbolTable.label_ordinary⟩, owned.exists_shows_of_live live,
    fun tree shows => ⟨?_, ?_, ?_⟩⟩
  · rintro c isError rfl stopped
    exact SymbolTable.label_unexpected isError stopped
  · exact shows.sexpr_eq (owned.height_le_walkDepth shows)
  · intro allowed' session' id' tree' table reached' shows' splices
    rw [shows.sexpr_eq (owned.height_le_walkDepth shows),
      shows'.sexpr_eq (reached'.owned.height_le_walkDepth shows'), Except.ok.injEq]
    exact splices.render_eq_iff
  · intro keeps
    have obeys := reached.pool_obeys ShownCounts.rule_derived fun session call may =>
      (keeps session call may).respects
    rw [← List.countP_true]
    exact (obeys.shows shows).counts_frontier

/-- A rule and a hidden group. -/
def ruleAndGroup : SymbolTable := ⟨#[("rule", .ofRule), ("_group", .hidden)], by decide⟩

/-- A group of two tokens and then an error below a node, and the same without the group. -/
def grouping : Session where
  pool :=
    { slots := #[
        ⟨0, 4, ⟨NodeInfo.ofSymbol ⟨0⟩ .ofRule, []⟩⟩,
        ⟨0, 2, ⟨{ NodeInfo.ofSymbol .error .ofRule with
          fragileLeft := true, fragileRight := true, lookahead := some '\n' }, []⟩⟩,
        ⟨0, 1, ⟨{ NodeInfo.ofSymbol ⟨1⟩ .hidden with shown := ⟨2, 2⟩ }, [⟨0, 0⟩, ⟨0, 0⟩]⟩⟩,
        ⟨0, 1, ⟨{ NodeInfo.ofSymbol ⟨0⟩ .ofRule with shown := ⟨3, 3⟩ }, [⟨2, 0⟩, ⟨1, 0⟩]⟩⟩,
        ⟨0, 1, ⟨{ NodeInfo.ofSymbol ⟨0⟩ .ofRule with shown := ⟨3, 3⟩ },
          [⟨0, 0⟩, ⟨0, 0⟩, ⟨1, 0⟩]⟩⟩]
      free := [], journal := #[], sizing := .standard }
  held := {⟨4, 0⟩, ⟨3, 0⟩}

theorem reached_grouping : Reached KeepsShown grouping := by
  have token : Reached KeepsShown _ := .step
    (.makeLeaf ruleAndGroup ⟨0⟩ .zero .zero) (.start .standard) trivial rfl
  have retained := token.step (.retain ⟨0, 0⟩) trivial rfl
  have retained := retained.step (.retain ⟨0, 0⟩) trivial rfl
  have retained := retained.step (.retain ⟨0, 0⟩) trivial rfl
  have error := retained.step (.makeError ruleAndGroup .zero .zero (some '\n')) trivial rfl
  have retained := error.step (.retain ⟨1, 0⟩) trivial rfl
  have group := retained.step (.makeNode ruleAndGroup ⟨1⟩ [⟨0, 0⟩, ⟨0, 0⟩]) trivial rfl
  have node := group.step (.makeNode ruleAndGroup ⟨0⟩ [⟨2, 0⟩, ⟨1, 0⟩]) trivial rfl
  have node := node.step (.makeNode ruleAndGroup ⟨0⟩ [⟨0, 0⟩, ⟨0, 0⟩, ⟨1, 0⟩]) trivial rfl
  exact node

/-- With the group and without it the node is written alike, and counts what is written. -/
theorem sexpr_frontier_of_grouping : ∃ tree tree',
    grouping.pool.Shows ⟨3, 0⟩ tree ∧ grouping.pool.Shows ⟨4, 0⟩ tree' ∧ tree.Splices tree' ∧
      ¬ Tree.Bares true tree tree' ∧
      tree.render ruleAndGroup = "(rule (rule) (rule) (UNEXPECTED '\\n'))" ∧
      tree.frontier.length = 3 ∧ tree.frontier.countP (·.info.named) = 3 := by
  have owned := reached_grouping.owned
  obtain ⟨token, showsToken⟩ := owned.exists_shows_of_live (show grouping.pool.isLive ⟨0, 0⟩ from rfl)
  obtain ⟨error, showsError⟩ := owned.exists_shows_of_live (show grouping.pool.isLive ⟨1, 0⟩ from rfl)
  have showsGroup : grouping.pool.Shows ⟨2, 0⟩ (.node none _ [token, token]) :=
    Pool.shows_iff.mpr ⟨nofun, _, rfl, .cons showsToken (.cons showsToken .nil)⟩
  have showsTree : grouping.pool.Shows ⟨3, 0⟩ (.node none _ ([] ++ _ :: [error])) :=
    Pool.shows_iff.mpr ⟨nofun, _, rfl, .cons showsGroup (.cons showsError .nil)⟩
  have showsTree' : grouping.pool.Shows ⟨4, 0⟩ (.node none _ ([] ++ [token, token] ++ [error])) :=
    Pool.shows_iff.mpr ⟨nofun, _, rfl, .cons showsToken (.cons showsToken (.cons showsError .nil))⟩
  obtain ⟨_, _, each⟩ := reached_grouping.sexpr_frontier (show grouping.pool.isLive ⟨3, 0⟩ from rfl)
  obtain ⟨_, _, each'⟩ := reached_grouping.sexpr_frontier (show grouping.pool.isLive ⟨4, 0⟩ from rfl)
  obtain ⟨writes, splices, counts⟩ := each _ showsTree
  have text : (grouping.pool.sexpr ruleAndGroup ⟨3, 0⟩).toOption =
      some "(rule (rule) (rule) (UNEXPECTED '\\n'))" := by
    rw [Pool.sexpr, Pool.walk_eq_forM]
    decide +kernel
  have text' : (grouping.pool.sexpr ruleAndGroup ⟨4, 0⟩).toOption =
      some "(rule (rule) (rule) (UNEXPECTED '\\n'))" := by
    rw [Pool.sexpr, Pool.walk_eq_forM]
    decide +kernel
  rw [writes] at text
  rw [(each' _ showsTree').1] at text'
  have same := Option.some.inj (text.trans text'.symm)
  obtain ⟨visible, named⟩ := counts fun _ _ keeps => keeps
  refine ⟨_, _, showsTree, showsTree', .here rfl rfl, ?_, Option.some.inj text, visible.symm,
    named.symm⟩
  refine (splices _ _ _ _ ruleAndGroup reached_grouping showsTree' (.here rfl rfl)).mp ?_
  rw [writes, (each' _ showsTree').1, same]

/-- An error over a hidden token, which knows at which character it stopped, and one without it. -/
def baring : Session where
  pool :=
    { slots := #[
        ⟨0, 1, .blank⟩,
        ⟨0, 1, ⟨{ NodeInfo.ofSymbol .error .ofRule with lookahead := some '\n' }, [⟨0, 0⟩]⟩⟩,
        ⟨0, 1, ⟨{ NodeInfo.ofSymbol .error .ofRule with
          fragileLeft := true, fragileRight := true, lookahead := some '\n' }, []⟩⟩]
      free := [], journal := #[], sizing := .standard }
  held := {⟨2, 0⟩, ⟨1, 0⟩}

theorem reached_baring : Reached KeepsShown baring := by
  have token : Reached KeepsShown _ := .step .acquire (.start .standard) trivial rfl
  have node := token.step (.makeNode .empty .error [⟨0, 0⟩]) trivial rfl
  have stopped := node.step (.amend ⟨1, 0⟩ fun info => { info with lookahead := some '\n' })
    (fun _ _ => ⟨rfl, rfl, rfl⟩) rfl
  have bare := stopped.step (.makeError .empty .zero .zero (some '\n')) trivial rfl
  exact bare

/-- A hidden node cannot always give way to its children: the error over a hidden token is written by
its name, and once it is left without children by the character at which it stopped. -/
theorem sexpr_differs_of_baring : Reached KeepsShown baring ∧ ∃ tree tree',
    baring.pool.Shows ⟨1, 0⟩ tree ∧ baring.pool.Shows ⟨2, 0⟩ tree' ∧ tree.Splices tree' ∧
      (baring.pool.sexpr .empty ⟨1, 0⟩).toOption = some "(ERROR)" ∧
      (baring.pool.sexpr .empty ⟨2, 0⟩).toOption = some "(UNEXPECTED '\\n')" := by
  have showsToken : baring.pool.Shows ⟨0, 0⟩ (.node none .blank []) :=
    Pool.shows_iff.mpr ⟨nofun, _, rfl, .nil⟩
  have showsTree : baring.pool.Shows ⟨1, 0⟩ (.node none _ ([] ++ .node none .blank [] :: [])) :=
    Pool.shows_iff.mpr ⟨nofun, _, rfl, .cons showsToken .nil⟩
  have showsTree' : baring.pool.Shows ⟨2, 0⟩ (.node none _ ([] ++ [] ++ [])) :=
    Pool.shows_iff.mpr ⟨nofun, _, rfl, .nil⟩
  refine ⟨reached_baring, _, _, showsTree, showsTree', .here rfl rfl, ?_, ?_⟩
  all_goals
    rw [Pool.sexpr, Pool.walk_eq_forM]
    decide +kernel

end Session

end SyntaxForest
