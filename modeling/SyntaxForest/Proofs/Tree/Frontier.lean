import SyntaxForest.Proofs.Tree.Basic
import SyntaxForest.Sexpr

/-! # What is shown of a tree

The frontier of a tree is what it shows first: the visible trees below its root that are reached
through hidden ones only. A tree is written as its label and then its frontier, whatever hidden trees
there are on the way, so a hidden tree may be replaced by its children. Only a node that is left
without any by that may have another label, if it is an error and knows at which character it stopped.
-/

namespace SyntaxForest

/-- What the text of a node depends on. -/
def NodeInfo.said (info : NodeInfo) : Symbol × Bool × Option Char :=
  (info.symbol, info.visible, info.lookahead)

section Label

variable {table : SymbolTable} {info info' : NodeInfo} {c : Char} {isLeaf : Bool}

theorem NodeInfo.said_eq_iff : info.said = info'.said ↔ info.symbol = info'.symbol ∧
    info.visible = info'.visible ∧ info.lookahead = info'.lookahead := by
  simp only [said, Prod.mk.injEq]

theorem SymbolTable.label_of_said (same : info.said = info'.said) :
    table.label info isLeaf = table.label info' isLeaf := by
  obtain ⟨symbol, _, lookahead⟩ := NodeInfo.said_eq_iff.mp same
  rw [label, label, NodeInfo.isError, NodeInfo.isError, symbol, lookahead]

/-- The label of an error leaf that knows at which character it stopped. -/
theorem SymbolTable.label_unexpected (isError : info.symbol = .error)
    (stopped : info.lookahead = some c) : table.label info true = "UNEXPECTED " ++ Text.quote c := by
  have error : info.isError = true := by rw [NodeInfo.isError, isError]; rfl
  simp only [label, stopped, error, Bool.and_self]

/-- Every other label is the name of the symbol, or its number where it has none. -/
theorem SymbolTable.label_ordinary
    (ordinary : ¬ (info.symbol = .error ∧ isLeaf = true ∧ info.lookahead.isSome = true)) :
    table.label info isLeaf = (table.name? info.symbol).getD ("#" ++ toString info.symbol.index) := by
  rw [label]
  split
  case h_1 c stopped isErrorLeaf =>
    obtain ⟨isError, isLeaf⟩ := Bool.and_eq_true_iff.mp isErrorLeaf
    exact (ordinary ⟨of_decide_eq_true isError, isLeaf, by rw [stopped]; rfl⟩).elim
  case h_2 => rfl

end Label

namespace Tree

variable {table : SymbolTable} {tree tree' shown : Tree} {trees trees' before after : List Tree}
  {handle handle' : Option NodeId} {info info' : NodeInfo} {isRoot : Bool}

mutual

/-- The visible trees below the root that are reached through hidden ones only, in order. -/
def frontier : Tree → List Tree
  | node _ _ children => frontierAll children

def frontierAll : List Tree → List Tree
  | [] => []
  | tree :: trees => (if tree.info.visible then [tree] else tree.frontier) ++ frontierAll trees

end

@[simp] theorem info_node (handle : Option NodeId) (info : NodeInfo) (children : List Tree) :
    (node handle info children).info = info := rfl

@[simp] theorem children_node (handle : Option NodeId) (info : NodeInfo) (children : List Tree) :
    (node handle info children).children = children := rfl

theorem frontier_eq (tree : Tree) : tree.frontier = frontierAll tree.children := by
  obtain ⟨handle, info, children⟩ := tree
  rfl

theorem frontierAll_append (trees trees' : List Tree) :
    frontierAll (trees ++ trees') = frontierAll trees ++ frontierAll trees' := by
  induction trees with
  | nil => rw [frontierAll, List.nil_append, List.nil_append]
  | cons tree trees ih => rw [List.cons_append, frontierAll, frontierAll, ih, List.append_assoc]

theorem mem_frontierAll (member : shown ∈ frontierAll trees) : ∃ tree ∈ trees,
    shown ∈ if tree.info.visible then [tree] else tree.frontier := by
  induction trees with
  | nil => cases member
  | cons tree trees ih =>
    rw [frontierAll] at member
    rcases List.mem_append.mp member with here | later
    · exact ⟨tree, List.mem_cons_self, here⟩
    · obtain ⟨tree', place, here⟩ := ih later
      exact ⟨tree', List.mem_cons_of_mem tree place, here⟩

theorem height_lt_of_mem_frontier (member : shown ∈ tree.frontier) : shown.height < tree.height := by
  induction tree with
  | node handle info children ih =>
    rw [frontier] at member
    obtain ⟨tree, place, here⟩ := mem_frontierAll member
    have below : tree.height < (node handle info children).height := height_lt_of_mem place
    split at here
    · rwa [List.mem_singleton.mp here]
    · exact Nat.lt_trans (ih tree place here) below

/-- A tree as it is written: its label, and after a space each what it shows. -/
def render (table : SymbolTable) (tree : Tree) : String :=
  "(" ++ table.label tree.info tree.children.isEmpty
    ++ String.join (tree.frontier.attach.map fun shown => " " ++ render table shown.1) ++ ")"
termination_by tree.height
decreasing_by exact height_lt_of_mem_frontier shown.2

/-- What trees add to the text of their parent. -/
def written (table : SymbolTable) (trees : List Tree) : String :=
  String.join ((frontierAll trees).map fun shown => " " ++ shown.render table)

/-- The text of a tree itself, or what its children add to the parent of a hidden one. -/
def told (table : SymbolTable) (isRoot : Bool) (tree : Tree) : String :=
  if isRoot || tree.info.visible then tree.render table else written table tree.children

theorem render_eq (table : SymbolTable) (tree : Tree) : tree.render table =
    "(" ++ table.label tree.info tree.children.isEmpty ++ written table tree.children ++ ")" := by
  rw [render, List.attach_map_val (f := fun shown : Tree => " " ++ shown.render table), frontier_eq]
  rfl

theorem written_append (table : SymbolTable) (trees trees' : List Tree) :
    written table (trees ++ trees') = written table trees ++ written table trees' := by
  rw [written, frontierAll_append, List.map_append, String.join_append]
  rfl

theorem written_cons (table : SymbolTable) (tree : Tree) (trees : List Tree) :
    written table (tree :: trees) =
      (if tree.info.visible then " " else "") ++ tree.told table false ++ written table trees := by
  rw [written, frontierAll, List.map_append, String.join_append, told, Bool.false_or]
  split
  · rw [List.map_singleton, String.join_cons, String.join_nil, String.append_empty]
    rfl
  · rw [String.empty_append, frontier_eq]
    rfl

/-! ## Hidden trees that give way to their children -/

/-- The second tree is the first with a hidden tree below its root replaced by the children of that
tree. On the way there nodes say what they said. -/
inductive Splices : Tree → Tree → Prop where
  | here {handle handle' : Option NodeId} {info info' : NodeInfo} {before after : List Tree}
    {hidden : Tree} (said : info.said = info'.said) (isHidden : hidden.info.visible = false) :
    Splices (node handle info (before ++ hidden :: after))
      (node handle' info' (before ++ hidden.children ++ after))
  | within {handle handle' : Option NodeId} {info info' : NodeInfo} {before after : List Tree}
    {child child' : Tree} (said : info.said = info'.said) (deeper : Splices child child') :
    Splices (node handle info (before ++ child :: after))
      (node handle' info' (before ++ child' :: after))

/-- The second tree is the first without a hidden leaf that was the only child of an error, and this
error is shown, being visible or the root of all, and knows at which character it stopped. -/
inductive Bares : Bool → Tree → Tree → Prop where
  | here {isRoot : Bool} {handle handle' : Option NodeId} {info info' : NodeInfo} {hidden : Tree}
    (isShown : (isRoot || info.visible) = true) (isError : info.symbol = .error)
    (stopped : info.lookahead.isSome = true) (said : info.said = info'.said)
    (isHidden : hidden.info.visible = false) (childless : hidden.children = []) :
    Bares isRoot (node handle info [hidden]) (node handle' info' [])
  | within {isRoot : Bool} {handle handle' : Option NodeId} {info info' : NodeInfo}
    {before after : List Tree} {child child' : Tree} (said : info.said = info'.said)
    (deeper : Bares false child child') :
    Bares isRoot (node handle info (before ++ child :: after))
      (node handle' info' (before ++ child' :: after))

theorem Splices.visible_eq (splices : tree.Splices tree') :
    tree.info.visible = tree'.info.visible := by
  cases splices with
  | here said => exact (NodeInfo.said_eq_iff.mp said).2.1
  | within said => exact (NodeInfo.said_eq_iff.mp said).2.1

theorem Bares.visible_eq (bares : Bares isRoot tree tree') :
    tree.info.visible = tree'.info.visible := by
  cases bares with
  | here _ _ _ said => exact (NodeInfo.said_eq_iff.mp said).2.1
  | within said => exact (NodeInfo.said_eq_iff.mp said).2.1

theorem told_of_shown (isShown : (isRoot || tree.info.visible) = true) :
    tree.told table isRoot =
      "(" ++ table.label tree.info tree.children.isEmpty ++ written table tree.children ++ ")" := by
  rw [told, if_pos isShown, render_eq]

theorem told_of_hidden (isHidden : (isRoot || tree.info.visible) = false) :
    tree.told table isRoot = written table tree.children := by
  rw [told, isHidden, if_neg Bool.false_ne_true]

theorem told_false_of_hidden (isHidden : tree.info.visible = false) :
    tree.told table false = written table tree.children :=
  told_of_hidden ((Bool.false_or _).trans isHidden)

theorem told_true (table : SymbolTable) (tree : Tree) :
    tree.told table true = tree.render table := rfl

@[simp] theorem written_nil (table : SymbolTable) : written table [] = "" := rfl

theorem written_within (table : SymbolTable) (before after : List Tree) (tree : Tree) :
    written table (before ++ tree :: after) = written table before ++
      ((if tree.info.visible then " " else "") ++ tree.told table false ++ written table after) := by
  rw [written_append, written_cons]

/-- The text of a node changes only with its label, where that is seen, and with what its children
add. -/
theorem told_congr (said : tree.info.said = tree'.info.said)
    (label : (isRoot || tree.info.visible) = true →
      table.label tree.info tree.children.isEmpty = table.label tree.info tree'.children.isEmpty)
    (same : written table tree.children = written table tree'.children) :
    tree.told table isRoot = tree'.told table isRoot := by
  have visible := (NodeInfo.said_eq_iff.mp said).2.1
  cases isShown : isRoot || tree.info.visible with
  | true =>
    rw [told_of_shown isShown, told_of_shown (visible ▸ isShown), label isShown,
      SymbolTable.label_of_said said, same]
  | false => rw [told_of_hidden isShown, told_of_hidden (visible ▸ isShown), same]

theorem isEmpty_within (before after : List Tree) (tree : Tree) :
    (before ++ tree :: after).isEmpty = false :=
  List.isEmpty_eq_false_iff.mpr
    (List.append_ne_nil_of_right_ne_nil before (List.cons_ne_nil tree after))

/-- A hidden tree may give way to its children unless an error is left bare. -/
theorem Splices.told_eq (splices : tree.Splices tree') (keeps : ¬ Bares isRoot tree tree') :
    tree.told table isRoot = tree'.told table isRoot := by
  induction splices generalizing isRoot with
  | @here handle handle' info info' before after hidden said isHidden =>
    refine told_congr said (fun isShown => ?_) ?_
    · have ordinary : ¬ (info.symbol = .error ∧ (before ++ hidden.children ++ after).isEmpty = true ∧
          info.lookahead.isSome = true) := by
        rintro ⟨isError, empty, stopped⟩
        rw [List.isEmpty_iff, List.append_eq_nil_iff, List.append_eq_nil_iff] at empty
        obtain ⟨⟨rfl, childless⟩, rfl⟩ := empty
        rw [childless] at keeps
        exact keeps (.here isShown isError stopped said isHidden childless)
      exact (SymbolTable.label_ordinary (by simp)).trans (SymbolTable.label_ordinary ordinary).symm
    · rw [children_node, children_node, written_within, written_append, written_append, isHidden,
        told_false_of_hidden isHidden, if_neg Bool.false_ne_true, String.empty_append,
        String.append_assoc]
  | @within handle handle' info info' before after child child' said deeper ih =>
    refine told_congr said (fun _ => ?_) ?_
    · rw [children_node, children_node, isEmpty_within, isEmpty_within]
    · rw [children_node, children_node, written_within, written_within, deeper.visible_eq,
        ih fun bares => keeps (.within said bares)]

/-- An error that is left bare has a longer label than it had. -/
theorem Bares.length_lt (bares : Bares isRoot tree tree') :
    (tree.told table isRoot).length < (tree'.told table isRoot).length := by
  induction bares with
  | @here isRoot handle handle' info info' hidden isShown isError stopped said isHidden childless =>
    obtain ⟨symbol, visible, lookahead⟩ := NodeInfo.said_eq_iff.mp said
    obtain ⟨c, stopped⟩ := Option.isSome_iff_exists.mp stopped
    have label : table.label info false = "ERROR" := by
      rw [SymbolTable.label_ordinary (by simp), isError]
      rfl
    have label' : table.label info' true = "UNEXPECTED " ++ Text.quote c :=
      SymbolTable.label_unexpected (symbol.symm.trans isError) (lookahead.symm.trans stopped)
    have silent : written table [hidden] = "" := by
      rw [written_cons, isHidden, told_false_of_hidden isHidden, childless]
      rfl
    have short : "ERROR".length = 5 := rfl
    have long : "UNEXPECTED ".length = 11 := rfl
    rw [told_of_shown isShown, told_of_shown (visible ▸ isShown)]
    simp only [info_node, children_node, List.isEmpty_cons, List.isEmpty_nil, label, label', silent,
      written_nil, String.length_append]
    omega
  | @within isRoot handle handle' info info' before after child child' said deeper ih =>
    have visible := (NodeInfo.said_eq_iff.mp said).2.1
    have longer : (written table (before ++ child :: after)).length <
        (written table (before ++ child' :: after)).length := by
      rw [written_within, written_within, deeper.visible_eq]
      simp only [String.length_append]
      omega
    cases isShown : isRoot || info.visible with
    | true =>
      rw [told_of_shown isShown, told_of_shown (visible ▸ isShown)]
      simp only [info_node, children_node, isEmpty_within, String.length_append,
        SymbolTable.label_of_said said]
      omega
    | false =>
      rw [told_of_hidden isShown, told_of_hidden (visible ▸ isShown)]
      exact longer

/-- The text stays the same if and only if no error is left bare. -/
theorem Splices.render_eq_iff (splices : tree.Splices tree') :
    tree.render table = tree'.render table ↔ ¬ Bares true tree tree' := by
  rw [← told_true, ← told_true]
  constructor
  · exact fun same bares => Nat.ne_of_lt bares.length_lt (congrArg String.length same)
  · exact splices.told_eq

end Tree

end SyntaxForest
