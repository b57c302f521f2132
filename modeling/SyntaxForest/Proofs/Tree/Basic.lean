import Mathlib.Data.List.Forall2
import Mathlib.Order.Basic
import SyntaxForest.Node.Basic
import SyntaxForest.Symbol.Table

/-! # Trees by themselves

A tree apart from any pool: what each node is, and the trees below it in order. A node may carry
the handle it is known by; where it carries none, any handle will do.
-/

namespace List.Forall₂

variable {α β : Type*} {R S : α → β → Prop} {left : List α} {right : List β}

theorem imp_of_mem (related : Forall₂ R left right)
    (implies : ∀ a ∈ left, ∀ b ∈ right, R a b → S a b) : Forall₂ S left right := by
  induction related with
  | nil => exact .nil
  | cons first _ ih =>
    refine .cons (implies _ mem_cons_self _ mem_cons_self first) (ih ?_)
    exact fun a memberA b memberB =>
      implies a (mem_cons_of_mem _ memberA) b (mem_cons_of_mem _ memberB)

theorem exists_of_mem (related : Forall₂ R left right) {a : α} (member : a ∈ left) :
    ∃ b ∈ right, R a b := by
  induction related with
  | nil => cases member
  | cons first _ ih =>
    rcases mem_cons.mp member with rfl | member
    · exact ⟨_, mem_cons_self, first⟩
    · obtain ⟨b, memberB, holds⟩ := ih member
      exact ⟨b, mem_cons_of_mem _ memberB, holds⟩

theorem exists_of_forall (each : ∀ a ∈ left, ∃ b, R a b) : ∃ right, Forall₂ R left right := by
  induction left with
  | nil => exact ⟨[], .nil⟩
  | cons a rest ih =>
    obtain ⟨b, holds⟩ := each a mem_cons_self
    obtain ⟨right, related⟩ := ih fun a member => each a (mem_cons_of_mem _ member)
    exact ⟨b :: right, .cons holds related⟩

theorem getElem? (related : Forall₂ R left right) {i : Nat} {a : α} (found : left[i]? = some a) :
    ∃ b, right[i]? = some b ∧ R a b := by
  induction related generalizing i with
  | nil => cases found
  | cons first _ ih =>
    cases i with
    | zero =>
      cases found
      exact ⟨_, rfl, first⟩
    | succ i => exact ih found

end List.Forall₂

namespace SyntaxForest

/-- The lengths of a node over children with these lengths. -/
def Lengths.over? : List Lengths → Option Lengths
  | [] => some .zero
  | first :: rest => do
    let summary ← Summary.ofFirst? first
    let summary ← rest.foldlM Summary.extend? summary
    return summary.finish

/-- What a node of a symbol is over children like these. -/
def NodeInfo.over? (table : SymbolTable) (symbol : Symbol) (children : List NodeInfo) :
    Option NodeInfo := do
  let shown ← children.foldlM ShownCounts.count? ⟨0, 0⟩
  (Lengths.over? (children.map (·.lengths))).map fun lengths =>
    { ofSymbol symbol (table.traits symbol) with
      lengths, shown
      fragileLeft := fragileAtLeft children
      fragileRight := fragileAtRight children }

inductive Tree where
  | node (handle : Option NodeId) (info : NodeInfo) (children : List Tree)

namespace Tree

instance : Inhabited Tree := ⟨.node none .blank []⟩

def info : Tree → NodeInfo
  | node _ info _ => info

def children : Tree → List Tree
  | node _ _ children => children

def lengths (tree : Tree) : Lengths := tree.info.lengths

/-- What holds of a node when it holds of every tree below it holds of every tree. -/
@[elab_as_elim, induction_eliminator]
theorem induct {motive : Tree → Prop}
    (node : ∀ handle info children, (∀ child ∈ children, motive child) →
      motive (.node handle info children)) : ∀ tree, motive tree
  | .node handle info children => node handle info children fun child _ => induct node child

/-- The same for a tree whose node need not be taken apart. -/
@[elab_as_elim]
theorem induct_below {motive : Tree → Prop}
    (step : ∀ tree, (∀ child ∈ tree.children, motive child) → motive tree) (tree : Tree) :
    motive tree := by
  induction tree with
  | node handle info children ih => exact step _ ih

mutual

/-- The number of nodes on the longest way down. -/
def height : Tree → Nat
  | node _ _ children => heightAll children + 1

def heightAll : List Tree → Nat
  | [] => 0
  | tree :: trees => max tree.height (heightAll trees)

end

/-- Every node of the tree tells the handle that it is known by. -/
inductive Named : Tree → Prop where
  | node {id : NodeId} {info : NodeInfo} {children : List Tree}
    (below : ∀ child ∈ children, Named child) : Named (node (some id) info children)

mutual

/-- The tree without its handles. -/
def plain : Tree → Tree
  | node _ info children => node none info (plainAll children)

def plainAll : List Tree → List Tree
  | [] => []
  | tree :: trees => tree.plain :: plainAll trees

end

@[simp] theorem height_plain (tree : Tree) : tree.plain.height = tree.height := by
  induction tree with
  | node handle info children ih =>
    rw [plain, height, height]
    congr 1
    induction children with
    | nil => rfl
    | cons tree trees ihAll =>
      rw [plainAll, heightAll, heightAll, ih tree List.mem_cons_self,
        ihAll fun tree member => ih tree (List.mem_cons_of_mem _ member)]

theorem height_le_heightAll {tree : Tree} {trees : List Tree} (member : tree ∈ trees) :
    tree.height ≤ heightAll trees := by
  induction trees with
  | nil => cases member
  | cons first rest ih =>
    rw [heightAll]
    rcases List.mem_cons.mp member with rfl | member
    · exact Nat.le_max_left ..
    · exact Nat.le_trans (ih member) (Nat.le_max_right ..)

theorem heightAll_le {trees : List Tree} {bound : Nat} (each : ∀ tree ∈ trees, tree.height ≤ bound) :
    heightAll trees ≤ bound := by
  induction trees with
  | nil => exact Nat.zero_le _
  | cons first rest ih =>
    rw [heightAll]
    exact Nat.max_le.mpr ⟨each first List.mem_cons_self, ih fun tree member =>
      each tree (List.mem_cons_of_mem _ member)⟩

theorem height_lt_of_mem {handle : Option NodeId} {info : NodeInfo} {children : List Tree}
    {child : Tree} (member : child ∈ children) :
    child.height < (node handle info children).height := by
  rw [height]
  exact Nat.lt_succ_of_le (height_le_heightAll member)

/-- A depth that is enough for a tree leaves enough for the trees below it. -/
theorem exists_depth_below {handle : Option NodeId} {info : NodeInfo} {children : List Tree}
    {depth : Nat} (deep : (node handle info children).height ≤ depth) :
    ∃ less, depth = less + 1 ∧ ∀ child ∈ children, child.height ≤ less := by
  cases depth with
  | zero => cases deep
  | succ less => exact ⟨less, rfl, fun child member =>
      Nat.le_of_lt_succ (Nat.lt_of_lt_of_le (height_lt_of_mem member) deep)⟩

/-- The same for a tree whose node need not be taken apart. -/
theorem exists_depth_children {tree : Tree} {depth : Nat} (deep : tree.height ≤ depth) :
    ∃ less, depth = less + 1 ∧ ∀ child ∈ tree.children, child.height ≤ less := by
  obtain ⟨handle, info, children⟩ := tree
  exact exists_depth_below deep

end Tree

end SyntaxForest
