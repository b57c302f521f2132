import SyntaxForest.Proofs.Text.Measure
import SyntaxForest.Proofs.Tree.Asked

/-! # Trees of texts

A tree spells a text when its leaves measure the pieces that the text is cut into, each in its
padding and in its content, and its inner nodes have the lengths that their children give them. An
edit that is told in spans of the text gives a leaf the lengths of its new text.
-/

namespace List.Forall₂

variable {α β : Type*} {R : α → β → Prop} {left : List α} {right : List β}

theorem of_getElem? (length_eq : left.length = right.length)
    (each : ∀ (i : Nat) a b, left[i]? = some a → right[i]? = some b → R a b) :
    Forall₂ R left right := by
  induction left generalizing right with
  | nil =>
    obtain rfl := length_eq_zero_iff.mp length_eq.symm
    exact .nil
  | cons a left ih =>
    obtain ⟨b, right, rfl⟩ := exists_cons_of_length_eq_add_one length_eq.symm
    refine .cons (each 0 a b rfl rfl) (ih (Nat.succ.inj length_eq) fun i a b foundA foundB => ?_)
    exact each (i + 1) a b foundA foundB

theorem append_left {front back : List α} (related : Forall₂ R (front ++ back) right) :
    ∃ first last, Forall₂ R front first ∧ Forall₂ R back last ∧ first ++ last = right :=
  ⟨_, _, (forall₂_take_append right front back related.flip).flip,
    (forall₂_drop_append right front back related.flip).flip, take_append_drop ..⟩

end List.Forall₂

namespace SyntaxForest

namespace Lengths

/-- The text falls into the padding and the content that the lengths tell. -/
def Measures (lengths : Lengths) (text : Text) : Prop :=
  ∃ padding content, padding ++ content = text ∧ lengths.padding.Measures padding ∧
    lengths.size.Measures content

/-- The lengths are those of a node over these children, if any, as far as its own text goes. -/
def LaidOver (lengths : Lengths) (children : List Lengths) : Prop :=
  ∀ first rest, children = first :: rest → lengths.padding = first.padding ∧
    rest.foldlM appendTo? first.size = some lengths.size

variable {lengths first : Lengths} {rest : List Lengths} {text : Text} {texts : List Text}

namespace Measures

theorem bytes_eq (measures : lengths.Measures text) : lengths.bytes = text.length := by
  obtain ⟨padding, content, rfl, paddingFits, contentFits⟩ := measures
  rw [bytes, paddingFits.bytes, contentFits.bytes, List.length_append]

theorem total (measures : lengths.Measures text) {total : Span}
    (fits : lengths.total? = some total) : total.Measures text := by
  obtain ⟨padding, content, rfl, paddingFits, contentFits⟩ := measures
  exact paddingFits.add contentFits fits

theorem exists_total? (measures : lengths.Measures text) (fits : text.length < UInt32.size) :
    ∃ total, lengths.total? = some total ∧ total.Measures text := by
  obtain ⟨padding, content, rfl, paddingFits, contentFits⟩ := measures
  exact paddingFits.exists_add? contentFits fits

theorem foldlM_appendTo? (all : List.Forall₂ Lengths.Measures rest texts) {size last : Span}
    {content : Text} (measures : size.Measures content)
    (folded : rest.foldlM appendTo? size = some last) :
    last.Measures (content ++ texts.flatten) := by
  induction all generalizing size content with
  | nil =>
    cases folded
    simpa using measures
  | @cons child text rest texts child_measures _ ih =>
    rw [List.foldlM_cons] at folded
    obtain ⟨next, appended, folded⟩ := Option.bind_eq_some_iff.mp folded
    obtain ⟨total, fits, appended⟩ := Option.bind_eq_some_iff.mp appended
    have longer := ih (measures.add (child_measures.total fits) appended) folded
    rwa [List.append_assoc] at longer

/-- What is laid over texts measures them in a row. -/
theorem of_laidOver {children : List Lengths} (laid : lengths.LaidOver children)
    (inner : children ≠ []) (all : List.Forall₂ Lengths.Measures children texts) :
    lengths.Measures texts.flatten := by
  cases all with
  | nil => exact (inner rfl).elim
  | cons head rest =>
    obtain ⟨padding_eq, folded⟩ := laid _ _ rfl
    obtain ⟨padding, content, rfl, paddingFits, contentFits⟩ := head
    refine ⟨padding, _, ?_, padding_eq ▸ paddingFits, foldlM_appendTo? rest contentFits folded⟩
    rw [List.flatten_cons, List.append_assoc]

end Measures

end Lengths

namespace Tree

mutual

/-- The lengths of the leaves, in the order of the text. -/
def leaves : Tree → List Lengths
  | node _ info children => if children.isEmpty then [info.lengths] else leavesAll children

def leavesAll : List Tree → List Lengths
  | [] => []
  | tree :: trees => tree.leaves ++ leavesAll trees

end

/-- Every inner node has the lengths that its children give it, as far as its own text goes. -/
inductive Laid : Tree → Prop where
  | node {handle : Option NodeId} {info : NodeInfo} {children : List Tree}
    (here : info.lengths.LaidOver (children.map lengths))
    (below : ∀ child ∈ children, Laid child) : Laid (node handle info children)

/-- The leaves measure the pieces of the text, and inner nodes are laid over them. -/
def Spells (tree : Tree) (text : Text) : Prop :=
  tree.Laid ∧ ∃ pieces, List.Forall₂ Lengths.Measures tree.leaves pieces ∧ pieces.flatten = text

variable {handle : Option NodeId} {info : NodeInfo} {children trees : List Tree} {text : Text}
  {texts : List Text}

theorem spells_leaf_iff : (node handle info []).Spells text ↔ info.lengths.Measures text := by
  constructor
  · rintro ⟨_, pieces, all, rfl⟩
    obtain ⟨piece, rest, measures, none, rfl⟩ := List.forall₂_cons_left_iff.mp all
    obtain rfl := List.forall₂_nil_left_iff.mp none
    simpa using measures
  · intro measures
    exact ⟨.node nofun nofun, [text], .cons measures .nil, by simp⟩

/-- The leaves of trees in a row measure the pieces that the single trees are cut into. -/
theorem spellsAll_iff : ((∀ tree ∈ trees, tree.Laid) ∧ ∃ pieces,
    List.Forall₂ Lengths.Measures (leavesAll trees) pieces ∧ pieces.flatten = text) ↔
      ∃ texts, List.Forall₂ Spells trees texts ∧ texts.flatten = text := by
  induction trees generalizing text with
  | nil => simp [leavesAll]
  | cons tree trees ih =>
    rw [leavesAll, List.forall_mem_cons]
    constructor
    · rintro ⟨⟨laid, laidAll⟩, pieces, all, rfl⟩
      obtain ⟨first, later, here, there, rfl⟩ := all.append_left
      obtain ⟨texts, rest, same⟩ := ih.mp ⟨laidAll, later, there, rfl⟩
      refine ⟨first.flatten :: texts, .cons ⟨laid, first, here, rfl⟩ rest, ?_⟩
      rw [List.flatten_cons, same, List.flatten_append]
    · rintro ⟨texts, all, rfl⟩
      obtain ⟨text, texts, ⟨laid, pieces, here, rfl⟩, rest, rfl⟩ :=
        List.forall₂_cons_left_iff.mp all
      obtain ⟨laidAll, later, there, same⟩ := ih.mpr ⟨texts, rest, rfl⟩
      refine ⟨⟨laid, laidAll⟩, pieces ++ later, List.rel_append here there, ?_⟩
      rw [List.flatten_append, same, List.flatten_cons]

theorem spells_node_iff (inner : children ≠ []) : (node handle info children).Spells text ↔
    info.lengths.LaidOver (children.map lengths) ∧
      ∃ texts, List.Forall₂ Spells children texts ∧ texts.flatten = text := by
  rw [Spells, leaves, List.isEmpty_eq_false_iff.mpr inner, if_neg Bool.false_ne_true,
    ← spellsAll_iff, ← and_assoc]
  refine and_congr_left fun _ => ⟨?_, fun ⟨here, below⟩ => .node here below⟩
  rintro ⟨here, below⟩
  exact ⟨here, below⟩

theorem Spells.lengths_measures {tree : Tree} (spells : tree.Spells text) :
    tree.lengths.Measures text := by
  induction tree generalizing text with
  | node handle info children ih =>
    by_cases leaf : children = []
    · subst leaf
      exact spells_leaf_iff.mp spells
    · obtain ⟨laid, texts, all, rfl⟩ := (spells_node_iff leaf).mp spells
      refine .of_laidOver laid (mt List.map_eq_nil_iff.mp leaf) (List.forall₂_map_left_iff.mpr ?_)
      exact all.imp_of_mem fun child member text _ spells => ih child member spells

theorem Spells.lengths_measures_all (all : List.Forall₂ Spells trees texts) :
    List.Forall₂ Lengths.Measures (trees.map lengths) texts :=
  List.forall₂_map_left_iff.mpr (all.imp fun _ _ => Spells.lengths_measures)

end Tree

namespace TextEdit

/-- The edit, told in spans of the texts before, in and after the replaced stretch, makes the second
text of the first. -/
def Rewrites (edit : TextEdit) (text text' : Text) : Prop :=
  ∃ before removed added after, text = before ++ removed ++ after ∧
    text' = before ++ added ++ after ∧ edit.start.Measures before ∧ edit.removed.Measures removed ∧
      edit.added.Measures added

end TextEdit

/-- A text that is cut twice is cut into three. -/
theorem Text.exists_between {a b c d : Text} (same : a ++ b = c ++ d) (le : a.length ≤ c.length) :
    ∃ m, c = a ++ m ∧ b = m ++ d := by
  obtain ⟨m, rfl, rfl⟩ | ⟨m, rfl, rfl⟩ := List.append_eq_append_iff.mp same
  · exact ⟨m, rfl, rfl⟩
  · rw [List.length_append] at le
    obtain rfl : m = [] := List.length_eq_zero_iff.mp (by omega)
    exact ⟨[], by simp, rfl⟩

namespace TextEdit

variable {edit : TextEdit} {padding size : Span} {p s text text' : Text}

/-- The lengths of a leaf come out as those of its new text. -/
theorem Rewrites.resize? (rewrites : edit.Rewrites (p ++ s) text')
    (paddingFits : padding.Measures p) (contentFits : size.Measures s)
    (fits : (p ++ s).length < UInt32.size)
    (fits' : text'.length < UInt32.size) :
    ∃ padding' size', edit.resize? padding size = some (padding', size') ∧
      ∃ p' s', p' ++ s' = text' ∧ padding'.Measures p' ∧ size'.Measures s' := by
  obtain ⟨before, removed, added, after, same, rfl, start, removes, adds⟩ := rewrites
  have fitsBefore := same ▸ fits
  simp only [List.length_append] at fitsBefore fits'
  obtain ⟨oldEnd, oldEndSum, oldEndFits⟩ := start.exists_add? removes
    (by rw [List.length_append]; omega)
  obtain ⟨newEnd, newEndSum, newEndFits⟩ := start.exists_add? adds
    (by rw [List.length_append]; omega)
  unfold TextEdit.resize?
  simp only [oldEnd?, newEnd?, oldEndSum, newEndSum, Option.bind_eq_bind, Option.bind_some,
    Option.pure_def]
  have startBytes := start.bytes
  have paddingBytes := paddingFits.bytes
  have removedBytes := removes.bytes
  have oldEndBytes := oldEndFits.bytes
  rw [List.length_append] at oldEndBytes
  by_cases early : edit.start.bytes < padding.bytes
  · rw [if_pos early]
    have lt := UInt32.lt_iff_toNat_lt.mp early
    by_cases within : oldEnd.bytes ≤ padding.bytes
    -- The replaced stretch lies in the padding.
    · have le := UInt32.le_iff_toNat_le.mp within
      obtain ⟨rest, rfl, rfl⟩ := Text.exists_between same.symm
        (by rw [List.length_append]; omega)
      have trailing := paddingFits.sub oldEndFits
      rw [List.length_append] at fits'
      obtain ⟨padding', sum, padding'Fits⟩ := newEndFits.exists_add? trailing
        (by simp only [List.length_append]; omega)
      rw [if_pos within, sum]
      exact ⟨padding', size, rfl, _, _, by simp, padding'Fits, contentFits⟩
    -- The replaced stretch reaches into the content.
    · have lt' := UInt32.lt_iff_toNat_lt.mp (UInt32.not_le.mp within)
      obtain ⟨eaten, reaches, rfl⟩ := Text.exists_between same
        (by rw [List.length_append]; omega)
      rw [if_neg within]
      have removedContent := Span.Measures.sub (reaches ▸ oldEndFits) paddingFits
      exact ⟨newEnd, _, rfl, _, _, rfl, newEndFits, contentFits.sub removedContent⟩
  · rw [if_neg early]
    have le := UInt32.le_iff_toNat_le.mp (UInt32.not_lt.mp early)
    by_cases border : edit.start.bytes = padding.bytes ∧ edit.removed.bytes = 0
    -- Text is put in between padding and content.
    · have startsThere := congrArg UInt32.toNat border.1
      have removesNone := congrArg UInt32.toNat border.2
      obtain rfl : removed = [] := List.length_eq_zero_iff.mp (removedBytes.symm.trans removesNone)
      rw [List.append_nil] at same
      obtain ⟨rfl, rfl⟩ := List.append_inj same (by omega)
      obtain ⟨padding', sum, padding'Fits⟩ := paddingFits.exists_add? adds
        (by rw [List.length_append]; omega)
      rw [if_pos border, sum]
      exact ⟨padding', size, rfl, _, _, rfl, padding'Fits, contentFits⟩
    -- The replaced stretch lies in the content.
    · obtain ⟨kept, rfl, rfl⟩ := Text.exists_between (same.trans (List.append_assoc ..)) (by omega)
      obtain ⟨total, totalSum, totalFits⟩ := paddingFits.exists_add? contentFits fits
      have trailing := Span.Measures.sub (same ▸ totalFits) oldEndFits
      obtain ⟨whole, wholeSum, wholeFits⟩ := newEndFits.exists_add? trailing
        (by simpa only [List.length_append] using fits')
      rw [if_neg border, totalSum, Option.bind_some, wholeSum]
      simp only [List.append_assoc] at wholeFits
      exact ⟨padding, _, rfl, p, _, by simp only [List.append_assoc], paddingFits,
        wholeFits.sub paddingFits⟩

end TextEdit

end SyntaxForest
