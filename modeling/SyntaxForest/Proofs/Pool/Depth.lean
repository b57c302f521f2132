import SyntaxForest.Proofs.Pool.Unfold

/-! # How deep the trees of a pool are

A handle that shows a tree is not found again below itself, since trees are finite. So a way down
meets every slot at most once, and no tree has more levels than the pool has slots.
-/

namespace SyntaxForest.Pool

variable {pool : Pool} {id other child : NodeId} {tree tree' : Tree}

/-- What a handle shows is the same tree but for the handles that it tells. -/
theorem Shows.plain_eq (first : pool.Shows id tree) (second : pool.Shows id tree') :
    tree.plain = tree'.plain := by
  induction tree generalizing id tree' with
  | node handle info children ih =>
    obtain ⟨handle', info', children'⟩ := tree'
    obtain ⟨_, ids, found, below⟩ := shows_iff.mp first
    obtain ⟨_, ids', found', below'⟩ := shows_iff.mp second
    obtain ⟨rfl, rfl⟩ : info = info' ∧ ids = ids' := by
      simpa using Option.some.inj (found.symm.trans found')
    clear found found' first second
    have same : Tree.plainAll children = Tree.plainAll children' := by
      induction below generalizing children' with
      | nil => rw [List.forall₂_nil_left_iff.mp below']
      | @cons id tree ids trees shows _ ihAll =>
        obtain ⟨tree', trees', shows', rest', rfl⟩ := List.forall₂_cons_left_iff.mp below'
        rw [Tree.plainAll, Tree.plainAll, ih tree List.mem_cons_self shows shows',
          ihAll (fun tree member => ih tree (List.mem_cons_of_mem _ member)) trees' rest']
    rw [Tree.plain, Tree.plain, same]

theorem Shows.height_eq (first : pool.Shows id tree) (second : pool.Shows id tree') :
    tree.height = tree'.height := by
  rw [← tree.height_plain, first.plain_eq second, tree'.height_plain]

theorem Shows.of_child (shows : pool.Shows id tree) (below : pool.Child id child) :
    ∃ tree', pool.Shows child tree' ∧ tree'.height < tree.height := by
  obtain ⟨handle, info, children⟩ := tree
  obtain ⟨_, ids, found, all⟩ := shows_iff.mp shows
  obtain ⟨node, found', member⟩ := below
  obtain rfl : ⟨info, ids⟩ = node := Option.some.inj (found.symm.trans found')
  obtain ⟨tree', place, shows'⟩ := all.exists_of_mem member
  exact ⟨tree', shows', Tree.height_lt_of_mem place⟩

theorem Shows.of_reaches (shows : pool.Shows id tree) (reaches : pool.Reaches id other) :
    ∃ tree', pool.Shows other tree' ∧ tree'.height ≤ tree.height := by
  induction reaches with
  | refl => exact ⟨tree, shows, Nat.le_refl _⟩
  | tail _ last ih =>
    obtain ⟨tree', shows', le⟩ := ih
    obtain ⟨tree'', shows'', lt⟩ := shows'.of_child last
    exact ⟨tree'', shows'', Nat.le_of_lt (Nat.lt_of_lt_of_le lt le)⟩

/-- No handle is found below itself. -/
theorem Shows.not_reaches_of_child (shows : pool.Shows id tree) (below : pool.Child id child) :
    ¬ pool.Reaches child id := by
  intro reaches
  obtain ⟨tree', shows', lt⟩ := shows.of_child below
  obtain ⟨tree'', shows'', le⟩ := shows'.of_reaches reaches
  have same := shows.height_eq shows''
  omega

open Classical in
/-- Each level of a tree has a handle of its own. -/
theorem Shows.height_le_card (shows : pool.Shows id tree) :
    tree.height ≤ (pool.live.filter (pool.Reaches id)).card := by
  induction tree generalizing id with
  | node handle info children ih =>
    have inside : id ∈ pool.live.filter (pool.Reaches id) :=
      Finset.mem_filter.mpr ⟨mem_live.mpr shows.isLive, .refl⟩
    obtain ⟨_, ids, found, all⟩ := shows_iff.mp shows
    have deeper : ∀ tree ∈ children,
        tree.height ≤ ((pool.live.filter (pool.Reaches id)).erase id).card := by
      intro tree place
      obtain ⟨child, member, shows'⟩ := (List.Forall₂.flip all).exists_of_mem place
      refine Nat.le_trans (ih tree place shows') (Finset.card_le_card fun other reached => ?_)
      obtain ⟨live, reaches⟩ := Finset.mem_filter.mp reached
      have below := child_of_mem found member
      refine Finset.mem_erase.mpr ⟨?_, Finset.mem_filter.mpr ⟨live, .head below reaches⟩⟩
      rintro rfl
      exact shows.not_reaches_of_child below reaches
    rw [Tree.height, ← Finset.card_erase_add_one inside]
    exact Nat.succ_le_succ (Tree.heightAll_le deeper)

theorem Shows.height_le_liveCount (shows : pool.Shows id tree) (tidy : pool.Tidy) :
    tree.height ≤ pool.liveCount := by
  classical
  rw [tidy.liveCount_eq_card]
  exact Nat.le_trans shows.height_le_card (Finset.card_le_card (Finset.filter_subset ..))

end SyntaxForest.Pool
