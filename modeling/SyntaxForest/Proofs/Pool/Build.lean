import SyntaxForest.Proofs.Pool.Opened

/-! # Nodes that are built

A new node shows the tree that it was asked for, for one unit. Where it stands over children it has
taken over a unit of each; every other unit reaches what it reached before.
-/

namespace SyntaxForest.Pool

open PoolM

variable {pool : Pool} {units : Multiset NodeId} {ids : List NodeId} {trees : List Tree}

namespace Owned

theorem acquire_settled (owned : pool.Owned ∅ units) :
    Computes Pool.acquire pool (some ()) fun _ id after =>
      pool.Settled after ∅ units id (.node none .blank []) := by
  apply owned.acquiresOpen.mono
  rintro _ id after _ ⟨_, state, spares⟩
  exact spares.settled state.closes

theorem makeLeaf (owned : pool.Owned ∅ units) (table : SymbolTable) (symbol : Symbol)
    (padding size : Span) :
    Computes (Pool.makeLeaf table symbol padding size) pool (Lengths.token? padding size)
      fun lengths id after => ¬ pool.isLive id ∧ pool.Settled after ∅ units id
        (.node none { NodeInfo.ofSymbol symbol (table.traits symbol) with lengths } []) := by
  apply owned.acquiresOpen.seq
  rintro id middle ⟨fresh, state, spares⟩
  apply (computes_sum (Lengths.token? padding size)).bind_ok
  rintro _ lengths _ _ ⟨rfl, rfl⟩
  obtain ⟨after, ran, state', spares'⟩ := state.rewrite
    { NodeInfo.ofSymbol symbol (table.traits symbol) with lengths }
  rw [bind_of_ok ran]
  exact ⟨id, after, rfl, fresh, (spares.trans spares').settled state'.closes⟩

theorem makeError (owned : pool.Owned ∅ units) (table : SymbolTable) (padding size : Span)
    (lookahead : Option Char) :
    Computes (Pool.makeError table padding size lookahead) pool (Lengths.token? padding size)
      fun lengths id after => pool.Settled after ∅ units id
        (.node none { NodeInfo.ofSymbol .error (table.traits .error) with
          lengths, lookahead, fragileLeft := true, fragileRight := true } []) := by
  apply (owned.makeLeaf table .error padding size).bind_ok
  rintro lengths id middle _ ⟨fresh, settled⟩
  obtain ⟨_, ids, found, below⟩ := shows_iff.mp settled.shows
  obtain rfl := List.forall₂_nil_right_iff.mp below
  obtain ⟨after, ran, owned', written, others, _⟩ := settled.owned.amend
    (fun info => { info with fragileLeft := true, fragileRight := true, lookahead }) found
  rw [bind_of_ok ran]
  refine ⟨id, after, rfl, owned', shows_iff.mpr ⟨by simp, [], written, .nil⟩, ?_, nofun⟩
  intro unit held other reaches
  have live := (owned.of_reaches (owned.of_unit held) reaches).1
  rw [others other fun same => fresh (same ▸ live)]
  exact settled.spares.kept unit held other reaches

theorem makeNode (owned : pool.Owned ∅ (units + ids)) (table : SymbolTable) (symbol : Symbol)
    (inner : ids ≠ []) (below : List.Forall₂ pool.Shows ids trees) :
    Computes (Pool.makeNode table symbol ids) pool
      (NodeInfo.over? table symbol (trees.map Tree.info)) fun info id after =>
        pool.Settled after ∅ units id (.node none info trees) := by
  have inhabited : ids.isEmpty = false := List.isEmpty_eq_false_iff.mpr inner
  obtain ⟨nodes, read, infos⟩ := mapM_node_of_shows below
  rw [Pool.makeNode, inhabited, if_neg Bool.false_ne_true, NodeInfo.over?, List.map_map]
  dsimp only
  apply (computes_query (shownCounts_of_shows below)).bind
  rintro _ shown _ _ ⟨rfl, rfl⟩
  rw [computes_bind_of_ok (query_of_ok read), infos]
  apply owned.acquiresOpen.seq
  rintro id acquired ⟨_, blank, spares⟩
  have held := Multiset.le_add_right units (ids : Multiset NodeId)
  obtain ⟨adopted, ran, state, spares'⟩ := blank.adopt
    { NodeInfo.ofSymbol symbol (table.traits symbol) with
      fragileLeft := fragileAtLeft (trees.map Tree.info)
      fragileRight := fragileAtRight (trees.map Tree.info), shown }
    (spares.shows (Multiset.le_add_left ..) below)
  rw [computes_bind_of_ok ran]
  refine (state.summarize.bind_ok ?_).map
  rintro lengths _ after _ ⟨state', spares''⟩
  refine ⟨id, after, rfl, Spares.settled ?_ state'.closes⟩
  exact ((spares.of_le held).trans spares').trans spares''

end Owned

end SyntaxForest.Pool
