import SyntaxForest.Proofs.Traversal
import SyntaxForest.Proofs.Tree.Revise
import SyntaxForest.Proofs.Walks

/-! # What an edit cannot change

An edit changes where a tree is and never what it is: every place is found again, with a node of the
same kind in it. Whatever is told of a tree apart from its lengths and flags of change is the same
before the edit and after it.
-/

namespace SyntaxForest

theorem Tree.kind_of_revise? {tree edited : Tree} {edit : TextEdit}
    (revised : tree.revise? edit = some (.ok edited)) :
    edited.image NodeInfo.kind = tree.image NodeInfo.kind := by
  obtain ⟨_, ⟨_, rfl⟩ | ⟨_, carried⟩⟩ := revise?_ok revised
  · rfl
  · have answers : tree.answer? (some (.part edit)) = some edited := carried
    exact image_of_answer? (fun _ _ => rfl) (fun _ _ _ _ => rfl) answers

/-- What comes of the search for the last node of an outside scanner, with its path and without. -/
theorem Pool.exists_lastExternalAt? {pool : Pool} {id : NodeId} {last : Option NodeId}
    (searched : pool.lastExternal? id = .ok last) :
    ∃ found, pool.lastExternalAt? id = .ok found ∧
      pool.lastExternal? id = .ok (found.map Prod.snd) := by
  cases located : pool.lastExternalAt? id with
  | error stop =>
    rw [lastExternal?_eq, located] at searched
    cases searched
  | ok found => exact ⟨found, rfl, by rw [lastExternal?_eq, located]; rfl⟩

namespace Session

variable {allowed : Session → Call → Prop} {session : Session} {root edited : NodeId}
  {edit : TextEdit} {after : Pool}

/-- After an edit every place is found again, with a node that is the same but for its lengths and
its flag of change and has as many children, copied or not. The tree is written as before with every
table of symbols, and the last node of an outside scanner is found at the same path, if there is
one; the path leads to it. -/
theorem Reached.edit_keeps_kind (reached : Reached allowed session) (held : root ∈ session.held)
    (ran : Pool.edit root edit session.pool = .ok (.ok edited) after) :
    (∀ path, Option.Rel (fun spot spot' => session.pool.SameKind after spot.id spot'.id)
      (session.pool.spotAt? root path) (after.spotAt? edited path)) ∧
    (∀ table, ∃ text, session.pool.sexpr table root = .ok text ∧
      after.sexpr table edited = .ok text) ∧
    ∃ found found', session.pool.lastExternalAt? root = .ok found ∧
      session.pool.lastExternal? root = .ok (found.map Prod.snd) ∧
      after.lastExternalAt? edited = .ok found' ∧
      after.lastExternal? edited = .ok (found'.map Prod.snd) ∧
      found.map Prod.fst = found'.map Prod.fst ∧
      (∀ place ∈ found, (session.pool.spotAt? root place.1).map (·.id) = some place.2) ∧
      ∀ place ∈ found', (after.spotAt? edited place.1).map (·.id) = some place.2 := by
  have owned := reached.owned
  obtain ⟨tree, shows⟩ := owned.exists_shows held
  obtain ⟨tree', revised, settled⟩ := reached.revise?_of_edit held shows ran
  have alike : session.pool.Alike after root edited :=
    ⟨tree, tree', shows, settled.shows, (Tree.kind_of_revise? revised).symm⟩
  have ends := owned.endsBelow (owned.of_unit held).1
  have ends' := settled.owned.endsBelow settled.shows.isLive
  refine ⟨alike.spotAt?, fun table => ?_, ?_⟩
  · obtain ⟨text, wrote⟩ := ends.writes table
    obtain ⟨text', wrote'⟩ := ends'.writes table
    exact ⟨text, wrote, by rw [wrote', alike.sexpr_eq wrote wrote']⟩
  · obtain ⟨last, searched⟩ := ends.searches
    obtain ⟨last', searched'⟩ := ends'.searches
    obtain ⟨found, foundAt, isLast⟩ := Pool.exists_lastExternalAt? searched
    obtain ⟨found', foundAt', isLast'⟩ := Pool.exists_lastExternalAt? searched'
    exact ⟨found, found', foundAt, isLast, foundAt', isLast',
      alike.lastExternalAt?_eq foundAt foundAt', Pool.lastExternalAt?_locates foundAt,
      Pool.lastExternalAt?_locates foundAt'⟩

/-- A token that an outside scanner produced, twice below a node and once more in the hands of the
caller. -/
def scanned : Session where
  pool :=
    { slots := #[⟨0, 3, ⟨{ NodeInfo.blank with
          lengths := ⟨.zero, ⟨3, ⟨0, 3⟩⟩, 3⟩, external := true }, []⟩⟩,
        ⟨0, 1, ⟨{ NodeInfo.blank with lengths := ⟨.zero, ⟨6, ⟨0, 6⟩⟩, 6⟩ }, [⟨0, 0⟩, ⟨0, 0⟩]⟩⟩]
      free := [], journal := #[], sizing := .standard }
  held := {⟨1, 0⟩, ⟨0, 0⟩}

theorem reached_scanned : Reached (fun _ _ => True) scanned := by
  have token : Reached (fun _ _ => True) _ := .step
    (.makeLeaf .empty .endOfInput .zero ⟨3, ⟨0, 3⟩⟩) (.start .standard) trivial rfl
  have written := token.step (.amend ⟨0, 0⟩ fun info => { info with external := true }) trivial rfl
  have retained := written.step (.retain ⟨0, 0⟩) trivial rfl
  have again := retained.step (.retain ⟨0, 0⟩) trivial rfl
  have node := again.step (.makeNode .empty .endOfInput [⟨0, 0⟩, ⟨0, 0⟩]) trivial rfl
  exact node

/-- Text is put into the second token, which is copied; the copy is the last one that a scanner
produced, as the token itself was in its place. -/
theorem edit_keeps_kind_of_scanned : ∃ edited after place,
    Pool.edit ⟨1, 0⟩ ⟨⟨5, ⟨0, 5⟩⟩, .zero, ⟨1, ⟨0, 1⟩⟩⟩ scanned.pool = .ok (.ok edited) after ∧
      after.lastExternalAt? edited = .ok (some place) ∧ place.1 = [1] ∧
        (after.spotAt? edited place.1).map (·.id) = some place.2 := by
  have accepted : scanned.pool.carriesOut ⟨1, 0⟩ ⟨⟨5, ⟨0, 5⟩⟩, .zero, ⟨1, ⟨0, 1⟩⟩⟩ = true := by
    rw [Pool.carriesOut, Pool.edit_eq_descendEdit]
    decide +kernel
  obtain ⟨edited, after, ran⟩ := Pool.carriesOut_iff.mp accepted
  obtain ⟨_, _, found, found', foundAt, _, foundAt', _, same, _, stands⟩ :=
    reached_scanned.edit_keeps_kind (by decide) ran
  have second : (scanned.pool.lastExternalAt? ⟨1, 0⟩).toOption.map (Option.map Prod.fst) =
      some (some [1]) := by
    rw [Pool.lastExternalAt?, Pool.search_eq_findSomeM?]
    decide +kernel
  rw [foundAt] at second
  obtain ⟨place, rfl, isSecond⟩ :=
    Option.map_eq_some_iff.mp (same.symm.trans (Option.some.inj second))
  exact ⟨edited, after, place, ran, foundAt', isSecond, stands place rfl⟩

end Session

end SyntaxForest
