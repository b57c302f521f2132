import SyntaxForest.Proofs.Measured
import SyntaxForest.Proofs.Spelling
import SyntaxForest.Proofs.Tree.Overrun

/-! # Edits that stop in a session

As long as everything keeps to one row, three things may become of an edit. It is refused where it
does not fit the text, with nothing changed. It stops half-way where a leaf that was read further
than its text goes is moved too far. And it is carried out everywhere else, up to the limits of the
pool.
-/

namespace SyntaxForest

/-! ## Text on one row -/

/-- The span keeps to one row. -/
def Span.Unbroken (span : Span) : Prop := span.extent = ⟨0, span.bytes⟩

/-- All spans of the edit keep to one row. -/
structure TextEdit.Unbroken (edit : TextEdit) : Prop where
  start : edit.start.Unbroken
  removed : edit.removed.Unbroken
  added : edit.added.Unbroken

/-- So many blanks. -/
def Text.blanks (count : Nat) : Text := List.replicate count 32

theorem Text.rows_blanks (count : Nat) : (blanks count).rows = 0 := by
  refine List.count_eq_zero.mpr fun member => ?_
  cases (List.mem_replicate.mp member).2

theorem Text.rows_eq_zero_of_mem {text : Text} {texts : List Text}
    (flat : Text.rows texts.flatten = 0) (member : text ∈ texts) : text.rows = 0 :=
  Nat.le_zero.mp (flat ▸ (List.sublist_flatten_of_mem member).count_le _)

theorem Text.rows_flatten_eq_zero {texts : List Text} (flat : ∀ text ∈ texts, text.rows = 0) :
    Text.rows texts.flatten = 0 := by
  refine List.count_eq_zero.mpr fun member => ?_
  obtain ⟨text, isPiece, member⟩ := List.mem_flatten.mp member
  exact List.count_eq_zero.mp (flat text isPiece) member

/-- A span on one row measures any text of its length without line breaks. -/
theorem Span.Unbroken.measures {span : Span} {text : Text} (unbroken : span.Unbroken)
    (length_eq : text.length = span.bytes.toNat) (flat : text.rows = 0) : span.Measures text := by
  refine ⟨length_eq.symm, ?_, ?_⟩
  · rw [unbroken, flat]
    rfl
  · rw [unbroken, Text.lastColumn_of_flat flat, length_eq]

theorem Span.Unbroken.measures_blanks {span : Span} (unbroken : span.Unbroken) :
    span.Measures (.blanks span.bytes.toNat) :=
  unbroken.measures List.length_replicate (Text.rows_blanks _)

/-- An edit on one row that lies within a text without line breaks makes another one of it. -/
theorem TextEdit.Unbroken.exists_rewrites {edit : TextEdit} {text : Text} (unbroken : edit.Unbroken)
    (flat : text.rows = 0) (inside : edit.stopByte ≤ text.length) :
    ∃ text', edit.Rewrites text text' ∧ text'.rows = 0 := by
  have cut : text = text.take edit.start.bytes.toNat ++
      (text.drop edit.start.bytes.toNat).take edit.removed.bytes.toNat ++
        (text.drop edit.start.bytes.toNat).drop edit.removed.bytes.toNat := by
    rw [List.append_assoc, List.take_append_drop, List.take_append_drop]
  have rows := congrArg Text.rows cut
  simp only [Text.rows_append, flat] at rows
  simp only [stopByte] at inside
  refine ⟨_, ⟨_, _, .blanks edit.added.bytes.toNat, _, cut, rfl, ?_, ?_, ?_⟩, ?_⟩
  · refine unbroken.start.measures ?_ (by omega)
    rw [List.length_take]
    omega
  · refine unbroken.removed.measures ?_ (by omega)
    rw [List.length_take, List.length_drop]
    omega
  · exact unbroken.added.measures_blanks
  · simp only [Text.rows_append, Text.rows_blanks]
    omega

namespace Pool

variable {pool after : Pool} {id other : NodeId} {ids : List NodeId} {tree tree' : Tree}
  {trees trees' : List Tree} {text : Text}

/-- All trees that a handle shows spell the same text. -/
theorem Shows.spells (shows : pool.Shows id tree) (shows' : pool.Shows id tree')
    (spells : tree'.Spells text) : tree.Spells text := by
  induction tree generalizing id tree' text with
  | node handle info children ih =>
    obtain ⟨handle', info', children'⟩ := tree'
    obtain ⟨_, ids, found, all⟩ := shows_iff.mp shows
    obtain ⟨_, ids', found', all'⟩ := shows_iff.mp shows'
    cases found.symm.trans found'
    have sameLengths : children.map Tree.lengths = children'.map Tree.lengths :=
      List.map_injective_iff.mpr (Option.some_injective _)
        ((lengths?_of_shows all).symm.trans (lengths?_of_shows all'))
    by_cases leaf : children = []
    · subst leaf
      obtain rfl : children' = [] := List.map_eq_nil_iff.mp sameLengths.symm
      exact Tree.spells_leaf_iff.mpr (Tree.spells_leaf_iff.mp spells)
    · have length_eq : children.length = children'.length := all.length_eq.symm.trans all'.length_eq
      obtain ⟨laid, texts, allSpell, rfl⟩ :=
        (Tree.spells_node_iff (Tree.inner_of_length_eq length_eq.symm leaf)).mp spells
      refine (Tree.spells_node_iff leaf).mpr ⟨sameLengths ▸ laid, texts, ?_, rfl⟩
      refine .of_getElem? (length_eq.trans allSpell.length_eq)
        fun index child piece isChild isPiece => ?_
      obtain ⟨child', isChild', spells'⟩ := allSpell.flip.getElem? isPiece
      obtain ⟨below, isBelow, belowShows⟩ := all.flip.getElem? isChild
      obtain ⟨again, isChild'', belowShows'⟩ := all'.getElem? isBelow
      cases isChild'.symm.trans isChild''
      exact ih child (List.mem_of_getElem? isChild) belowShows belowShows' spells'

/-- Every live node spells a text without line breaks. -/
def Unbroken (pool : Pool) : Prop :=
  ∀ id, pool.isLive id → ∃ text : Text, text.rows = 0 ∧ pool.Spells id text

/-- What is below a handle spells part of its text. -/
theorem Spells.of_reaches (spells : pool.Spells id text) (flat : text.rows = 0)
    (reaches : pool.Reaches id other) : ∃ text : Text, text.rows = 0 ∧ pool.Spells other text := by
  induction reaches with
  | refl => exact ⟨text, flat, spells⟩
  | tail _ below ih =>
  obtain ⟨text, flat, tree, shows, spells⟩ := ih
  obtain ⟨handle, info, trees⟩ := tree
  obtain ⟨_, ids, found, all⟩ := shows_iff.mp shows
  obtain ⟨node, found', member⟩ := below
  cases found.symm.trans found'
  obtain ⟨tree, place, shows'⟩ := all.exists_of_mem member
  obtain ⟨_, texts, allSpell, rfl⟩ := (Tree.spells_node_iff (List.ne_nil_of_mem place)).mp spells
  obtain ⟨piece, isPiece, spells'⟩ := allSpell.exists_of_mem place
  exact ⟨piece, Text.rows_eq_zero_of_mem flat isPiece, tree, shows', spells'⟩

theorem Unbroken.shows (unbroken : pool.Unbroken) (shows : pool.Shows id tree) :
    ∃ text : Text, text.rows = 0 ∧ tree.Spells text := by
  obtain ⟨text, flat, tree', shows', spells⟩ := unbroken id shows.isLive
  exact ⟨text, flat, shows.spells shows' spells⟩

/-- What units keep goes on to spell its text. -/
theorem Keeps.exists_spells {units : Multiset NodeId} {unit : NodeId}
    (keeps : pool.Keeps after units) (unbroken : pool.Unbroken) (held : unit ∈ units)
    (reaches : after.Reaches unit id) (live : after.isLive id) :
    ∃ text : Text, text.rows = 0 ∧ after.Spells id text := by
  have before := (keeps.reaches_iff held).mp reaches
  have same := keeps unit held id before
  obtain ⟨text, flat, tree, shows, spells⟩ :=
    unbroken id (by rwa [← isLive_congr (congrArg _ same)])
  exact ⟨text, flat, tree,
    shows.transfer fun other below => keeps unit held other (before.trans below), spells⟩

end Pool

/-! ## Sessions on one row -/

namespace Session

variable {session : Session} {root edited : NodeId} {tree : Tree} {edit : TextEdit}

/-- All spans that the caller tells keep to one row, and it writes to no node. -/
def OnOneRow (_ : Session) : Call → Prop
  | .makeLeaf _ _ padding size | .makeError _ padding size _ => padding.Unbroken ∧ size.Unbroken
  | .edit _ edit => edit.Unbroken
  | .amend .. => False
  | .acquire | .makeNode .. | .retain .. | .release .. => True

theorem exists_spells_of_token {padding size : Span} {lengths : Lengths} {info : NodeInfo}
    (paddingFits : padding.Unbroken) (sizeFits : size.Unbroken)
    (token : Lengths.token? padding size = some lengths) (same : info.lengths = lengths) :
    ∃ text : Text, text.rows = 0 ∧ (Tree.node none info []).Spells text := by
  obtain ⟨bytes, _, rfl⟩ := Option.map_eq_some_iff.mp token
  refine ⟨.blanks padding.bytes.toNat ++ .blanks size.bytes.toNat, ?_, Tree.spells_leaf_iff.mpr ?_⟩
  · rw [Text.rows_append, Text.rows_blanks, Text.rows_blanks]
  · rw [same]
    exact ⟨_, _, rfl, paddingFits.measures_blanks, sizeFits.measures_blanks⟩

theorem exists_spells_of_makes {call : Call} (unbroken : session.pool.Unbroken)
    (may : session.OnOneRow call) (makes : call.Makes session.pool tree) :
    ∃ text : Text, text.rows = 0 ∧ tree.Spells text := by
  cases call with
  | acquire =>
    obtain rfl := makes
    exact ⟨[], rfl, Tree.spells_leaf_iff.mpr ⟨[], [], rfl, .zero, .zero⟩⟩
  | makeLeaf table symbol padding size =>
    obtain ⟨lengths, token, rfl⟩ := makes
    exact exists_spells_of_token may.1 may.2 token rfl
  | makeError table padding size lookahead =>
    obtain ⟨lengths, token, rfl⟩ := makes
    exact exists_spells_of_token may.1 may.2 token rfl
  | makeNode table symbol children =>
    obtain ⟨info, trees, inner, below, derived, rfl⟩ := makes
    obtain ⟨shown, _, derived⟩ := Option.bind_eq_some_iff.mp derived
    obtain ⟨lengths, gathered, rfl⟩ := Option.map_eq_some_iff.mp derived
    rw [List.map_map] at gathered
    obtain ⟨texts, all⟩ := List.Forall₂.exists_of_forall
      (R := fun tree text => Text.rows text = 0 ∧ Tree.Spells tree text) fun tree place => by
        obtain ⟨child, _, shows⟩ := (List.Forall₂.flip below).exists_of_mem place
        exact unbroken.shows shows
    have laid := Tree.laidOver_of_over? gathered
    have inner' : trees ≠ [] := Tree.inner_of_length_eq below.length_eq.symm inner
    refine ⟨texts.flatten, ?_, (Tree.spells_node_iff inner').mpr
      ⟨laid, texts, all.imp fun _ _ => And.right, rfl⟩⟩
    refine Text.rows_flatten_eq_zero fun text member => ?_
    obtain ⟨tree, _, flat, _⟩ := (List.Forall₂.flip all).exists_of_mem member
    exact flat
  | edit root change =>
    obtain ⟨before, shows, revised⟩ := makes
    obtain ⟨text, flat, spells⟩ := unbroken.shows shows
    have fits := (Tree.revise?_ok revised).1
    rw [spells.lengths_measures.bytes_eq] at fits
    obtain ⟨text', rewrites, flat'⟩ := TextEdit.Unbroken.exists_rewrites may flat fits.inside
    exact ⟨text', flat', (spells.revise? rewrites revised).1⟩
  | retain | release | amend => exact makes.elim

/-- Whatever is built, shared, edited and released, every live node spells a text on one row. -/
theorem Reached.unbroken (reached : Reached OnOneRow session) : session.pool.Unbroken := by
  induction reached with
  | start sizing => exact fun id live => (Pool.not_isLive_empty sizing id live).elim
  | @step session after call before may stepped ih =>
    have owned := (before.step call may stepped).owned
    obtain ⟨rest, given, _, held, outcome⟩ := step?_outcome before.owned stepped
    intro id live
    obtain ⟨unit, isHeld, reaches⟩ := owned.isLive_iff_reaches.mp live
    rw [held] at isHeld
    cases outcome with
    | made makes settled =>
      rcases Multiset.mem_add.mp isHeld with isNew | isHeld
      · obtain rfl := Multiset.mem_singleton.mp isNew
        obtain ⟨text, flat, spells⟩ := exists_spells_of_makes ih may makes
        exact Pool.Spells.of_reaches ⟨_, settled.shows, spells⟩ flat reaches
      · exact settled.spares.kept.exists_spells ih isHeld reaches live
    | handed _ kept => exact kept.exists_spells ih isHeld reaches live
    | amended => exact may.elim

theorem Reached.writesLeaves (reached : Reached OnOneRow session) :
    Reached WritesLeaves session := by
  refine reached.mono fun session call may => ?_
  cases call with
  | amend => exact may.elim
  | _ => trivial

/-- What becomes of an edit on one row. Beside what the pool can count, it stops only where the tree
is overrun. -/
theorem Reached.edit_decided (reached : Reached OnOneRow session) (held : root ∈ session.held)
    (shows : session.pool.Shows root tree) (unbroken : edit.Unbroken) :
    match Pool.edit root edit session.pool with
    | .ok (.ok _) _ => edit.Fits tree.lengths.bytes ∧ ¬ tree.Overruns edit
    | .ok (.error _) after => ¬ edit.Fits tree.lengths.bytes ∧ after = session.pool
    | .error fault after => after.AtLimit fault ∨
        fault = .overflow ∧ edit.Fits tree.lengths.bytes ∧ tree.Overruns edit := by
  have computes := reached.computes_edit held shows edit
  obtain ⟨text, flat, spells⟩ := reached.unbroken.shows shows
  have measured := reached.writesLeaves.pool_measured.shows shows
  have decided := spells.revise?_cases measured fun fits =>
    (unbroken.exists_rewrites flat fits.inside).imp fun _ => And.left
  split
  case h_1 edited after ran =>
    obtain ⟨result, fits, answers⟩ := computes.result ran
    cases result with
    | ok tree' => rwa [fits] at decided
    | error => exact answers.elim
  case h_2 refusal after ran =>
    obtain ⟨result, fits, answers⟩ := computes.result ran
    cases result with
    | ok => exact answers.elim
    | error =>
      obtain ⟨_, rfl⟩ := answers
      rw [fits] at decided
      exact ⟨decided, rfl⟩
  case h_3 fault after stopped =>
    refine (computes.fault stopped).imp_right fun ⟨overflow, stops⟩ => ?_
    rw [stops] at decided
    exact ⟨overflow, decided⟩

/-! ## A token that has lost its text -/

/-- A short token, and a long one after it. -/
def long : Session where
  pool :=
    { slots := #[⟨0, 1, ⟨rowsInfo .zero ⟨1, ⟨0, 1⟩⟩ 1 false, []⟩⟩,
        ⟨0, 1, ⟨rowsInfo .zero ⟨4294967290, ⟨0, 4294967290⟩⟩ 4294967290 false, []⟩⟩,
        ⟨0, 1, ⟨rowsInfo .zero ⟨4294967291, ⟨0, 4294967291⟩⟩ 4294967291 false, [⟨0, 0⟩, ⟨1, 0⟩]⟩⟩]
      free := [], journal := #[], sizing := .standard }
  held := {⟨2, 0⟩}

/-- The text of the long token has been removed. It goes on to tell how far it was read. -/
def emptied : Session where
  pool :=
    { slots := #[⟨0, 1, ⟨rowsInfo .zero ⟨1, ⟨0, 1⟩⟩ 1 true, []⟩⟩,
        ⟨0, 1, ⟨rowsInfo .zero .zero 4294967290 true, []⟩⟩,
        ⟨0, 1, ⟨rowsInfo .zero ⟨1, ⟨0, 1⟩⟩ 4294967291 true, [⟨0, 0⟩, ⟨1, 0⟩]⟩⟩]
      free := [], journal := #[.appliedEdit 1 4294967290 0], sizing := .standard }
  held := {⟨2, 0⟩}

def emptiedTree : Tree :=
  .node none (rowsInfo .zero ⟨1, ⟨0, 1⟩⟩ 4294967291 true)
    [.node none (rowsInfo .zero ⟨1, ⟨0, 1⟩⟩ 1 true) [],
     .node none (rowsInfo .zero .zero 4294967290 true) []]

theorem reached_emptied : Reached OnOneRow emptied := by
  have short : Reached OnOneRow _ := .step
    (.makeLeaf .empty .endOfInput .zero ⟨1, ⟨0, 1⟩⟩) (.start .standard) ⟨rfl, rfl⟩ rfl
  have token := short.step
    (.makeLeaf .empty .endOfInput .zero ⟨4294967290, ⟨0, 4294967290⟩⟩) ⟨rfl, rfl⟩ rfl
  have node : Reached OnOneRow long :=
    token.step (.makeNode .empty .endOfInput [⟨0, 0⟩, ⟨1, 0⟩]) trivial rfl
  have removes : long.pool.editPasses ⟨2, 0⟩ ⟨⟨1, ⟨0, 1⟩⟩, ⟨4294967290, ⟨0, 4294967290⟩⟩, .zero⟩
      (fun edited after => decide (edited = ⟨2, 0⟩ ∧ after = emptied.pool)) = true := by
    rw [Pool.editPasses, Pool.edit_eq_descendEdit]
    decide +kernel
  obtain ⟨_, _, removes, same⟩ := Pool.editPasses_iff.mp removes
  obtain ⟨rfl, rfl⟩ := of_decide_eq_true same
  exact node.step (.edit ⟨2, 0⟩ ⟨⟨1, ⟨0, 1⟩⟩, ⟨4294967290, ⟨0, 4294967290⟩⟩, .zero⟩) ⟨rfl, rfl, rfl⟩
    (step?_edit (Multiset.mem_singleton_self _) removes)

theorem emptied_shows : emptied.pool.Shows ⟨2, 0⟩ emptiedTree := by
  have token {id : NodeId} {info : NodeInfo} (found : emptied.pool.node? id = some ⟨info, []⟩) :
      emptied.pool.Shows id (.node none info []) :=
    Pool.shows_iff.mpr ⟨by simp, [], found, .nil⟩
  exact Pool.shows_iff.mpr
    ⟨by simp, [⟨0, 0⟩, ⟨1, 0⟩], rfl, .cons (token rfl) (.cons (token rfl) .nil)⟩

/-- The text would have eleven bytes, but the empty token is too far away from its start then. -/
theorem emptied_stops : ∃ after,
    Pool.edit ⟨2, 0⟩ ⟨.zero, .zero, ⟨10, ⟨0, 10⟩⟩⟩ emptied.pool = .error .overflow after ∧
      after.lengths? ⟨0, 0⟩ = some ⟨⟨10, ⟨0, 10⟩⟩, ⟨1, ⟨0, 1⟩⟩, 11⟩ := by
  have stops : (match Pool.edit ⟨2, 0⟩ ⟨.zero, .zero, ⟨10, ⟨0, 10⟩⟩⟩ emptied.pool with
      | .error .overflow after => after.lengths? ⟨0, 0⟩
      | _ => none) = some ⟨⟨10, ⟨0, 10⟩⟩, ⟨1, ⟨0, 1⟩⟩, 11⟩ := by
    rw [Pool.edit_eq_descendEdit]
    decide +kernel
  split at stops
  case h_1 after ran => exact ⟨after, ran, stops⟩
  case h_2 => cases stops

theorem edit_decided_of_emptied : ∃ fault after,
    Pool.edit ⟨2, 0⟩ ⟨.zero, .zero, ⟨10, ⟨0, 10⟩⟩⟩ emptied.pool = .error fault after ∧
      (after.AtLimit fault ∨ fault = .overflow ∧
        TextEdit.Fits ⟨.zero, .zero, ⟨10, ⟨0, 10⟩⟩⟩ emptiedTree.lengths.bytes ∧
          emptiedTree.Overruns ⟨.zero, .zero, ⟨10, ⟨0, 10⟩⟩⟩) := by
  have unbroken : TextEdit.Unbroken ⟨.zero, .zero, ⟨10, ⟨0, 10⟩⟩⟩ := ⟨rfl, rfl, rfl⟩
  have decided :=
    reached_emptied.edit_decided (Multiset.mem_singleton_self _) emptied_shows unbroken
  obtain ⟨after, ran, _⟩ := emptied_stops
  rw [ran] at decided
  exact ⟨.overflow, after, ran, decided⟩

/-- An edit that fits stops when the first token has been changed already. -/
theorem edit_stops_of_emptied : Reached OnOneRow emptied ∧ ⟨2, 0⟩ ∈ emptied.held ∧
    emptied.pool.Shows ⟨2, 0⟩ emptiedTree ∧
      TextEdit.Unbroken ⟨.zero, .zero, ⟨10, ⟨0, 10⟩⟩⟩ ∧
        TextEdit.Fits ⟨.zero, .zero, ⟨10, ⟨0, 10⟩⟩⟩ emptiedTree.lengths.bytes ∧ ∃ after,
          Pool.edit ⟨2, 0⟩ ⟨.zero, .zero, ⟨10, ⟨0, 10⟩⟩⟩ emptied.pool = .error .overflow after ∧
            emptied.pool.lengths? ⟨0, 0⟩ = some ⟨.zero, ⟨1, ⟨0, 1⟩⟩, 1⟩ ∧
              after.lengths? ⟨0, 0⟩ = some ⟨⟨10, ⟨0, 10⟩⟩, ⟨1, ⟨0, 1⟩⟩, 11⟩ := by
  obtain ⟨after, ran, changed⟩ := emptied_stops
  exact ⟨reached_emptied, Multiset.mem_singleton_self _, emptied_shows, ⟨rfl, rfl, rfl⟩,
    ⟨by decide, by decide, by decide⟩, after, ran, rfl, changed⟩

end Session

end SyntaxForest
