import Mathlib.Data.List.Forall2
import Mathlib.Data.Option.Defs
import SyntaxForest.Proofs.Apart
import SyntaxForest.Proofs.Tree.Image
import SyntaxForest.Sexpr

/-! # Walks in two pools

Two handles, in one pool or in two, are of one kind if the trees that they show have the same shape
and the same nodes, but for lengths and flags of change. A walk from the one goes through the same
places as the same walk from the other, and what is found or written on the way is the same.
-/

namespace SyntaxForest

namespace Agenda

variable {α α' β β' ε σ σ' : Type} {R : α → α' → Prop}

theorem related_follow {depth depth' : Nat} {follow : List α} {follow' : List α'}
    {rest : List (Nat × α)} {rest' : List (Nat × α')} (tasks : List.Forall₂ R follow follow')
    (others : List.Forall₂ (fun item item' => R item.2 item'.2) rest rest') :
    List.Forall₂ (fun item item' => R item.2 item'.2) (follow.map (depth, ·) ++ rest)
      (follow'.map (depth', ·) ++ rest') := by
  induction tasks with
  | nil => exact others
  | cons head _ ih => exact .cons head ih

/-- Agendas that are alike task by task lead to states that are alike. -/
theorem run_related {step : α → EStateM ε σ (List α)} {step' : α' → EStateM ε σ' (List α')}
    {S : σ → σ' → Prop} {tooDeep : ε} {agenda : List (Nat × α)} {agenda' : List (Nat × α')}
    {state last : σ} {state' last' : σ'}
    (each : ∀ task task' state state' follow after follow' after', R task task' → S state state' →
      step task state = .ok follow after → step' task' state' = .ok follow' after' →
        List.Forall₂ R follow follow' ∧ S after after')
    (tasks : List.Forall₂ (fun item item' => R item.2 item'.2) agenda agenda')
    (start : S state state') (ran : run step tooDeep agenda state = .ok () last)
    (ran' : run step' tooDeep agenda' state' = .ok () last') : S last last' := by
  fun_induction run step tooDeep agenda state generalizing agenda' state' with
  | case1 state =>
    cases tasks
    rw [run] at ran'
    cases ran
    cases ran'
    exact start
  | case2 state depth task rest stop after stepped => cases ran
  | case3 state depth task rest after stepped ih =>
    obtain ⟨⟨depth', task'⟩, rest', head, tail, rfl⟩ := List.forall₂_cons_left_iff.mp tasks
    obtain ⟨follow', after', stepped', ran'⟩ := run_cons_eq_ok ran'
    obtain ⟨below, alike⟩ := each _ _ _ _ _ _ _ _ head start stepped stepped'
    cases below
    exact ih tail alike ran ran'
  | case4 state task rest first more after stepped => cases ran
  | case5 state task rest first more after stepped depth ih =>
    obtain ⟨⟨depth', task'⟩, rest', head, tail, rfl⟩ := List.forall₂_cons_left_iff.mp tasks
    obtain ⟨follow', after', stepped', ran'⟩ := run_cons_eq_ok ran'
    obtain ⟨below, alike⟩ := each _ _ _ _ _ _ _ _ head start stepped stepped'
    exact ih (related_follow below tail) alike ran ran'

/-- Agendas that are alike task by task come upon answers that are alike. -/
theorem search_related {step : α → Except ε (β ⊕ List α)} {step' : α' → Except ε (β' ⊕ List α')}
    {S : β → β' → Prop} {tooDeep : ε} {agenda : List (Nat × α)} {agenda' : List (Nat × α')}
    {answer : Option β} {answer' : Option β'}
    (each : ∀ task task' found found', R task task' → step task = .ok found →
      step' task' = .ok found' → Sum.LiftRel S (List.Forall₂ R) found found')
    (tasks : List.Forall₂ (fun item item' => R item.2 item'.2) agenda agenda')
    (searched : search step tooDeep agenda = .ok answer)
    (searched' : search step' tooDeep agenda' = .ok answer') : Option.Rel S answer answer' := by
  fun_induction search step tooDeep agenda generalizing agenda' with
  | case1 =>
    cases tasks
    rw [search] at searched'
    cases searched
    cases searched'
    exact .none
  | case2 depth task rest stop stepped => cases searched
  | case3 depth task rest found stepped =>
    obtain ⟨⟨depth', task'⟩, rest', head, tail, rfl⟩ := List.forall₂_cons_left_iff.mp tasks
    cases searched
    obtain ⟨found', stepped', rfl⟩ | ⟨follow', stepped', _⟩ := search_cons_eq_ok searched'
    · cases each _ _ _ _ head stepped stepped' with
      | inl alike => exact .some alike
    · cases each _ _ _ _ head stepped stepped'
  | case4 depth task rest stepped ih =>
    obtain ⟨⟨depth', task'⟩, rest', head, tail, rfl⟩ := List.forall₂_cons_left_iff.mp tasks
    obtain ⟨found', stepped', rfl⟩ | ⟨follow', stepped', searched'⟩ := search_cons_eq_ok searched'
    · cases each _ _ _ _ head stepped stepped'
    · cases each _ _ _ _ head stepped stepped' with
      | inr below =>
        cases below
        exact ih tail searched searched'
  | case5 task rest first more stepped => cases searched
  | case6 task rest first more stepped depth ih =>
    obtain ⟨⟨depth', task'⟩, rest', head, tail, rfl⟩ := List.forall₂_cons_left_iff.mp tasks
    obtain ⟨found', stepped', rfl⟩ | ⟨follow', stepped', searched'⟩ := search_cons_eq_ok searched'
    · cases each _ _ _ _ head stepped stepped'
    · cases each _ _ _ _ head stepped stepped' with
      | inr below => exact ih (related_follow below tail) searched searched'

/-- An answer is sound if every task that is come upon is. -/
theorem search_sound {step : α → Except ε (β ⊕ List α)} {holds : α → Prop} {sound : β → Prop}
    {tooDeep : ε} {agenda : List (Nat × α)} {answer : Option β}
    (each : ∀ task found, holds task → step task = .ok found →
      Sum.elim sound (fun follow => ∀ next ∈ follow, holds next) found)
    (start : ∀ item ∈ agenda, holds item.2) (searched : search step tooDeep agenda = .ok answer) :
    ∀ found ∈ answer, sound found := by
  have related := search_related (R := fun task task' => task = task' ∧ holds task)
    (S := fun found found' => found = found' ∧ sound found) ?_
    (List.forall₂_same.mpr fun item member => ⟨rfl, start item member⟩) searched searched
  · rintro found ⟨⟩
    cases related with
    | some same => exact same.2
  · rintro task _ found found' ⟨rfl, held⟩ stepped stepped'
    cases stepped.symm.trans stepped'
    have kept := each task found held stepped
    cases found with
    | inl answer => exact .inl ⟨rfl, kept⟩
    | inr follow => exact .inr (List.forall₂_same.mpr fun next member => ⟨rfl, kept next member⟩)

/-- What tasks and answers say beside what is searched by may be dropped before the search or after
it. -/
theorem search_map {step : α → Except ε (β ⊕ List α)} {step' : α' → Except ε (β' ⊕ List α')}
    (draw : α → α') (drawAnswer : β → β')
    (each : ∀ task, step' (draw task) = (step task).map (Sum.map drawAnswer (List.map draw)))
    (tooDeep : ε) (agenda : List (Nat × α)) :
    search step' tooDeep (agenda.map fun item => (item.1, draw item.2)) =
      (search step tooDeep agenda).map (Option.map drawAnswer) := by
  fun_induction search step tooDeep agenda with
  | case1 => rw [List.map_nil, search]; rfl
  | case2 depth task rest stop stepped =>
    rw [List.map_cons, search]
    simp only [each, stepped, Except.map]
  | case3 depth task rest answer stepped =>
    rw [List.map_cons, search]
    simp only [each, stepped, Except.map, Sum.map_inl, Option.map_some]
  | case4 depth task rest stepped ih =>
    rw [List.map_cons, search]
    simp only [each, stepped, Except.map, Sum.map_inr, List.map_nil]
    exact ih
  | case5 task rest first more stepped =>
    rw [List.map_cons, search]
    simp only [each, stepped, Except.map, Sum.map_inr, List.map_cons]
  | case6 task rest first more stepped depth ih =>
    have stepped' : step' (draw task) = .ok (.inr (draw first :: more.map draw)) := by
      rw [each, stepped]
      rfl
    rw [List.map_cons, search]
    simpa only [stepped', List.map_append, List.map_cons, List.map_map, Function.comp_def] using ih

end Agenda

/-- What a node is but for its lengths and its flag of change. -/
def NodeInfo.kind (info : NodeInfo) : NodeInfo := { info with lengths := .zero, changed := false }

namespace Pool

variable {pool after : Pool} {id id' : NodeId} {ids ids' : List NodeId} {tree tree' : Tree}
  {trees trees' : List Tree} {path : List Nat}

/-- The two handles, each in a pool of its own, show trees of one kind. -/
def Alike (pool after : Pool) (id id' : NodeId) : Prop :=
  ∃ tree tree', pool.Shows id tree ∧ after.Shows id' tree' ∧
    tree.image NodeInfo.kind = tree'.image NodeInfo.kind

theorem alike_all (all : List.Forall₂ pool.Shows ids trees) (all' : List.Forall₂ after.Shows ids' trees')
    (same : trees.map (Tree.image NodeInfo.kind) = trees'.map (Tree.image NodeInfo.kind)) :
    List.Forall₂ (pool.Alike after) ids ids' := by
  induction all generalizing ids' trees' with
  | nil =>
    obtain rfl := List.map_eq_nil_iff.mp same.symm
    rw [List.forall₂_nil_right_iff.mp all']
    exact .nil
  | @cons id tree ids trees shows _ ih =>
    cases all' with
    | nil => cases same
    | cons shows' rest' =>
      obtain ⟨first, rest⟩ := List.cons.inj same
      exact .cons ⟨_, _, shows, shows', first⟩ (ih rest' rest)

/-- Alike handles have nodes of one kind, over children that are alike. -/
theorem Alike.node (alike : pool.Alike after id id') :
    ∃ node node', pool.node? id = some node ∧ after.node? id' = some node' ∧
      node.kind = node'.kind ∧ List.Forall₂ (pool.Alike after) node.children node'.children := by
  obtain ⟨tree, tree', shows, shows', same⟩ := alike
  obtain ⟨info, children⟩ := Tree.image_eq_iff.mp same
  obtain ⟨ids, found, all⟩ := shows.node?
  obtain ⟨ids', found', all'⟩ := shows'.node?
  exact ⟨_, _, found, found', info, alike_all all all' children⟩

/-! ## Places -/

/-- The two handles, each in a pool of its own, have nodes that are the same but for their lengths
and their flags of change, with as many children each. -/
def SameKind (pool after : Pool) (id id' : NodeId) : Prop :=
  ∃ node node', pool.node? id = some node ∧ after.node? id' = some node' ∧
    node'.toNodeInfo = { node.toNodeInfo with lengths := node'.lengths, changed := node'.changed } ∧
      node'.children.length = node.children.length

theorem Alike.sameKind (alike : pool.Alike after id id') : pool.SameKind after id id' := by
  obtain ⟨node, node', found, found', kind, all⟩ := alike.node
  refine ⟨node, node', found, found', ?_, all.length_eq.symm⟩
  calc
    node'.toNodeInfo =
      { node'.kind with lengths := node'.lengths, changed := node'.changed } := rfl
    _ = { node.kind with lengths := node'.lengths, changed := node'.changed } := by rw [kind]

/-- The same places are found below alike handles, with nodes of one kind in them. -/
theorem Alike.spotAt? (alike : pool.Alike after id id') (path : List Nat) :
    Option.Rel (fun spot spot' => pool.SameKind after spot.id spot'.id)
      (pool.spotAt? id path) (after.spotAt? id' path) := by
  induction path generalizing id id' with
  | nil => exact .some alike.sameKind
  | cons index path ih =>
    obtain ⟨node, node', found, found', _, all⟩ := alike.node
    simp only [Pool.spotAt?, found, found', Option.bind_eq_bind, Option.bind_some, Option.pure_def]
    cases entry : node.children[index]? with
    | none =>
      rw [List.getElem?_eq_none_iff.mpr (all.length_eq ▸ List.getElem?_eq_none_iff.mp entry)]
      exact .none
    | some child =>
      obtain ⟨child', entry', below⟩ := all.getElem? entry
      have spots := ih below
      rw [entry', Option.bind_some, Option.bind_some]
      generalize pool.spotAt? child path = spot, after.spotAt? child' path = spot' at spots ⊢
      cases spots with
      | some same => exact .some same
      | none => exact .none

/-! ## S-expressions -/

/-- Tasks of writing that are alike. -/
inductive AlikeTask (pool after : Pool) : SexprTask → SexprTask → Prop where
  | root {id id' : NodeId} (alike : pool.Alike after id id') : AlikeTask pool after (.root id) (.root id')
  | below {id id' : NodeId} (alike : pool.Alike after id id') :
    AlikeTask pool after (.below id) (.below id')
  | close : AlikeTask pool after .close .close

theorem label_congr (table : SymbolTable) {info info' : NodeInfo} (same : info.kind = info'.kind)
    (isLeaf : Bool) : table.label info isLeaf = table.label info' isLeaf := by
  have symbol := congrArg NodeInfo.symbol same
  have lookahead := congrArg NodeInfo.lookahead same
  simp only [NodeInfo.kind] at symbol lookahead
  simp only [SymbolTable.label, NodeInfo.isError, symbol, lookahead]

theorem sexprStep_root (table : SymbolTable) {node : Node} (found : pool.node? id = some node)
    (text : String) : pool.sexprStep table (.root id) text = writeNode "" table node text := by
  rw [sexprStep, node_eq_ok_iff.mpr found, orFault, pure_bind]

theorem sexprStep_below (table : SymbolTable) {node : Node} (found : pool.node? id = some node)
    (text : String) : pool.sexprStep table (.below id) text =
      if node.visible then writeNode " " table node text
      else .ok (node.children.map .below) text := by
  rw [sexprStep, node_eq_ok_iff.mpr found, orFault, pure_bind]
  split <;> rfl

theorem alikeTask_below (all : List.Forall₂ (pool.Alike after) ids ids') :
    List.Forall₂ (pool.AlikeTask after) (ids.map .below) (ids'.map .below) :=
  List.forall₂_map_left_iff.mpr (List.forall₂_map_right_iff.mpr (all.imp fun _ _ => .below))

/-- Nodes of one kind are written alike. -/
theorem writeNode_related (table : SymbolTable) {node node' : Node} (kind : node.kind = node'.kind)
    (all : List.Forall₂ (pool.Alike after) node.children node'.children) (lead text : String) :
    ∃ follow follow' text', writeNode lead table node text = .ok follow text' ∧
      writeNode lead table node' text = .ok follow' text' ∧
        List.Forall₂ (pool.AlikeTask after) follow follow' := by
  have isLeaf : node.isLeaf = node'.isLeaf := by
    rw [Node.isLeaf, Node.isLeaf, Bool.eq_iff_iff, List.isEmpty_iff_length_eq_zero,
      List.isEmpty_iff_length_eq_zero, all.length_eq]
  refine ⟨_, _, _, rfl, ?_, List.rel_append (alikeTask_below all) (.cons .close .nil)⟩
  rw [label_congr table kind, isLeaf]
  rfl

/-- Tasks that are alike write the same and lead to tasks that are alike. -/
theorem sexprStep_related (table : SymbolTable) {task task' : SexprTask}
    (alike : pool.AlikeTask after task task') (text : String) :
    ∃ follow follow' text', pool.sexprStep table task text = .ok follow text' ∧
      after.sexprStep table task' text = .ok follow' text' ∧
        List.Forall₂ (pool.AlikeTask after) follow follow' := by
  cases alike with
  | close => exact ⟨[], [], _, rfl, rfl, .nil⟩
  | root alike =>
    obtain ⟨node, node', found, found', kind, all⟩ := alike.node
    rw [sexprStep_root table found, sexprStep_root table found']
    exact writeNode_related table kind all "" text
  | below alike =>
    obtain ⟨node, node', found, found', kind, all⟩ := alike.node
    have visible : node.kind.visible = node'.kind.visible := congrArg NodeInfo.visible kind
    simp only [NodeInfo.kind] at visible
    rw [sexprStep_below table found, sexprStep_below table found', visible]
    split
    · exact writeNode_related table kind all " " text
    · exact ⟨_, _, _, rfl, rfl, alikeTask_below all⟩

theorem walk_eq_ok {α σ : Type} {step : α → EStateM Fault σ (List α)} {tasks : List α}
    {state last : σ} (walked : pool.walk step tasks state = .ok last) :
    Agenda.run step .endless (tasks.map (pool.walkDepth, ·)) state = .ok () last := by
  unfold walk at walked
  split at walked
  case h_1 ran =>
    cases walked
    exact ran
  case h_2 => cases walked

/-- Trees of one kind are written alike. -/
theorem Alike.sexpr_eq (alike : pool.Alike after id id') {table : SymbolTable} {text text' : String}
    (wrote : pool.sexpr table id = .ok text) (wrote' : after.sexpr table id' = .ok text') :
    text = text' := by
  refine Agenda.run_related (R := pool.AlikeTask after) (S := Eq) ?_ (.cons (.root alike) .nil) rfl
    (walk_eq_ok wrote) (walk_eq_ok wrote')
  rintro task task' text _ follow after' follow' after'' alike rfl stepped stepped'
  obtain ⟨_, _, _, done, done', below⟩ := sexprStep_related table alike text
  cases stepped.symm.trans done
  cases stepped'.symm.trans done'
  exact ⟨below, rfl⟩

/-! ## Nodes that an outside scanner produced -/

/-- The handle of a place if an outside scanner produced its node, and otherwise its children from
the last, each with its path. -/
def externalOrChildrenAt (pool : Pool) (place : List Nat × NodeId) :
    Except Fault ((List Nat × NodeId) ⊕ List (List Nat × NodeId)) := do
  let node ← pool.node place.2
  return if node.external then .inl place
    else .inr (node.children.zipIdx.map fun entry => (place.1 ++ [entry.2], entry.1)).reverse

/-- The last node that an outside scanner produced, and the path that leads to it. -/
def lastExternalAt? (pool : Pool) (id : NodeId) : Except Fault (Option (List Nat × NodeId)) :=
  pool.search pool.externalOrChildrenAt [([], id)]

/-- The paths are told beside the search, and have no part in it. -/
theorem lastExternal?_eq (pool : Pool) (id : NodeId) :
    pool.lastExternal? id = (pool.lastExternalAt? id).map (Option.map Prod.snd) := by
  refine Agenda.search_map Prod.snd Prod.snd (fun place => ?_) _ [(pool.walkDepth, [], id)]
  rw [externalOrChildren, externalOrChildrenAt]
  cases pool.node place.2 with
  | error fault => rfl
  | ok node =>
    simp only [bind, Except.bind, pure, Except.pure, Except.map]
    split
    · rfl
    · simp only [Sum.map_inr, List.map_reverse, List.map_map, Function.comp_def, List.zipIdx_map_fst]

/-- The path of the place leads from the handle to that of the place. -/
def Locates (pool : Pool) (id : NodeId) (place : List Nat × NodeId) : Prop :=
  (pool.spotAt? id place.1).map (·.id) = some place.2

/-- One step further than where a path leads. -/
theorem Locates.child {place : List Nat × NodeId} {node : Node} {child : NodeId} {index : Nat}
    (located : pool.Locates id place) (found : pool.node? place.2 = some node)
    (isChild : node.children[index]? = some child) :
    pool.Locates id (place.1 ++ [index], child) := by
  obtain ⟨path, other⟩ := place
  obtain ⟨spot, atPath, rfl⟩ := Option.map_eq_some_iff.mp located
  induction path generalizing id spot with
  | nil =>
    cases atPath
    rw [Locates, List.nil_append, spotAt?_cons_eq_some_iff.mpr ⟨_, _, _, found, isChild, rfl, rfl⟩]
    rfl
  | cons first path ih =>
    obtain ⟨_, _, below, found', isChild', deeper, rfl⟩ := spotAt?_cons_eq_some_iff.mp atPath
    have stands := ih below (congrArg (Option.map Spot.id) deeper) found deeper
    obtain ⟨_, deeper', same⟩ := Option.map_eq_some_iff.mp stands
    rw [Locates, List.cons_append,
      spotAt?_cons_eq_some_iff.mpr ⟨_, _, _, found', isChild', deeper', rfl⟩, Option.map_some, same]

/-- A place that the path leads to is followed by such places. -/
theorem externalOrChildrenAt_locates {place : List Nat × NodeId}
    {step : (List Nat × NodeId) ⊕ List (List Nat × NodeId)} (located : pool.Locates id place)
    (stepped : pool.externalOrChildrenAt place = .ok step) :
    Sum.elim (pool.Locates id) (fun follow => ∀ next ∈ follow, pool.Locates id next) step := by
  unfold externalOrChildrenAt at stepped
  cases found : pool.node place.2 with
  | error fault =>
    rw [found] at stepped
    cases stepped
  | ok node =>
    rw [found] at stepped
    cases stepped
    split
    · exact located
    · intro next member
      obtain ⟨entry, isEntry, rfl⟩ := List.mem_map.mp (List.mem_reverse.mp member)
      exact located.child (node_eq_ok_iff.mp found) (List.mem_zipIdx_iff_getElem?.mp isEntry)

/-- The path that the search tells leads to the handle that it tells. -/
theorem lastExternalAt?_locates {found : Option (List Nat × NodeId)}
    (searched : pool.lastExternalAt? id = .ok found) : ∀ place ∈ found, pool.Locates id place := by
  refine Agenda.search_sound (fun _ _ => externalOrChildrenAt_locates) (fun item member => ?_) searched
  obtain rfl := List.mem_singleton.mp member
  rfl

theorem zipIdx_related {α β : Type} {R : α → β → Prop} {left : List α} {right : List β}
    (all : List.Forall₂ R left right) (start : Nat) :
    List.Forall₂ (fun entry entry' => R entry.1 entry'.1 ∧ entry.2 = entry'.2)
      (left.zipIdx start) (right.zipIdx start) := by
  induction all generalizing start with
  | nil => exact .nil
  | cons head _ ih => exact .cons ⟨head, rfl⟩ (ih (start + 1))

/-- Below handles that are alike the last node of an outside scanner stands at the same path. -/
theorem Alike.lastExternalAt?_eq (alike : pool.Alike after id id')
    {found found' : Option (List Nat × NodeId)} (searched : pool.lastExternalAt? id = .ok found)
    (searched' : after.lastExternalAt? id' = .ok found') :
    found.map Prod.fst = found'.map Prod.fst := by
  have related := Agenda.search_related (S := fun place place' => place.1 = place'.1)
    (R := fun place place' => place.1 = place'.1 ∧ pool.Alike after place.2 place'.2) ?_
    (.cons ⟨rfl, alike⟩ .nil) searched searched'
  · cases related with
    | some same => exact congrArg some same
    | none => rfl
  · rintro ⟨path, id⟩ ⟨_, id'⟩ step step' ⟨rfl, alike⟩ stepped stepped'
    obtain ⟨node, node', here, here', kind, all⟩ := alike.node
    simp only [externalOrChildrenAt, node_eq_ok_iff.mpr here, node_eq_ok_iff.mpr here', bind,
      Except.bind, pure, Except.pure, Except.ok.injEq] at stepped stepped'
    have external : node.kind.external = node'.kind.external := congrArg NodeInfo.external kind
    simp only [NodeInfo.kind] at external
    subst stepped stepped'
    rw [external]
    split
    · exact .inl rfl
    · refine .inr (List.rel_reverse (List.forall₂_map_left_iff.mpr (List.forall₂_map_right_iff.mpr ?_)))
      exact (zipIdx_related all 0).imp fun _ _ both => ⟨by rw [both.2], both.1⟩

end Pool

end SyntaxForest
