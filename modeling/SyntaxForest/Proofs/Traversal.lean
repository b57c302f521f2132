import SyntaxForest.Proofs.Edit.Ranked
import SyntaxForest.Proofs.Pool.Backed
import SyntaxForest.Proofs.Session

/-! # Every way down ends

Slots are used again and edits write into child lists, but as long as callers keep to what they own
no node comes to stand below itself. Nothing that goes down from a live node goes on for ever, and
nothing comes upon a handle that has gone, whether or not the caller holds a unit of the node.
-/

namespace SyntaxForest

/-- Whatever goes down from the node comes to an end, and meets no handle that has gone. An edit may
stop, but only where some quantity does not fit. -/
structure Pool.EndsBelow (pool : Pool) (id : NodeId) : Prop where
  releases : ∃ after, release id pool = .ok () after
  compares : ∀ other, pool.isLive other → ∃ same, pool.sameTree id other = .ok same
  searches : ∃ last, pool.lastExternal? id = .ok last
  writes : ∀ table, ∃ text, pool.sexpr table id = .ok text
  edits : ∀ (change : TextEdit) (fault : Fault) (after : Pool),
    edit id change pool = .error fault after → fault.IsShortage

theorem Pool.Owned.endsBelow {pool : Pool} {held : Multiset NodeId} {id : NodeId}
    (owned : pool.Owned ∅ held) (live : pool.isLive id) : pool.EndsBelow id := by
  obtain ⟨rank, ranked, room⟩ := owned.exists_ranked
  have within : pool.Within rank pool.walkDepth id := ⟨live, room id live⟩
  constructor
  case releases => exact owned.release_live live
  case compares => exact fun other => ranked.sameTree_ok within
  case searches => exact ranked.lastExternal?_ok within
  case writes => exact ranked.sexpr_ok within
  case edits => exact fun change fault after stopped => (ranked.edit live change).fault stopped

namespace Session

variable {allowed : Session → Call → Prop} {session : Session}

/-- Along every session the children of a node are live, no node stands below itself, and whatever
goes down from a live node ends. -/
theorem Reached.traversals_end (reached : Reached allowed session) :
    (∀ parent child, session.pool.Child parent child → session.pool.isLive child) ∧
      (∀ id, ¬ Relation.TransGen session.pool.Child id id) ∧
        ∀ id, session.pool.isLive id → session.pool.EndsBelow id := by
  have owned := reached.owned
  obtain ⟨rank, ranked, _⟩ := owned.exists_ranked
  exact ⟨fun _ _ => ranked.live, ranked.acyclic, fun _ => owned.endsBelow⟩

/-- A node that no caller holds, over a leaf that stands in its child list twice. -/
theorem traversals_end_of_borrowed : ∃ session : Session, session.held = {⟨2, 0⟩} ∧
    session.pool.refCount ⟨0, 0⟩ = 2 ∧ session.pool.EndsBelow ⟨1, 0⟩ := by
  have acquired : Reached (fun _ _ => True) _ := .step .acquire (.start .standard) trivial rfl
  have retained := acquired.step (.retain ⟨0, 0⟩) trivial rfl
  have inner := retained.step (.makeNode .empty .endOfInput [⟨0, 0⟩, ⟨0, 0⟩]) trivial rfl
  have outer := inner.step (.makeNode .empty .endOfInput [⟨1, 0⟩]) trivial rfl
  exact ⟨_, rfl, rfl, outer.traversals_end.2.2 ⟨1, 0⟩ rfl⟩

end Session

end SyntaxForest
