import SyntaxForest.Pool.Basic

/-! # Actions that compute a value

`Computes` compares an action on a pool with a value that may not exist. Where the action ends, the
value exists and the postcondition ties the two together; where it stops, either the value does not
exist, because some sum does not fit, or the pool that it stops in has no number left for one more
owner or slot. No other fault is left open, so a statement of this form also says that no released
handle is met.
-/

namespace SyntaxForest

/-- The fault tells of numbers that have run out, for the owners of a node or for slots. -/
def Fault.IsLimit : Fault → Prop
  | .tooManyOwners _ | .poolExhausted _ => True
  | _ => False

/-- What the fault tells is so: the node has as many owners as can be counted, or there are as many
slots as can be numbered and none of them is free. -/
inductive Pool.AtLimit (pool : Pool) : Fault → Prop where
  | owners {id : NodeId} (most : (pool.refCount id).toNat + 1 = UInt32.size) :
    pool.AtLimit (.tooManyOwners id)
  | slots (full : pool.free = []) (most : UInt32.size ≤ pool.slots.size) :
    pool.AtLimit (.poolExhausted pool.slots.size)

theorem Pool.AtLimit.isLimit {pool : Pool} {fault : Fault} (limit : pool.AtLimit fault) :
    fault.IsLimit := by
  cases limit <;> exact trivial

namespace PoolM

variable {α β γ δ : Type}

/-- The action ends exactly with the value, up to the limits of the pool. -/
def Computes (action : PoolM α) (pool : Pool) (value : Option β)
    (post : β → α → Pool → Prop) : Prop :=
  match action pool with
  | .ok answer after => ∃ result, value = some result ∧ post result answer after
  | .error fault after => after.AtLimit fault ∨ fault = .overflow ∧ value = none

namespace Computes

variable {action : PoolM α} {next : α → PoolM γ} {pool : Pool} {value : Option β}

theorem of_ok {answer : α} {after : Pool} {result : β} {post : β → α → Pool → Prop}
    (ran : action pool = .ok answer after) (holds : post result answer after) :
    Computes action pool (some result) post := by
  simp only [Computes, ran]
  exact ⟨result, rfl, holds⟩

theorem result {answer : α} {after : Pool} {post : β → α → Pool → Prop}
    (computes : Computes action pool value post) (ran : action pool = .ok answer after) :
    ∃ result, value = some result ∧ post result answer after := by
  simpa only [Computes, ran] using computes

theorem fault {fault : Fault} {after : Pool} {post : β → α → Pool → Prop}
    (computes : Computes action pool value post) (stopped : action pool = .error fault after) :
    after.AtLimit fault ∨ fault = .overflow ∧ value = none := by
  simpa only [Computes, stopped] using computes

theorem mono {post weaker : β → α → Pool → Prop} (computes : Computes action pool value post)
    (implies : ∀ result answer after, value = some result → post result answer after →
      weaker result answer after) : Computes action pool value weaker := by
  unfold Computes at computes ⊢
  split
  case h_1 answer after ran =>
    rw [ran] at computes
    obtain ⟨result, fits, holds⟩ := computes
    exact ⟨result, fits, implies _ _ _ fits holds⟩
  case h_2 fault after stopped =>
    rw [stopped] at computes
    exact computes

/-- Actions in a row compute values in a row. -/
theorem bind {more : β → Option δ} {middle : β → α → Pool → Prop} {post : δ → γ → Pool → Prop}
    (first : Computes action pool value middle)
    (rest : ∀ result answer after, value = some result → middle result answer after →
      Computes (next answer) after (more result) post) :
    Computes (action >>= next) pool (value.bind more) post := by
  cases ran : action pool with
  | ok answer after =>
    obtain ⟨result, rfl, holds⟩ := first.result ran
    simpa only [Computes, Bind.bind, EStateM.bind, ran, Option.bind_some] using
      rest result answer after rfl holds
  | error fault after =>
    have stopped : (action >>= next) pool = .error fault after := by
      simp only [Bind.bind, EStateM.bind, ran]
    simp only [Computes, stopped]
    exact (first.fault ran).imp_right fun ⟨isOverflow, missing⟩ => ⟨isOverflow, by rw [missing]; rfl⟩

/-- What always ends is left behind. -/
theorem seq {result : β} {sum : Option δ} {middle : β → α → Pool → Prop}
    {post : δ → γ → Pool → Prop} (first : Computes action pool (some result) middle)
    (rest : ∀ answer after, middle result answer after → Computes (next answer) after sum post) :
    Computes (action >>= next) pool sum post := by
  change Computes _ pool ((some result).bind fun _ => sum) post
  refine first.bind fun result' answer after same holds => ?_
  obtain rfl := Option.some.inj same
  exact rest answer after holds

/-- What follows always ends. -/
theorem bind_ok {middle : β → α → Pool → Prop} {post : β → γ → Pool → Prop}
    (first : Computes action pool value middle)
    (rest : ∀ result answer after, value = some result → middle result answer after →
      ∃ final last, next answer after = .ok final last ∧ post result final last) :
    Computes (action >>= next) pool value post := by
  rw [← Option.bind_fun_some value]
  refine first.bind fun result answer after fits holds => ?_
  obtain ⟨final, last, ran, holds'⟩ := rest result answer after fits holds
  exact .of_ok ran holds'

theorem map {draw : β → δ} {post : δ → α → Pool → Prop}
    (computes : Computes action pool value fun result => post (draw result)) :
    Computes action pool (value.map draw) post := by
  unfold Computes at computes ⊢
  split
  case h_1 answer after ran =>
    rw [ran] at computes
    obtain ⟨result, rfl, holds⟩ := computes
    exact ⟨draw result, rfl, holds⟩
  case h_2 fault after stopped =>
    rw [stopped] at computes
    exact computes.imp_right fun ⟨isOverflow, missing⟩ => ⟨isOverflow, by rw [missing]; rfl⟩

end Computes

/-! ## Symbolic execution -/

section Execution

variable {next : α → PoolM γ} {pool : Pool} {value : Option δ} {post : δ → γ → Pool → Prop}

theorem bind_of_ok {action : PoolM α} {answer : α} {after : Pool}
    (ran : action pool = .ok answer after) : (action >>= next) pool = next answer after := by
  simp only [bind, EStateM.bind, ran]

/-- Actions in a row that end have ended one by one. -/
theorem bind_eq_ok {action : PoolM α} {answer : γ} {last : Pool}
    (ran : (action >>= next) pool = .ok answer last) :
    ∃ middle after, action pool = .ok middle after ∧ next middle after = .ok answer last := by
  cases first : action pool with
  | ok middle after =>
    rw [bind_of_ok first] at ran
    exact ⟨middle, after, rfl, ran⟩
  | error fault after =>
    simp only [bind, EStateM.bind, first] at ran
    cases ran

/-- A successful action is left behind. -/
theorem computes_bind_of_ok {action : PoolM α} {answer : α} {after : Pool}
    (ran : action pool = .ok answer after) :
    Computes (action >>= next) pool value post ↔ Computes (next answer) after value post := by
  simp only [Computes, bind_of_ok ran]

theorem computes_congr {action other : PoolM γ} (same : action pool = other pool) :
    Computes action pool value post ↔ Computes other pool value post := by
  simp only [Computes, same]

theorem computes_get {next : Pool → PoolM γ} :
    Computes (get >>= next) pool value post ↔ Computes (next pool) pool value post := Iff.rfl

theorem query_of_ok {read : Pool → Except Fault α} {answer : α} (found : read pool = .ok answer) :
    query read pool = .ok answer pool := by
  simp only [query, found]

theorem query_node {id : NodeId} {node : Node} (found : pool.node? id = some node) :
    query (·.node id) pool = .ok node pool :=
  query_of_ok (Pool.node_eq_ok_iff.mpr found)

theorem query_eq_ok {read : Pool → Except Fault α} {answer : α} {after : Pool}
    (ran : query read pool = .ok answer after) : read pool = .ok answer ∧ after = pool := by
  unfold query at ran
  split at ran
  case h_1 value found =>
    cases ran
    exact ⟨found, rfl⟩
  case h_2 => cases ran

theorem bind_query_eq_ok {read : Pool → Except Fault α} {answer : γ} {last : Pool}
    (ran : (query read >>= next) pool = .ok answer last) :
    ∃ value, read pool = .ok value ∧ next value pool = .ok answer last := by
  obtain ⟨value, _, queried, rest⟩ := bind_eq_ok ran
  obtain ⟨found, rfl⟩ := query_eq_ok queried
  exact ⟨value, found, rest⟩

theorem bind_sum_eq_ok {sum : Option α} {answer : γ} {last : Pool}
    (ran : (PoolM.sum sum >>= next) pool = .ok answer last) :
    ∃ value, sum = some value ∧ next value pool = .ok answer last := by
  cases sum with
  | none => cases ran
  | some value => exact ⟨value, rfl, ran⟩

/-- What is read off the pool is drawn from a sum. -/
theorem computes_query_map {read : Pool → Except Fault α} {sum : Option β} (draw : β → α)
    (found : read pool = checked (sum.map draw)) :
    Computes (query read) pool sum fun result answer after =>
      answer = draw result ∧ after = pool := by
  cases sum with
  | some result => exact .of_ok (query_of_ok found) ⟨rfl, rfl⟩
  | none =>
    simp only [Computes, query, found, checked, Option.map_none]
    exact .inr ⟨trivial, trivial⟩

theorem computes_query {read : Pool → Except Fault α} {sum : Option α}
    (found : read pool = checked sum) :
    Computes (query read) pool sum fun result answer after => answer = result ∧ after = pool :=
  computes_query_map (fun result => result) (by rw [found, Option.map_id'])

theorem computes_sum (sum : Option α) :
    Computes (PoolM.sum sum) pool sum fun result answer after => answer = result ∧ after = pool := by
  cases sum with
  | some result => exact .of_ok rfl ⟨rfl, rfl⟩
  | none => exact .inr ⟨rfl, rfl⟩

end Execution

end PoolM

end SyntaxForest
