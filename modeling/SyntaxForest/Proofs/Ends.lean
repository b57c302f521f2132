import SyntaxForest.Pool.Edit
import SyntaxForest.Proofs.Computes

/-! # How actions end

Two triples for questions that no value decides. `Reads` bounds the faults of what is read off a
pool: a handle in a child list may turn out to have gone, or a sum not to fit, and nothing else.
`Ends` bounds the faults of an action beside a postcondition.
-/

namespace SyntaxForest

variable {α β γ : Type} {stops : Fault → Prop}

/-- Where there is nothing to read, the fault is one of these. -/
def Reads (stops : Fault → Prop) (read : Except Fault α) : Prop :=
  ∀ fault, read = .error fault → stops fault

namespace Reads

variable {read : Except Fault α} {next : α → Except Fault β} {pool : Pool} {id : NodeId}
  {ids : List NodeId}

theorem of_ok {value : α} (found : read = .ok value) : Reads stops read := by
  intro fault missing
  rw [found] at missing
  cases missing

theorem bind (first : Reads stops read) (rest : ∀ value, Reads stops (next value)) :
    Reads stops (read >>= next) := by
  intro fault missing
  cases found : read with
  | error fault' =>
    rw [found] at missing
    cases missing
    exact first fault found
  | ok value =>
    rw [found] at missing
    exact rest value fault missing

/-- What has been read in a row has been read one by one. -/
theorem bind_eq_ok {value : β} (found : (read >>= next) = .ok value) :
    ∃ middle, read = .ok middle ∧ next middle = .ok value := by
  cases first : read with
  | ok middle =>
    rw [first] at found
    exact ⟨middle, rfl, found⟩
  | error fault =>
    rw [first] at found
    cases found

theorem checked {value : Option α} (overflow : stops .overflow) :
    Reads stops (SyntaxForest.checked value) := by
  intro fault missing
  cases value with
  | none =>
    cases missing
    exact overflow
  | some value => cases missing

theorem foldlM {items : List β} {step : α → β → Except Fault α}
    (each : ∀ item ∈ items, ∀ value, Reads stops (step value item)) (start : α) :
    Reads stops (items.foldlM step start) := by
  induction items generalizing start with
  | nil => exact of_ok rfl
  | cons item items ih =>
    rw [List.foldlM_cons]
    apply (each item List.mem_cons_self start).bind
    exact ih fun item member => each item (List.mem_cons_of_mem _ member)

theorem mapM {items : List β} {step : β → Except Fault α}
    (each : ∀ item ∈ items, Reads stops (step item)) : Reads stops (items.mapM step) := by
  induction items with
  | nil => exact of_ok rfl
  | cons item items ih =>
    rw [List.mapM_cons]
    apply (each item List.mem_cons_self).bind
    intro value
    apply (ih fun item member => each item (List.mem_cons_of_mem _ member)).bind
    exact fun values => of_ok rfl

theorem node (gone : ¬ pool.isLive id → stops (.released id)) : Reads stops (pool.node id) := by
  intro fault missing
  unfold Pool.node at missing
  split at missing
  case h_1 => cases missing
  case h_2 none =>
    cases missing
    apply gone
    simpa [Pool.isLive, Pool.node?] using none

section Lists

variable (overflow : stops .overflow)
  (gone : ∀ id ∈ ids, ¬ pool.isLive id → stops (.released id))

include overflow gone

theorem shownCounts : Reads stops (pool.shownCounts ids) :=
  foldlM (fun id member _ => (node (gone id member)).bind fun _ => checked overflow) _

theorem lengthsOver : Reads stops (pool.lengthsOver ids) := by
  cases ids with
  | nil => exact of_ok rfl
  | cons first rest =>
    apply (node (gone first List.mem_cons_self)).bind
    intro node
    apply (checked overflow).bind
    intro summary
    refine bind (foldlM (fun id member _ => ?_) summary) fun _ => of_ok rfl
    exact (Reads.node (gone id (List.mem_cons_of_mem _ member))).bind fun _ => checked overflow

theorem shareOut {parent : NodeId} {edit : TextEdit} {oldEnd : Span} {split : Split} {index : Nat}
    {done : List Pool.EditTask} :
    Reads stops (pool.shareOut parent edit oldEnd split index done ids) := by
  induction ids generalizing split index done with
  | nil => exact of_ok rfl
  | cons child rest ih =>
    rw [Pool.shareOut]
    apply (node (gone child List.mem_cons_self)).bind
    intro node
    apply (checked overflow).bind
    intro total
    apply (checked overflow).bind
    intro right
    split
    · exact of_ok rfl
    · exact ih fun id member => gone id (List.mem_cons_of_mem _ member)

theorem glanceBack {parent : NodeId} {offset start : Word} {index : Nat}
    {done : List Pool.EditTask} :
    Reads stops (pool.glanceBack parent offset start index done ids) := by
  induction ids generalizing start index done with
  | nil => exact of_ok rfl
  | cons child rest ih =>
    rw [Pool.glanceBack]
    split
    · exact of_ok rfl
    · apply (node (gone child List.mem_cons_self)).bind
      intro node
      apply (checked overflow).bind
      intro bytes
      apply (checked overflow).bind
      intro next
      exact ih fun id member => gone id (List.mem_cons_of_mem _ member)

end Lists

end Reads

namespace PoolM

/-- Where the action ends, it is as the postcondition says; where it stops, it is with one of these
faults. -/
def Ends (action : PoolM α) (pool : Pool) (stops : Fault → Prop) (post : α → Pool → Prop) : Prop :=
  match action pool with
  | .ok answer after => post answer after
  | .error fault _ => stops fault

namespace Ends

variable {action : PoolM α} {next : α → PoolM γ} {pool : Pool} {post : α → Pool → Prop}

theorem of_ok {answer : α} {after : Pool} (ran : action pool = .ok answer after)
    (holds : post answer after) : Ends action pool stops post := by
  simpa only [Ends, ran] using holds

theorem result {answer : α} {after : Pool} (ends : Ends action pool stops post)
    (ran : action pool = .ok answer after) : post answer after := by
  simpa only [Ends, ran] using ends

theorem fault {fault : Fault} {after : Pool} (ends : Ends action pool stops post)
    (stopped : action pool = .error fault after) : stops fault := by
  simpa only [Ends, stopped] using ends

theorem mono {weaker : α → Pool → Prop} (ends : Ends action pool stops post)
    (implies : ∀ answer after, post answer after → weaker answer after) :
    Ends action pool stops weaker := by
  unfold Ends
  cases ran : action pool with
  | ok answer after => exact implies answer after (ends.result ran)
  | error fault after => exact ends.fault ran

theorem bind {last : γ → Pool → Prop} (first : Ends action pool stops post)
    (rest : ∀ answer after, post answer after → Ends (next answer) after stops last) :
    Ends (action >>= next) pool stops last := by
  unfold Ends
  cases ran : action pool with
  | ok answer after =>
    rw [bind_of_ok ran]
    exact rest answer after (first.result ran)
  | error fault after =>
    simp only [Bind.bind, EStateM.bind, ran]
    exact first.fault ran

/-- An action that has ended is left behind. -/
theorem after {answer : α} {middle : Pool} {last : γ → Pool → Prop}
    (ran : action pool = .ok answer middle) (rest : Ends (next answer) middle stops last) :
    Ends (action >>= next) pool stops last :=
  (of_ok ran ⟨rfl, rfl⟩ : Ends action pool stops fun found final => found = answer ∧ final = middle).bind
    fun _ _ ⟨same, same'⟩ => same ▸ same' ▸ rest

theorem query {read : Pool → Except Fault α} (reads : Reads stops (read pool)) :
    Ends (query read) pool stops fun answer after => read pool = .ok answer ∧ after = pool := by
  unfold Ends PoolM.query
  cases found : read pool with
  | ok value => exact ⟨rfl, rfl⟩
  | error fault => exact reads fault found

theorem sum {value : Option α} (overflow : stops .overflow) :
    Ends (PoolM.sum value) pool stops fun answer after => value = some answer ∧ after = pool := by
  cases value with
  | some value => exact ⟨rfl, rfl⟩
  | none => exact overflow

/-- What holds of the pool beside the tasks that are left holds when none is left. -/
theorem run {step : α → PoolM (List α)} {tooDeep : Fault}
    {holds : Pool → List (Nat × α) → Prop} {agenda : List (Nat × α)}
    (each : ∀ depth task rest middle, holds middle ((depth, task) :: rest) →
      Ends (step task) middle stops fun follow after =>
        (depth = 0 → follow ≠ [] → stops tooDeep) ∧
          holds after (follow.map (depth - 1, ·) ++ rest))
    (start : holds pool agenda) :
    Ends (Agenda.run step tooDeep agenda) pool stops fun _ after => holds after [] := by
  have kept := @Agenda.run_invariant _ _ _ step tooDeep holds stops ?each agenda pool start
  case each =>
    intro depth task rest middle told
    have ends := each depth task rest middle told
    cases ran : step task middle with
    | ok follow after => exact ends.result ran
    | error fault after => exact ends.fault ran
  unfold Ends
  cases ran : Agenda.run step tooDeep agenda pool <;> rwa [ran] at kept

end Ends

theorem Computes.ends {action : PoolM α} {pool : Pool} {value : Option β}
    {post : β → α → Pool → Prop} (computes : Computes action pool value post)
    (limit : ∀ fault, fault.IsLimit → stops fault) (overflow : value = none → stops .overflow) :
    Ends action pool stops fun answer after => ∃ result, value = some result ∧
      post result answer after := by
  unfold Ends
  cases ran : action pool with
  | ok answer after => exact computes.result ran
  | error fault after =>
    rcases computes.fault ran with atLimit | ⟨rfl, missing⟩
    · exact limit fault atLimit.isLimit
    · exact overflow missing

end PoolM

end SyntaxForest
