/-! # Depth-first agendas

Work on a deep structure is kept on an agenda, a list of tasks of which the first is done next and
is replaced by the tasks that it leads to. Each task may lead to others down to a given depth. An
agenda is therefore finite work, however many tasks each of them leads to: a task makes way for
any number of tasks of smaller depth, and `Shallower.wf` says that this cannot go on for ever.
-/

namespace SyntaxForest.Agenda

/-- The depths that the tasks of an agenda may still go to, in order. -/
def Depths : Type := List Nat

/-- The first depth has been replaced by smaller ones. -/
inductive Shallower : Depths → Depths → Prop where
  | replace {depth : Nat} {smaller rest : List Nat} (small : ∀ d ∈ smaller, d < depth) :
    Shallower (smaller ++ rest) (depth :: rest)

namespace Shallower

private theorem acc_append {rest : List Nat} (done : Acc Shallower rest) {smaller : List Nat}
    (each : ∀ d ∈ smaller, ∀ tail : List Nat, Acc Shallower tail → Acc Shallower (d :: tail)) :
    Acc Shallower (smaller ++ rest) := by
  induction smaller with
  | nil => exact done
  | cons d more ih =>
    exact each d (List.mem_cons_self ..) _ (ih fun d' member => each d' (List.mem_cons_of_mem _ member))

private theorem acc_cons (depth : Nat) :
    ∀ rest : List Nat, Acc Shallower rest → Acc Shallower (depth :: rest) := by
  induction depth using Nat.strongRecOn with
  | ind depth ih =>
    intro rest done
    constructor
    rintro _ ⟨small⟩
    exact acc_append done fun d member => ih d (small d member)

theorem wf : WellFounded Shallower := by
  constructor
  intro depths
  induction depths with
  | nil => exact ⟨_, nofun⟩
  | cons depth rest ih => exact acc_cons depth rest ih

end Shallower

instance : WellFoundedRelation Depths := ⟨Shallower, Shallower.wf⟩

variable {α β ε σ : Type}

/-- The depths of an agenda, by which it ends. -/
def depths (agenda : List (Nat × α)) : Depths := agenda.map (·.1)

private theorem shallower_tail (depth : Nat) (task : α) (rest : List (Nat × α)) :
    Shallower (depths rest) (depths ((depth, task) :: rest)) := by
  have none : ∀ d ∈ ([] : List Nat), d < depth := nofun
  exact Shallower.replace none

private theorem shallower_follow (depth : Nat) (task : α) (follow : List α)
    (rest : List (Nat × α)) :
    Shallower (depths (follow.map (depth, ·) ++ rest)) (depths ((depth + 1, task) :: rest)) := by
  have small : ∀ d ∈ (follow.map (depth, ·)).map (·.1), d < depth + 1 := by
    intro d member
    simp only [List.map_map, List.mem_map, Function.comp] at member
    obtain ⟨_, _, rfl⟩ := member
    exact Nat.lt_succ_self _
  simpa only [depths, List.map_append, List.map_cons] using Shallower.replace small

/-- Does every task of the agenda, and every task that one leads to, in order. -/
def run (step : α → EStateM ε σ (List α)) (tooDeep : ε) (agenda : List (Nat × α)) (state : σ) :
    EStateM.Result ε σ Unit :=
  match agenda with
  | [] => .ok () state
  | (depth, task) :: rest =>
    match step task state with
    | .error stop state => .error stop state
    | .ok [] state => run step tooDeep rest state
    | .ok (first :: more) state =>
      match depth with
      | 0 => .error tooDeep state
      | depth + 1 => run step tooDeep ((first :: more).map (depth, ·) ++ rest) state
termination_by depths agenda
decreasing_by
  · exact shallower_tail ..
  · exact shallower_follow ..

/-- Does the tasks in order until one of them gives an answer. -/
def search (step : α → Except ε (β ⊕ List α)) (tooDeep : ε) (agenda : List (Nat × α)) :
    Except ε (Option β) :=
  match agenda with
  | [] => .ok none
  | (depth, task) :: rest =>
    match step task with
    | .error stop => .error stop
    | .ok (.inl answer) => .ok (some answer)
    | .ok (.inr []) => search step tooDeep rest
    | .ok (.inr (first :: more)) =>
      match depth with
      | 0 => .error tooDeep
      | depth + 1 => search step tooDeep ((first :: more).map (depth, ·) ++ rest)
termination_by depths agenda
decreasing_by
  · exact shallower_tail ..
  · exact shallower_follow ..

/-- The tasks in the order in which they are done, each with the state that it meets. -/
def trace (step : α → EStateM ε σ (List α)) (agenda : List (Nat × α)) (state : σ) : List (α × σ) :=
  match agenda with
  | [] => []
  | (depth, task) :: rest =>
    (task, state) ::
      match step task state with
      | .error _ _ => []
      | .ok [] state => trace step rest state
      | .ok (first :: more) state =>
        match depth with
        | 0 => []
        | depth + 1 => trace step ((first :: more).map (depth, ·) ++ rest) state
termination_by depths agenda
decreasing_by
  · exact shallower_tail ..
  · exact shallower_follow ..

/-! ## Agendas in two parts -/

/-- The tasks of the first part, and those that they lead to, are done before the second part. -/
theorem run_append (step : α → EStateM ε σ (List α)) (tooDeep : ε)
    (first second : List (Nat × α)) (state : σ) :
    run step tooDeep (first ++ second) state =
      match run step tooDeep first state with
      | .ok _ state => run step tooDeep second state
      | .error stop state => .error stop state := by
  fun_induction run step tooDeep first state with
  | case1 state => rfl
  | case2 state depth task rest stop after stepped =>
    rw [List.cons_append, run]
    simp only [stepped]
  | case3 state depth task rest after stepped ih =>
    rw [List.cons_append, run]
    simp only [stepped, ih]
  | case4 state task rest head more after stepped =>
    rw [List.cons_append, run]
    simp only [stepped]
  | case5 state task rest head more after stepped depth ih =>
    rw [List.cons_append, run]
    simp only [stepped, ← List.append_assoc, ih]

theorem trace_append (step : α → EStateM ε σ (List α)) (tooDeep : ε)
    (first second : List (Nat × α)) (state : σ) :
    trace step (first ++ second) state = trace step first state ++
      match run step tooDeep first state with
      | .ok _ state => trace step second state
      | .error _ _ => [] := by
  fun_induction run step tooDeep first state with
  | case1 state => rw [trace, List.nil_append, List.nil_append]
  | case2 state depth task rest stop after stepped =>
    rw [List.cons_append, trace, trace]
    simp only [stepped, List.append_nil]
  | case3 state depth task rest after stepped ih =>
    rw [List.cons_append, trace, trace]
    simp only [stepped, ih, List.cons_append]
  | case4 state task rest head more after stepped =>
    rw [List.cons_append, trace, trace]
    simp only [stepped, List.append_nil]
  | case5 state task rest head more after stepped depth ih =>
    rw [List.cons_append, trace, trace]
    simp only [stepped, ← List.append_assoc, ih, List.cons_append]

/-- The second part is searched only if the first has no answer. -/
theorem search_append (step : α → Except ε (β ⊕ List α)) (tooDeep : ε)
    (first second : List (Nat × α)) :
    search step tooDeep (first ++ second) =
      match search step tooDeep first with
      | .ok none => search step tooDeep second
      | other => other := by
  fun_induction search step tooDeep first with
  | case1 => rfl
  | case2 depth task rest stop stepped =>
    rw [List.cons_append, search]
    simp only [stepped]
  | case3 depth task rest answer stepped =>
    rw [List.cons_append, search]
    simp only [stepped]
  | case4 depth task rest stepped ih =>
    rw [List.cons_append, search]
    simp only [stepped, ih]
  | case5 task rest head more stepped =>
    rw [List.cons_append, search]
    simp only [stepped]
  | case6 task rest head more stepped depth ih =>
    rw [List.cons_append, search]
    simp only [stepped, ← List.append_assoc, ih]

/-! ## Agendas of one task -/

/-- What a task leads to may go one level less deep. -/
theorem run_one (step : α → EStateM ε σ (List α)) (tooDeep : ε) (depth : Nat) (task : α)
    (state : σ) : run step tooDeep [(depth + 1, task)] state =
      match step task state with
      | .ok follow after => run step tooDeep (follow.map (depth, ·)) after
      | .error stop after => .error stop after := by
  rw [run]
  cases step task state with
  | error stop after => rfl
  | ok follow after =>
    cases follow with
    | nil => rfl
    | cons first more => simp only [List.append_nil]

theorem trace_one (step : α → EStateM ε σ (List α)) (depth : Nat) (task : α) (state : σ) :
    trace step [(depth + 1, task)] state = (task, state) ::
      match step task state with
      | .ok follow after => trace step (follow.map (depth, ·)) after
      | .error _ _ => [] := by
  rw [trace]
  cases step task state with
  | error stop after => rfl
  | ok follow after =>
    cases follow with
    | nil => simp only [List.map_nil, trace]
    | cons first more => simp only [List.append_nil]

theorem search_one (step : α → Except ε (β ⊕ List α)) (tooDeep : ε) (depth : Nat) (task : α) :
    search step tooDeep [(depth + 1, task)] =
      match step task with
      | .ok (.inr follow) => search step tooDeep (follow.map (depth, ·))
      | .ok (.inl answer) => .ok (some answer)
      | .error stop => .error stop := by
  rw [search]
  cases step task with
  | error stop => rfl
  | ok found =>
    cases found with
    | inl answer => rfl
    | inr follow =>
      cases follow with
      | nil => rfl
      | cons first more => simp only [List.append_nil]

/-- There is no answer if and only if no task by itself has one. -/
theorem search_eq_none_iff (step : α → Except ε (β ⊕ List α)) (tooDeep : ε)
    (agenda : List (Nat × α)) : search step tooDeep agenda = .ok none ↔
      ∀ item ∈ agenda, search step tooDeep [item] = .ok none := by
  induction agenda with
  | nil => simp [search]
  | cons item rest ih =>
    rw [List.forall_mem_cons, ← ih, ← List.singleton_append, search_append]
    split
    case h_1 none => simp only [none, true_and]
    case h_2 found => exact ⟨fun none => (found none).elim, fun none => none.1⟩

/-! ## Agendas by recursion -/

/-- Does a task and all that it leads to. -/
def descend (step : α → EStateM ε σ (List α)) (tooDeep : ε) : Nat → α → EStateM ε σ Unit
  | 0, task => do
    match ← step task with
    | [] => return ()
    | _ :: _ => throw tooDeep
  | depth + 1, task => do
    let follow ← step task
    follow.forM (descend step tooDeep depth)

/-- Looks for an answer at a task and at all that it leads to. -/
def seek (step : α → Except ε (β ⊕ List α)) (tooDeep : ε) : Nat → α → Except ε (Option β)
  | 0, task => do
    match ← step task with
    | .inl answer => return some answer
    | .inr [] => return none
    | .inr (_ :: _) => throw tooDeep
  | depth + 1, task => do
    match ← step task with
    | .inl answer => return some answer
    | .inr follow => follow.findSomeM? (seek step tooDeep depth)

theorem run_map_eq_forM {step : α → EStateM ε σ (List α)} {tooDeep : ε} {depth : Nat}
    (each : ∀ task, run step tooDeep [(depth, task)] = descend step tooDeep depth task)
    (tasks : List α) :
    run step tooDeep (tasks.map (depth, ·)) = tasks.forM (descend step tooDeep depth) := by
  induction tasks with
  | nil =>
    funext state
    exact run.eq_def ..
  | cons task tasks ih =>
    funext state
    rw [List.map_cons, ← List.singleton_append, run_append, each, ih, List.forM]
    simp only [bind, EStateM.bind]
    cases descend step tooDeep depth task state <;> rfl

/-- Tasks that may all go equally deep are done by a recursion on the depth, which can be
evaluated. -/
theorem run_eq_forM (step : α → EStateM ε σ (List α)) (tooDeep : ε) (depth : Nat)
    (tasks : List α) :
    run step tooDeep (tasks.map (depth, ·)) = tasks.forM (descend step tooDeep depth) := by
  refine run_map_eq_forM (fun task => ?_) tasks
  funext state
  induction depth generalizing task state with
  | zero =>
    rw [run, descend]
    simp only [bind, EStateM.bind]
    cases step task state with
    | error stop after => rfl
    | ok follow after =>
      cases follow with
      | nil => exact run.eq_def ..
      | cons first more => rfl
  | succ depth ih =>
    rw [run_one, descend]
    simp only [bind, EStateM.bind]
    cases step task state with
    | error stop after => rfl
    | ok follow after => exact congrFun (run_map_eq_forM (fun task => funext (ih task)) follow) after

theorem search_map_eq_findSomeM? {step : α → Except ε (β ⊕ List α)} {tooDeep : ε} {depth : Nat}
    (each : ∀ task, search step tooDeep [(depth, task)] = seek step tooDeep depth task)
    (tasks : List α) :
    search step tooDeep (tasks.map (depth, ·)) = tasks.findSomeM? (seek step tooDeep depth) := by
  induction tasks with
  | nil => exact search.eq_def ..
  | cons task tasks ih =>
    rw [List.map_cons, ← List.singleton_append, search_append, each, ih, List.findSomeM?]
    cases seek step tooDeep depth task with
    | error stop => rfl
    | ok found => cases found <;> rfl

theorem search_eq_findSomeM? (step : α → Except ε (β ⊕ List α)) (tooDeep : ε) (depth : Nat)
    (tasks : List α) :
    search step tooDeep (tasks.map (depth, ·)) = tasks.findSomeM? (seek step tooDeep depth) := by
  refine search_map_eq_findSomeM? (fun task => ?_) tasks
  induction depth generalizing task with
  | zero =>
    rw [search, seek]
    cases step task with
    | error stop => rfl
    | ok found =>
      rcases found with answer | _ | ⟨first, more⟩
      · rfl
      · exact search.eq_def ..
      · rfl
  | succ depth ih =>
    rw [search_one, seek]
    cases step task with
    | error stop => rfl
    | ok found =>
      cases found with
      | inl answer => rfl
      | inr follow => exact search_map_eq_findSomeM? ih follow

/-! ## Agendas that are done -/

/-- The first task has been done, and then those that it leads to, before the rest. -/
theorem run_cons_eq_ok {step : α → EStateM ε σ (List α)} {tooDeep : ε} {depth : Nat} {task : α}
    {rest : List (Nat × α)} {state last : σ}
    (ran : run step tooDeep ((depth, task) :: rest) state = .ok () last) :
    ∃ follow after, step task state = .ok follow after ∧
      run step tooDeep (follow.map (depth - 1, ·) ++ rest) after = .ok () last := by
  rw [run] at ran
  cases stepped : step task state with
  | error stop after =>
    rw [stepped] at ran
    cases ran
  | ok follow after =>
    rw [stepped] at ran
    refine ⟨follow, after, rfl, ?_⟩
    cases follow with
    | nil => exact ran
    | cons first more =>
      cases depth with
      | zero => cases ran
      | succ depth => exact ran

theorem search_cons_eq_ok {step : α → Except ε (β ⊕ List α)} {tooDeep : ε} {depth : Nat} {task : α}
    {rest : List (Nat × α)} {answer : Option β}
    (searched : search step tooDeep ((depth, task) :: rest) = .ok answer) :
    (∃ found, step task = .ok (.inl found) ∧ answer = some found) ∨
      ∃ follow, step task = .ok (.inr follow) ∧
        search step tooDeep (follow.map (depth - 1, ·) ++ rest) = .ok answer := by
  rw [search] at searched
  cases stepped : step task with
  | error stop =>
    rw [stepped] at searched
    cases searched
  | ok found =>
    rw [stepped] at searched
    cases found with
    | inl found =>
      cases searched
      exact .inl ⟨found, rfl, rfl⟩
    | inr follow =>
      refine .inr ⟨follow, rfl, ?_⟩
      cases follow with
      | nil => exact searched
      | cons first more =>
        cases depth with
        | zero => cases searched
        | succ depth => exact searched

/-- Every task of an agenda that is done has been done itself. -/
theorem exists_step_of_mem_trace {step : α → EStateM ε σ (List α)} {tooDeep : ε}
    {agenda : List (Nat × α)} {state last : σ} (ran : run step tooDeep agenda state = .ok () last)
    {item : α × σ} (member : item ∈ trace step agenda state) :
    ∃ follow after, step item.1 item.2 = .ok follow after := by
  fun_induction run step tooDeep agenda state with
  | case1 state => simp [trace] at member
  | case2 | case4 => cases ran
  | case3 state depth task rest after stepped ih =>
    rw [trace, stepped] at member
    obtain rfl | later := List.mem_cons.mp member
    · exact ⟨_, _, stepped⟩
    · exact ih ran later
  | case5 state task rest first more after stepped depth ih =>
    rw [trace, stepped] at member
    obtain rfl | later := List.mem_cons.mp member
    · exact ⟨_, _, stepped⟩
    · exact ih ran later

/-! ## What a run meets -/

/-- The step that also notes the task and the state that it meets. -/
def noting (step : α → EStateM ε σ (List α)) (task : α) : EStateM ε (σ × List (α × σ)) (List α) :=
  fun (state, met) =>
    match step task state with
    | .ok follow after => .ok follow (after, met ++ [(task, state)])
    | .error stop after => .error stop (after, met ++ [(task, state)])

/-- The trace is what a run notes that goes the same way. -/
theorem run_noting (step : α → EStateM ε σ (List α)) (tooDeep : ε) (agenda : List (Nat × α))
    (state : σ) (met : List (α × σ)) :
    run (noting step) tooDeep agenda (state, met) =
      match run step tooDeep agenda state with
      | .ok _ after => .ok () (after, met ++ trace step agenda state)
      | .error stop after => .error stop (after, met ++ trace step agenda state) := by
  fun_induction run step tooDeep agenda state generalizing met with
  | case1 state => rw [run, trace, List.append_nil]
  | case2 state depth task rest stop after stepped =>
    rw [run, trace]
    simp only [noting, stepped]
  | case3 state depth task rest after stepped ih =>
    rw [run, trace]
    simp only [noting, stepped, ih, List.append_assoc, List.singleton_append]
  | case4 state task rest first more after stepped =>
    rw [run, trace]
    simp only [noting, stepped]
  | case5 state task rest first more after stepped depth ih =>
    rw [run, trace]
    simp only [noting, stepped, ih, List.append_assoc, List.singleton_append]

/-- What a run has noted at its end, whether it is done or has stopped. -/
def noted : EStateM.Result ε (σ × List (α × σ)) Unit → List (α × σ)
  | .ok _ (_, met) => met
  | .error _ (_, met) => met

theorem trace_eq_noted (step : α → EStateM ε σ (List α)) (tooDeep : ε) (agenda : List (Nat × α))
    (state : σ) : trace step agenda state = noted (run (noting step) tooDeep agenda (state, [])) := by
  rw [run_noting]
  cases run step tooDeep agenda state <;> rfl

/-! ## Agendas without a bound -/

/-- The tasks have been done in order, with all that they lead to, however deep that went. -/
inductive Goes (step : α → EStateM ε σ (List α)) : List α → σ → σ → Prop where
  | done {state : σ} : Goes step [] state state
  | next {task : α} {follow rest : List α} {state middle last : σ}
    (stepped : step task state = .ok follow middle)
    (later : Goes step (follow ++ rest) middle last) : Goes step (task :: rest) state last

section Unbounded

variable {step : α → EStateM ε σ (List α)} {tooDeep : ε} {tasks : List α} {state last : σ}

/-- What is done within some depths is done alike within greater ones. -/
theorem run_deepen {agenda : List (Nat × α)} (ran : run step tooDeep agenda state = .ok () last)
    (extra : Nat) :
    run step tooDeep (agenda.map fun item => (item.1 + extra, item.2)) state = .ok () last := by
  fun_induction run step tooDeep agenda state with
  | case1 state => exact (run.eq_def ..).trans ran
  | case2 | case4 => cases ran
  | case3 state depth task rest after stepped ih =>
    rw [List.map_cons, run]
    simp only [stepped]
    exact ih ran
  | case5 state task rest first more after stepped depth ih =>
    have deeper := ih ran
    rw [List.map_append, List.map_map] at deeper
    rw [List.map_cons, run]
    simp only [stepped, Nat.succ_add]
    exact deeper

theorem run_mono {depth deeper : Nat} (le : depth ≤ deeper)
    (ran : run step tooDeep (tasks.map (depth, ·)) state = .ok () last) :
    run step tooDeep (tasks.map (deeper, ·)) state = .ok () last := by
  obtain ⟨extra, rfl⟩ := Nat.exists_eq_add_of_le le
  simpa only [List.map_map, Function.comp_def] using run_deepen ran extra

theorem goes_of_run {agenda : List (Nat × α)} (ran : run step tooDeep agenda state = .ok () last) :
    Goes step (agenda.map (·.2)) state last := by
  fun_induction run step tooDeep agenda state with
  | case1 state =>
    cases ran
    exact .done
  | case2 | case4 => cases ran
  | case3 state depth task rest after stepped ih => exact .next stepped (ih ran)
  | case5 state task rest first more after stepped depth ih =>
    refine .next stepped ?_
    simpa only [List.map_append, List.map_map, Function.comp_def, List.map_id'] using ih ran

/-- Tasks that come to an end without a bound do so within some depth. -/
theorem goes_iff_exists_run (tooDeep : ε) : Goes step tasks state last ↔
    ∃ depth, run step tooDeep (tasks.map (depth, ·)) state = .ok () last := by
  constructor
  · intro goes
    induction goes with
    | done => exact ⟨0, run.eq_def ..⟩
    | @next task follow rest state middle last stepped later ih =>
      obtain ⟨depth, ran⟩ := ih
      -- What the task leads to fits into this depth, and the task itself into one more. So does the
      -- rest, which would have fitted before.
      refine ⟨depth + 1, ?_⟩
      rw [List.map_append, run_append] at ran
      rw [List.map_cons, ← List.singleton_append, run_append, run_one, stepped]
      dsimp only
      split at ran
      case h_1 after followed =>
        rw [followed]
        exact run_mono (Nat.le_succ depth) ran
      case h_2 => cases ran
  · rintro ⟨depth, ran⟩
    simpa only [List.map_map, Function.comp_def, List.map_id'] using goes_of_run ran

end Unbounded

/-! ## What every task keeps -/

/-- What holds of the state beside the tasks that are left, whichever comes next, holds when none is
left. -/
theorem run_invariant {step : α → EStateM ε σ (List α)} {tooDeep : ε}
    {holds : σ → List (Nat × α) → Prop} {stops : ε → Prop}
    (each : ∀ depth task rest state, holds state ((depth, task) :: rest) →
      match step task state with
      | .ok follow after => (depth = 0 → follow ≠ [] → stops tooDeep) ∧
        holds after (follow.map (depth - 1, ·) ++ rest)
      | .error stop _ => stops stop)
    {agenda : List (Nat × α)} {state : σ} (start : holds state agenda) :
    match run step tooDeep agenda state with
    | .ok _ after => holds after []
    | .error stop _ => stops stop := by
  fun_induction run step tooDeep agenda state with
  | case1 state => exact start
  | case2 state depth task rest stop after stepped =>
    have kept := each depth task rest state start
    rwa [stepped] at kept
  | case3 state depth task rest after stepped ih =>
    have kept := each depth task rest state start
    rw [stepped] at kept
    exact ih kept.2
  | case4 state task rest first more after stepped =>
    have kept := each 0 task rest state start
    rw [stepped] at kept
    exact kept.1 rfl (List.cons_ne_nil first more)
  | case5 state task rest first more after stepped depth ih =>
    have kept := each (depth + 1) task rest state start
    rw [stepped] at kept
    exact ih kept.2

/-! ## Agendas that are deep enough -/

section Total

variable {tooDeep : ε} {fits : Nat → α → Prop} {agenda : List (Nat × α)}

private theorem fits_follow {depth : Nat} {task : α} {follow : List α} {rest : List (Nat × α)}
    (start : ∀ item ∈ (depth, task) :: rest, fits item.1 item.2)
    (below : ∀ next ∈ follow, 0 < depth ∧ fits (depth - 1) next) :
    ∀ item ∈ follow.map (depth - 1, ·) ++ rest, fits item.1 item.2 := by
  intro item member
  rcases List.mem_append.mp member with new | old
  · obtain ⟨next, place, rfl⟩ := List.mem_map.mp new
    exact (below next place).2
  · exact start item (List.mem_cons_of_mem _ old)

/-- Where every task is done and leads only to tasks that fit one level deeper, all are done. -/
theorem run_total {step : α → EStateM ε σ (List α)}
    (each : ∀ depth task state, fits depth task → ∃ follow after,
      step task state = .ok follow after ∧ ∀ next ∈ follow, 0 < depth ∧ fits (depth - 1) next)
    (start : ∀ item ∈ agenda, fits item.1 item.2) (state : σ) :
    ∃ after, run step tooDeep agenda state = .ok () after := by
  have kept := @run_invariant _ _ _ step tooDeep (fun _ agenda => ∀ item ∈ agenda, fits item.1 item.2)
    (fun _ => False) ?each agenda state start
  case each =>
    intro depth task rest state start
    obtain ⟨follow, after, stepped, below⟩ := each depth task state (start _ List.mem_cons_self)
    rw [stepped]
    refine ⟨fun floor inner => ?_, fits_follow start below⟩
    obtain ⟨next, member⟩ := List.exists_mem_of_ne_nil follow inner
    exact Nat.lt_irrefl 0 (floor ▸ (below next member).1)
  cases ran : run step tooDeep agenda state with
  | ok _ after => exact ⟨after, rfl⟩
  | error stop after =>
    rw [ran] at kept
    exact kept.elim

theorem search_total {step : α → Except ε (β ⊕ List α)}
    (each : ∀ depth task, fits depth task → ∃ answer, step task = .ok answer ∧
      ∀ follow, answer = .inr follow → ∀ next ∈ follow, 0 < depth ∧ fits (depth - 1) next)
    (start : ∀ item ∈ agenda, fits item.1 item.2) :
    ∃ answer, search step tooDeep agenda = .ok answer := by
  fun_induction search step tooDeep agenda with
  | case1 => exact ⟨none, rfl⟩
  | case2 depth task rest stop stepped =>
    obtain ⟨answer, done, _⟩ := each depth task (start _ List.mem_cons_self)
    cases stepped.symm.trans done
  | case3 depth task rest answer stepped => exact ⟨some answer, rfl⟩
  | case4 depth task rest stepped ih =>
    exact ih fun item member => start item (List.mem_cons_of_mem _ member)
  | case5 task rest first more stepped =>
    obtain ⟨answer, done, below⟩ := each 0 task (start _ List.mem_cons_self)
    cases stepped.symm.trans done
    exact absurd (below _ rfl first List.mem_cons_self).1 (Nat.lt_irrefl 0)
  | case6 task rest first more stepped depth ih =>
    obtain ⟨answer, done, below⟩ := each (depth + 1) task (start _ List.mem_cons_self)
    cases stepped.symm.trans done
    exact ih (fits_follow start (below _ rfl))

end Total

end SyntaxForest.Agenda
