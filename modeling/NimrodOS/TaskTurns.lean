import NimrodOS.TaskInvariant

/-! Whose turn it is. The search for the next task goes on from the current one, so every
switch brings a ready task that is passed over nearer to its turn. -/
namespace NimrodOS.Tasks

open Transition Libc Cyclic

section

variable {sym : Symbols} {s t : State} {op : Op} {i x y : Fin 16}

/-- A runnable task is picked, or else it comes nearer and is ready afterwards. -/
theorem schedule_runnable (sym : Symbols) (runnable : Runnable s y) :
    ∃ next, (taskSchedule sym s).2 = some next ∧ (taskSchedule sym s).1.currentTask = next ∧
      (next = y ∨ gap next y < gap s.currentTask y ∧
        (taskSchedule sym s).1.status y = .ready) := by
  rcases schedule_cases sym s with ⟨-,stayed⟩ | ⟨next,dispatched,switched⟩
  · exact absurd runnable (stayed.alone y)
  refine ⟨next,dispatched,switched.currentTask,?_⟩
  rcases switched.picked with ⟨-,nearest⟩ | ⟨alone,-⟩
  · by_cases same : next = y
    · exact .inl same
    · refine .inr ⟨nearest y runnable same,?_⟩
      rw [switched.status,if_neg (Ne.symm same)]
      rcases runnable with ready | due
      · rw [ready]
        exact ite_self _
      · rw [if_pos (.inr due)]
  · exact absurd runnable (alone y)

/-- The task that `task_schedule` picks is running afterwards. -/
theorem dispatched_running (dispatched : (step sym s op).2 = some x) :
    (step sym s op).1.currentTask = x ∧ (step sym s op).1.status x = .running := by
  by_cases calls : Calls s op
  · rw [step_of_calls calls] at dispatched ⊢
    rcases schedule_cases sym (enter sym s op) with ⟨none,-⟩ | ⟨next,picked,switched⟩
    · cases none.symm.trans dispatched
    · obtain rfl := Option.some.inj (picked.symm.trans dispatched)
      rw [switched.status,if_pos rfl]
      exact ⟨switched.currentTask,rfl⟩
  · rw [step_of_quiet calls] at dispatched
    cases dispatched

/-- While a task waits in READY, the turn moves towards it or stays where it is. -/
theorem step_waiting (sym : Symbols) (op : Op) (ready : s.status y = .ready)
    (apart : s.currentTask ≠ y) :
    ((step sym s op).2 = none ∧ (step sym s op).1.currentTask = s.currentTask) ∨
      ∃ next, (step sym s op).2 = some next ∧
        (next = y ∨ gap next y < gap s.currentTask y) := by
  by_cases calls : Calls s op
  · rw [step_of_calls calls]
    have stays : (enter sym s op).status y = .ready := by
      rw [status_enter]
      cases writes : written s op with
      | none => exact ready
      | some write =>
        obtain ⟨j,v⟩ := write
        -- an operation that schedules writes to the current slot only
        have mine : j = s.currentTask := by
          rcases written_cases writes with
            ⟨⟨_,_,rfl⟩,-⟩ | ⟨-,here,-⟩ | ⟨-,here,-⟩ | ⟨kills,-⟩
          · exact calls.elim
          · exact here
          · exact here
          · exact absurd calls kills.quiet
        dsimp only
        rw [mine,if_neg (Ne.symm apart)]
        exact ready
    obtain ⟨next,picked,-,nearer⟩ := schedule_runnable sym (.inl stays)
    rw [currentTask_enter] at nearer
    exact .inr ⟨next,picked,nearer.imp_right And.left⟩
  · rw [step_of_quiet calls]
    exact .inl ⟨rfl,currentTask_enter⟩

/-- As long as a task is READY in every state, nobody comes nearer to it but by turns. -/
theorem run_waiting {past : List (State × Op)} (run : Run (Step sym) s past t)
    (ready : ∀ u ∈ past.map Prod.fst ++ [t], u.status y = .ready) (apart : s.currentTask ≠ y) :
    t.currentTask ≠ y ∧ gap t.currentTask y ≤ gap s.currentTask y := by
  induction run with
  | nil => exact ⟨apart,Nat.le_refl _⟩
  | @snoc past state next op _ moved ih =>
    obtain rfl := moved
    simp only [List.map_append,List.forall_mem_append,List.map_cons,List.map_nil,
      List.forall_mem_singleton] at ready
    obtain ⟨⟨earlier,here⟩,after⟩ := ready
    obtain ⟨before,reached⟩ := ih (List.forall_mem_append.mpr ⟨earlier,by simpa using here⟩)
    rcases step_waiting sym op here before with ⟨-,same⟩ | ⟨z,dispatched,nearer⟩
    · rw [same]
      exact ⟨before,reached⟩
    · obtain ⟨current,running⟩ := dispatched_running dispatched
      have other : z ≠ y := by
        rintro rfl
        cases running.symm.trans after
      rw [current]
      exact ⟨other,Nat.le_trans (Nat.le_of_lt (nearer.resolve_left other)) reached⟩

/-- Between two dispatches of one task no other task is READY all the time. -/
theorem round_robin (sym : Symbols) (s : State) {past : List (State × Op)} {last : State}
    (run : Run (Step sym) (taskInit s) past last) {x y : Fin 16} (other : y ≠ x)
    {before between after : List (State × Op)} {first second : State} {op op' : Op}
    (whole : past = before ++ (first,op) :: between ++ (second,op') :: after)
    (once : (step sym first op).2 = some x) (again : (step sym second op').2 = some x) :
    ∃ t ∈ between.map Prod.fst ++ [second], t.status y ≠ .ready := by
  by_contra waits
  push Not at waits
  subst whole
  rw [List.append_assoc,List.cons_append] at run
  obtain ⟨-,next,rfl,rest⟩ := run.split
  obtain ⟨current,-⟩ := dispatched_running once
  have apart : (step sym first op).1.currentTask ≠ y := by
    rw [current]
    exact other.symm
  obtain ⟨behind,reached⟩ := run_waiting rest.split.1 waits apart
  have ready : second.status y = .ready := waits second (by simp)
  rw [current] at reached
  rcases step_waiting sym op' ready behind with ⟨none,-⟩ | ⟨z,picked,nearer⟩
  · cases none.symm.trans again
  · obtain rfl := Option.some.inj (picked.symm.trans again)
    have closer := nearer.resolve_left other.symm
    omega

/-- The kernel and one other task take turns. -/
def takeTurns : List Op := [.create kernelName 0,.yield,.yield,.yield]

theorem round_robin_takeTurns :
    let next : State → Op → State := fun s op => (step default s op).1
    let first := next (taskInit default) (.create kernelName 0)
    let between := [(next first .yield,Op.yield)]
    let second := next (next first .yield) .yield
    ∃ t ∈ between.map Prod.fst ++ [second], t.status 0 ≠ .ready := by
  intro next first between second
  have run := run_trace next (taskInit default) takeTurns
  have once : (step default first .yield).2 = some 1 := by decide +kernel
  have again : (step default second .yield).2 = some 1 := by decide +kernel
  have whole : trace next (taskInit default) takeTurns =
      [(taskInit default,.create kernelName 0)] ++ (first,.yield) :: between ++
        (second,.yield) :: [] := rfl
  exact round_robin default default run (by decide) whole once again

end

end NimrodOS.Tasks
