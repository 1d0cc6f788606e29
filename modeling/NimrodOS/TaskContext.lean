import NimrodOS.TaskSteps

/-! Where a new task starts. Its saved registers are as `task_create` left them until it
is switched to, and that switch returns to the entry it was created with. -/
namespace NimrodOS.Tasks

open Libc

def State.regs (s : State) (i : Fin 16) : TaskRegs := (s.tasks i).regs

/-- A task that starts at `entry` and was not switched to yet. -/
structure Fresh (s : State) (i : Fin 16) (entry : Word) : Prop where
  taken : s.status i ≠ .unused
  apart : s.currentTask ≠ i
  start : (s.regs i).eip = entry

section

variable {sym : Symbols} {s : State} {i j next : Fin 16} {t : Task} {v : TaskState} {op : Op}
  {entry : Word}

theorem regs_setTask : (s.setTask i t).regs j = if j = i then t.regs else s.regs j :=
  apply_ite Task.regs _ _ _

@[simp] theorem regs_setState : (s.setState i v).regs j = s.regs j := by
  rw [State.setState,regs_setTask]
  split
  · rename_i same
    rw [same]
    rfl
  · rfl

theorem regs_wakeTask : (wakeTask s i).regs j = s.regs j := by
  unfold wakeTask
  split
  · exact regs_setState
  · rfl

theorem regs_wakeSleepers : (wakeSleepers s).regs j = s.regs j := by
  unfold wakeSleepers
  exact wakeTasks_keeps (P := fun t => t.regs j = s.regs j)
    (fun _ _ same => regs_wakeTask.trans same) _ rfl

/-- A switch saves registers in the slot that it leaves only. -/
theorem regs_switchTo (apart : s.currentTask ≠ i) : (switchTo sym s next).regs i = s.regs i := by
  rw [switchTo,switchContext]
  refine (regs_setTask (i := s.currentTask)).trans ?_
  rw [if_neg apart.symm]
  refine regs_setState.trans ?_
  change (ite _ _ _ : State).regs i = _
  split
  · exact regs_setState
  · rfl

/-- The registers that a switch to another task loads. -/
theorem eip_switchTo (apart : s.currentTask ≠ next) :
    (switchTo sym s next).cpu.eip = (s.regs next).eip := by
  have kept : (switchTo sym s next).regs next = s.regs next := regs_switchTo apart
  rw [← kept]
  rfl

theorem regs_schedule (sym : Symbols) (apart : s.currentTask ≠ i) :
    (taskSchedule sym s).1.regs i = s.regs i := by
  rw [taskSchedule_eq rfl]
  split
  · exact regs_wakeSleepers
  · refine (regs_switchTo ?_).trans regs_wakeSleepers
    rwa [currentTask_wakeSleepers]

theorem eip_schedule (apart : s.currentTask ≠ i) (dispatched : (taskSchedule sym s).2 = some i) :
    (taskSchedule sym s).1.cpu.eip = (s.regs i).eip := by
  rw [taskSchedule_eq rfl] at dispatched ⊢
  split at dispatched
  · cases dispatched
  · rename_i moves
    rw [if_neg moves]
    obtain rfl := Option.some.inj dispatched
    rw [eip_switchTo,regs_wakeSleepers]
    rwa [currentTask_wakeSleepers]

theorem schedule_currentTask (dispatched : (taskSchedule sym s).2 ≠ some i) (apart : s.currentTask ≠ i) :
    (taskSchedule sym s).1.currentTask ≠ i := by
  rcases schedule_cases sym s with ⟨-,stayed⟩ | ⟨next,picked,switched⟩
  · rwa [stayed.currentTask]
  · rw [switched.currentTask]
    rintro rfl
    exact dispatched picked

theorem schedule_taken (sym : Symbols) (taken : s.status i ≠ .unused) :
    (taskSchedule sym s).1.status i ≠ .unused := by
  rcases schedule_cases sym s with ⟨-,stayed⟩ | ⟨next,-,switched⟩
  · rwa [stayed.status]
  · rw [switched.status]
    split_ifs
    · exact TaskState.noConfusion
    · exact TaskState.noConfusion
    · exact taken

theorem enter_taken (taken : s.status i ≠ .unused) : (enter sym s op).status i ≠ .unused := by
  rw [status_enter]
  cases writes : written s op with
  | none => exact taken
  | some write =>
    obtain ⟨j,v⟩ := write
    dsimp only
    split_ifs
    · rcases written_cases writes with ⟨-,-,rfl⟩ | ⟨-,-,rfl⟩ | ⟨-,-,rfl⟩ | ⟨-,-,-,rfl⟩
      all_goals exact TaskState.noConfusion
    · exact taken

/-- Before it schedules, an operation gives registers to a slot that was unused only. -/
theorem regs_enter (taken : s.status i ≠ .unused) : (enter sym s op).regs i = s.regs i := by
  rcases enter_cases sym s op with ⟨-,kept⟩ | ⟨j,t,-,regs,kept⟩
  · rw [State.regs,kept]
    rfl
  · rw [State.regs,kept]
    by_cases here : i = j
    · rw [if_pos here,regs (here ▸ taken),here]
      rfl
    · rw [if_neg here]
      rfl

/-! Creation. -/

theorem currentTask_taskCreate {name : CString} :
    (taskCreate sym s name entry).1.currentTask = s.currentTask := by
  have same : (enter sym s (.create name entry)).currentTask = s.currentTask := currentTask_enter
  exact same

theorem status_taskCreate {name : CString} : (taskCreate sym s name entry).1.status i =
    if unusedSlot s = some i then .ready else s.status i := by
  have same : (enter sym s (.create name entry)).status i = _ := status_enter
  refine same.trans ?_
  simp only [written]
  cases unusedSlot s with
  | none => simp
  | some j => simp [eq_comm]

/-! Fresh tasks. -/

theorem taskCreate_fresh (sym : Symbols) (name : CString) (entry : Word)
    (current : s.status s.currentTask ≠ .unused) (found : unusedSlot s = some i) :
    Fresh (taskCreate sym s name entry).1 i entry := by
  refine ⟨?_,?_,?_⟩
  · rw [status_taskCreate,if_pos found]
    exact TaskState.noConfusion
  · rw [currentTask_taskCreate]
    rintro rfl
    exact current (unusedSlot_some found)
  · simp only [taskCreate,found]
    exact congrArg TaskRegs.eip (regs_setTask.trans (if_pos rfl))

theorem Fresh.enter (fresh : Fresh s i entry) : Fresh (enter sym s op) i entry where
  taken := enter_taken fresh.taken
  apart := currentTask_enter.trans_ne fresh.apart
  start := (congrArg TaskRegs.eip (regs_enter fresh.taken)).trans fresh.start

theorem Fresh.taskCreate {name : CString} {other : Word} (fresh : Fresh s i entry) :
    Fresh (taskCreate sym s name other).1 i entry := by
  have kept : Fresh (Tasks.enter sym s (.create name other)) i entry := fresh.enter
  exact kept

/-- Until it is switched to, a fresh task stays fresh, -/
theorem Fresh.step (fresh : Fresh s i entry) (waits : (step sym s op).2 ≠ some i) :
    Fresh (step sym s op).1 i entry := by
  have entered : Fresh (Tasks.enter sym s op) i entry := fresh.enter
  by_cases calls : Calls s op
  · rw [step_of_calls calls] at waits ⊢
    refine ⟨schedule_taken sym entered.taken,schedule_currentTask waits entered.apart,?_⟩
    rw [regs_schedule sym entered.apart]
    exact entered.start
  · rw [step_of_quiet calls]
    exact entered

/-- and then it starts where it was created to. -/
theorem Fresh.starts (fresh : Fresh s i entry) (dispatched : (Tasks.step sym s op).2 = some i) :
    (Tasks.step sym s op).1.cpu.eip = entry := by
  have entered : Fresh (Tasks.enter sym s op) i entry := fresh.enter
  by_cases calls : Calls s op
  · rw [step_of_calls calls] at dispatched ⊢
    exact (eip_schedule entered.apart dispatched).trans entered.start
  · rw [step_of_quiet calls] at dispatched
    cases dispatched

/-- The slot of the current task stays taken. -/
theorem step_current (sym : Symbols) (op : Op) (current : s.status s.currentTask ≠ .unused) :
    (step sym s op).1.status (step sym s op).1.currentTask ≠ .unused := by
  by_cases calls : Calls s op
  · rw [step_of_calls calls]
    rcases schedule_cases sym (enter sym s op) with ⟨-,stayed⟩ | ⟨next,-,switched⟩
    · rw [stayed.currentTask,stayed.status]
      simp [stayed.running]
    · rw [switched.currentTask,switched.status]
      simp
  · rw [step_of_quiet calls]
    dsimp only
    rw [currentTask_enter]
    exact enter_taken current

end

end NimrodOS.Tasks
