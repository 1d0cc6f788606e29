import NimrodOS.Task

/-! What one operation can do to the table: the slot it writes before it schedules, and
the two ways in which `task_schedule` ends. -/
namespace NimrodOS.Tasks

open Libc

namespace State

def status (s : State) (i : Fin 16) : TaskState := (s.tasks i).state

def wakeTick (s : State) (i : Fin 16) : Word := (s.tasks i).wakeTick

variable {s : State} {i j : Fin 16} {t : Task} {v : TaskState}

theorem status_setTask : (s.setTask i t).status j = if j = i then t.state else s.status j :=
  apply_ite Task.state _ _ _

theorem status_setState : (s.setState i v).status j = if j = i then v else s.status j :=
  status_setTask

theorem wakeTick_setTask :
    (s.setTask i t).wakeTick j = if j = i then t.wakeTick else s.wakeTick j :=
  apply_ite Task.wakeTick _ _ _

@[simp] theorem wakeTick_setState : (s.setState i v).wakeTick j = s.wakeTick j := by
  rw [setState,wakeTick_setTask]
  split
  · rename_i same
    rw [same]
    rfl
  · rfl

@[simp] theorem currentTask_setState : (s.setState i v).currentTask = s.currentTask := rfl

end State

/-! Waking. -/

/-- A sleeper whose time has come, as the waking loop decides it. -/
def Due (s : State) (i : Fin 16) : Prop :=
  s.status i = .sleeping ∧ s.tickCount ≥ s.wakeTick i

instance (s : State) (i : Fin 16) : Decidable (Due s i) := by
  unfold Due
  infer_instance

/-- What the search of `find_next_task` accepts. -/
def Runnable (s : State) (i : Fin 16) : Prop := s.status i = .ready ∨ Due s i

section Wake

variable {s : State} {i j : Fin 16}

theorem status_wakeTask :
    (wakeTask s i).status j = if j = i ∧ Due s i then .ready else s.status j := by
  by_cases due : Due s i
  · rw [show wakeTask s i = s.setState i .ready from if_pos due,State.status_setState]
    simp [due]
  · rw [show wakeTask s i = s from if_neg due]
    simp [due]

@[simp] theorem wakeTick_wakeTask : (wakeTask s i).wakeTick j = s.wakeTick j := by
  unfold wakeTask
  split
  · exact State.wakeTick_setState
  · rfl

@[simp] theorem currentTask_wakeTask : (wakeTask s i).currentTask = s.currentTask := by
  unfold wakeTask
  split <;> rfl

@[simp] theorem tickCount_wakeTask : (wakeTask s i).tickCount = s.tickCount := by
  unfold wakeTask
  split <;> rfl

theorem due_wakeTask : Due (wakeTask s i) j ↔ Due s j ∧ j ≠ i := by
  unfold Due
  rw [status_wakeTask,tickCount_wakeTask,wakeTick_wakeTask]
  by_cases same : j = i
  · subst same
    by_cases due : Due s j
    · simp [due]
    · rw [if_neg fun both => due both.2]
      exact iff_of_false due fun both => both.2 rfl
  · simp [same]

/-- The rounds of the waking loop for the slots `is`. -/
theorem status_wakeTasks (is : List (Fin 16)) (s : State) (j : Fin 16) :
    (is.foldl wakeTask s).status j = if j ∈ is ∧ Due s j then .ready else s.status j := by
  induction is generalizing s with
  | nil => simp
  | cons i is ih =>
    simp only [List.foldl_cons,ih,due_wakeTask,status_wakeTask]
    by_cases same : j = i
    · subst same
      simp
    · simp [same]

theorem status_wakeSleepers :
    (wakeSleepers s).status j = if Due s j then .ready else s.status j := by
  have everyone : j ∈ List.finRange 16 ∧ Due s j ↔ Due s j := and_iff_right (List.mem_finRange j)
  unfold wakeSleepers
  exact (status_wakeTasks _ s j).trans (if_congr everyone rfl rfl)

/-- Whatever every round of the waking loop keeps, the whole loop keeps. -/
theorem wakeTasks_keeps {P : State → Prop} (kept : ∀ s i, P s → P (wakeTask s i))
    (is : List (Fin 16)) (before : P s) : P (is.foldl wakeTask s) := by
  induction is generalizing s with
  | nil => exact before
  | cons i is ih => exact ih (kept s i before)

@[simp] theorem wakeTick_wakeSleepers : (wakeSleepers s).wakeTick j = s.wakeTick j := by
  unfold wakeSleepers
  exact wakeTasks_keeps (P := fun t => t.wakeTick j = s.wakeTick j)
    (fun _ _ same => wakeTick_wakeTask.trans same) _ rfl

@[simp] theorem currentTask_wakeSleepers : (wakeSleepers s).currentTask = s.currentTask := by
  unfold wakeSleepers
  exact wakeTasks_keeps (P := fun t => t.currentTask = s.currentTask)
    (fun _ _ same => currentTask_wakeTask.trans same) _ rfl

@[simp] theorem tickCount_wakeSleepers : (wakeSleepers s).tickCount = s.tickCount := by
  unfold wakeSleepers
  exact wakeTasks_keeps (P := fun t => t.tickCount = s.tickCount)
    (fun _ _ same => tickCount_wakeTask.trans same) _ rfl

theorem ready_wakeSleepers : (wakeSleepers s).status j = .ready ↔ Runnable s j := by
  rw [status_wakeSleepers,Runnable]
  split <;> simp_all

theorem running_wakeSleepers : (wakeSleepers s).status j = .running ↔ s.status j = .running := by
  rw [status_wakeSleepers]
  split
  · rename_i due
    simp [due.1]
  · rfl

theorem nextReady_none : nextReady (wakeSleepers s) = none ↔ ∀ i, ¬Runnable s i := by
  rw [nextReady,Cyclic.search_eq_none]
  refine forall_congr' fun i => ?_
  rw [← ready_wakeSleepers]
  simp [State.status]

theorem nextReady_some (found : nextReady (wakeSleepers s) = some i) : Runnable s i ∧
    ∀ j, Runnable s j → i ≠ j → Cyclic.gap i j < Cyclic.gap s.currentTask j := by
  rw [nextReady,currentTask_wakeSleepers] at found
  have accepts (j : Fin 16) (runnable : Runnable s j) :
      (((wakeSleepers s).tasks j).state == .ready) = true :=
    beq_iff_eq.mpr (ready_wakeSleepers.mpr runnable)
  refine ⟨ready_wakeSleepers.mp ?_,fun j runnable other => ?_⟩
  · exact beq_iff_eq.mp (Cyclic.search_eq_some found).1
  · exact Cyclic.gap_lt_of_search found (accepts j runnable) other

end Wake

/-! Scheduling. -/

/-- The current task goes on, and no other could run. -/
structure Stayed (s t : State) : Prop where
  running : s.status s.currentTask = .running
  alone : ∀ i, ¬Runnable s i
  currentTask : t.currentTask = s.currentTask
  status : ∀ i, t.status i = s.status i
  wakeTick : ∀ i, t.wakeTick i = s.wakeTick i
  tickCount : t.tickCount = s.tickCount

/-- The next runnable slot, or slot 0 when there is none and the current task stopped. -/
def Picked (s : State) (next : Fin 16) : Prop :=
  (Runnable s next ∧
      ∀ j, Runnable s j → next ≠ j → Cyclic.gap next j < Cyclic.gap s.currentTask j) ∨
    ((∀ i, ¬Runnable s i) ∧ s.status s.currentTask ≠ .running ∧ next = 0)

structure Switched (s t : State) (next : Fin 16) : Prop where
  picked : Picked s next
  currentTask : t.currentTask = next
  status : ∀ i, t.status i =
    if i = next then .running
    else if i = s.currentTask ∧ s.status i = .running ∨ Due s i then .ready
    else s.status i
  wakeTick : ∀ i, t.wakeTick i = s.wakeTick i
  tickCount : t.tickCount = s.tickCount

section Schedule

variable {sym : Symbols} {s t : State} {i next : Fin 16}

theorem status_switchContext {old : Fin 16} :
    (switchContext sym s old next).status i = s.status i := by
  unfold switchContext
  exact State.status_setTask.trans (by split <;> simp_all [State.status])

theorem wakeTick_switchContext {old : Fin 16} :
    (switchContext sym s old next).wakeTick i = s.wakeTick i := by
  unfold switchContext
  exact State.wakeTick_setTask.trans (by split <;> simp_all [State.wakeTick])

/-- The writes of `task_schedule` once `next` is chosen. -/
def switchTo (sym : Symbols) (s : State) (next : Fin 16) : State :=
  let old := s.currentTask
  let s := if (s.tasks old).state = .running then s.setState old .ready else s
  switchContext sym (State.setState {s with currentTask := next} next .running) old next

theorem currentTask_switchTo : (switchTo sym s next).currentTask = next := rfl

theorem tickCount_switchTo : (switchTo sym s next).tickCount = s.tickCount := by
  change (ite _ _ _ : State).tickCount = _
  split <;> rfl

theorem wakeTick_switchTo : (switchTo sym s next).wakeTick i = s.wakeTick i := by
  rw [switchTo,wakeTick_switchContext,State.wakeTick_setState]
  change (ite _ _ _ : State).wakeTick i = _
  split
  · exact State.wakeTick_setState
  · rfl

theorem status_switchTo : (switchTo sym s next).status i =
    if i = next then .running
    else if i = s.currentTask ∧ s.status i = .running then .ready
    else s.status i := by
  rw [switchTo,status_switchContext,State.status_setState]
  refine ite_congr rfl (fun _ => rfl) fun _ => ?_
  change (ite _ _ _ : State).status i = _
  by_cases yields : (s.tasks s.currentTask).state = .running
  · rw [if_pos yields,State.status_setState]
    by_cases old : i = s.currentTask
    · subst old
      simp [State.status,yields]
    · simp [old]
  · rw [if_neg yields,if_neg]
    rintro ⟨rfl,running⟩
    exact yields running

theorem switchTo_switched (picked : Picked s next) :
    Switched s (switchTo sym (wakeSleepers s) next) next where
  picked := picked
  currentTask := currentTask_switchTo
  wakeTick i := wakeTick_switchTo.trans wakeTick_wakeSleepers
  tickCount := tickCount_switchTo.trans tickCount_wakeSleepers
  status i := by
    simp only [status_switchTo,currentTask_wakeSleepers,status_wakeSleepers]
    by_cases due : Due s i
    · simp [due]
    · simp [due]

/-- The choice of `find_next_task` among the woken. -/
def choose (w : State) : Fin 16 :=
  match nextReady w with
  | some idx => idx
  | none => if w.status w.currentTask = .running then w.currentTask else 0

theorem findNextTask_eq {w : State} (woken : wakeSleepers s = w) :
    findNextTask s = (w,choose w) := by
  simp only [findNextTask,woken,choose]
  cases nextReady w with
  | some idx => rfl
  | none => exact (apply_ite (Prod.mk w) _ _ _).symm

theorem taskSchedule_eq {w : State} (woken : wakeSleepers s = w) : taskSchedule sym s =
    if choose w = w.currentTask ∧ w.status w.currentTask = .running then (w,none)
    else (switchTo sym w (choose w),some (choose w)) := by
  simp only [taskSchedule,findNextTask_eq woken]
  rfl

/-- The two ways in which `task_schedule` ends. -/
theorem schedule_cases (sym : Symbols) (s : State) :
    ((taskSchedule sym s).2 = none ∧ Stayed s (taskSchedule sym s).1) ∨
      ∃ next, (taskSchedule sym s).2 = some next ∧ Switched s (taskSchedule sym s).1 next := by
  have running : (wakeSleepers s).status (wakeSleepers s).currentTask = .running ↔
      s.status s.currentTask = .running := by
    rw [currentTask_wakeSleepers]
    exact running_wakeSleepers
  rw [taskSchedule_eq rfl]
  cases found : nextReady (wakeSleepers s) with
  | some next =>
    have picked := nextReady_some found
    have chosen : choose (wakeSleepers s) = next := by simp only [choose,found]
    have moves : ¬(next = (wakeSleepers s).currentTask ∧
        (wakeSleepers s).status (wakeSleepers s).currentTask = .running) := by
      rintro ⟨rfl,goes⟩
      cases (ready_wakeSleepers.mpr picked.1).symm.trans goes
    rw [chosen,if_neg moves]
    exact .inr ⟨next,rfl,switchTo_switched (.inl picked)⟩
  | none =>
    have alone := nextReady_none.mp found
    by_cases goes : s.status s.currentTask = .running
    · have chosen : choose (wakeSleepers s) = (wakeSleepers s).currentTask := by
        simp only [choose,found,running.mpr goes,if_true]
      rw [chosen,if_pos ⟨rfl,running.mpr goes⟩]
      refine .inl ⟨rfl,goes,alone,currentTask_wakeSleepers,fun i => ?_,fun i => ?_,?_⟩
      · rw [status_wakeSleepers,if_neg fun due => alone i (.inr due)]
      · exact wakeTick_wakeSleepers
      · exact tickCount_wakeSleepers
    · have stopped := mt running.mp goes
      have chosen : choose (wakeSleepers s) = 0 := by
        simp only [choose,found,stopped,if_false]
      rw [chosen,if_neg fun both => stopped both.2]
      exact .inr ⟨0,rfl,switchTo_switched (.inr ⟨alone,goes,rfl⟩)⟩

end Schedule

/-! Operations: a write to at most one slot, then perhaps `task_schedule`. -/

/-- The operation goes on to call `task_schedule`. -/
def Calls (s : State) : Op → Prop
  | .yield | .sleepTicks _ | .exit => True
  | .timer => s.preemptEnabled = true ∧ (s.tickCount + 1) % 5 = 0
  | _ => False

instance (s : State) (op : Op) : Decidable (Calls s op) := by
  cases op <;> unfold Calls <;> infer_instance

/-- The state in which it calls `task_schedule`, or else its result. -/
def enter (sym : Symbols) (s : State) : Op → State
  | .create name entry => (taskCreate sym s name entry).1
  | .yield => s
  | .timer => {s with tickCount := s.tickCount + 1}
  | .sleepTicks ticks =>
    let s := s.setState s.currentTask .sleeping
    let t := s.tasks s.currentTask
    s.setTask s.currentTask {t with wakeTick := s.tickCount + ticks}
  | .exit =>
    let s := s.setState s.currentTask .dead
    {s with taskCountVal := s.taskCountVal - 1}
  | .kill id => (cmdKill s id).1
  | .enablePreempt => timerEnablePreempt s
  | .disablePreempt => timerDisablePreempt s
  | .compute cpu => {s with cpu := cpu}

/-- The slot that a number leads to, when it is neither 0 nor too large. -/
def target (id : KillId) : Option (Fin 16) :=
  if id.val = 0 ∨ 16 ≤ id.val.toInt then none else slotAt id.val

def Op.Kills (i : Fin 16) : Op → Prop
  | .kill id => target id = some i
  | _ => False

/-- The slot whose state the operation sets before that, and to what. -/
def written (s : State) : Op → Option (Fin 16 × TaskState)
  | .create _ _ => (unusedSlot s).map (·,.ready)
  | .sleepTicks _ => some (s.currentTask,.sleeping)
  | .exit => some (s.currentTask,.dead)
  | .kill id => (target id).bind fun i =>
    if s.status i ≠ .unused ∧ s.status i ≠ .dead then some (i,.dead) else none
  | _ => none

section Operations

variable {sym : Symbols} {s : State} {op : Op} {i j : Fin 16} {v : TaskState}

theorem step_of_calls (calls : Calls s op) :
    step sym s op = taskSchedule sym (enter sym s op) := by
  cases op with
  | timer => exact if_pos calls
  | yield | sleepTicks | exit => rfl
  | create | kill | enablePreempt | disablePreempt | compute => exact calls.elim

theorem step_of_quiet (quiet : ¬Calls s op) : step sym s op = (enter sym s op,none) := by
  cases op with
  | timer => exact if_neg quiet
  | yield | sleepTicks | exit => exact absurd trivial quiet
  | create | kill | enablePreempt | disablePreempt | compute => rfl

theorem Op.Kills.quiet (kills : op.Kills i) : ¬Calls s op := by
  cases op with
  | kill _ => exact not_false
  | _ => exact kills.elim

theorem unusedSlot_some (found : unusedSlot s = some j) : s.status j = .unused := by
  unfold unusedSlot at found
  exact beq_iff_eq.mp (Fin.find?_eq_some_iff.mp found).1

theorem unusedSlot_none : unusedSlot s = none ↔ ∀ i, s.status i ≠ .unused := by
  unfold unusedSlot
  rw [Fin.find?_eq_none_iff]
  exact forall_congr' fun i => beq_eq_false_iff_ne

theorem taskCreate_some (sym : Symbols) (name : CString) (entry : Word)
    (found : unusedSlot s = some j) :
    ∃ t : Task, t.state = .ready ∧ (taskCreate sym s name entry).1 =
      {s.setTask j t with taskCountVal := s.taskCountVal + 1} := by
  simp only [taskCreate,found]
  exact ⟨_,rfl,rfl⟩

theorem taskCreate_none (sym : Symbols) (name : CString) (entry : Word)
    (full : unusedSlot s = none) :
    taskCreate sym s name entry = (s,-1) := by
  simp only [taskCreate,full]

theorem slotAt_eq_some {id : Word} : slotAt id = some i ↔ id.toNat % 2^30 = i := by
  have apart (j : Fin 16) : (id * 4180 == BitVec.ofNat 32 (j * 4180)) = true ↔ id.toNat % 2^30 = j := by
    have bound := j.isLt
    have small := id.isLt
    have size : BitVec.toNat (4180 : Word) = 4180 := rfl
    rw [beq_iff_eq,← BitVec.toNat_inj,BitVec.toNat_mul,BitVec.toNat_ofNat,size]
    omega
  unfold slotAt
  rw [Fin.find?_eq_some_iff,apart]
  refine and_iff_left_of_imp fun here j before => ?_
  have other : ¬id.toNat % 2^30 = j := by omega
  exact Bool.eq_false_iff.mpr (mt (apart j).mp other)

theorem slotAt_number (i : Fin 16) : slotAt (BitVec.ofNat 32 i) = some i := by
  have bound := i.isLt
  rw [slotAt_eq_some,BitVec.toNat_ofNat]
  omega

/-- The number of a slot. -/
def KillId.of (i : Fin 16) : KillId := ⟨BitVec.ofNat 32 i,.inr (Option.isSome_of_eq_some (slotAt_number i))⟩

theorem target_eq_some {id : KillId} :
    target id = some i ↔ id.val ≠ 0 ∧ id.val.toInt < 16 ∧ id.val.toNat % 2^30 = i := by
  rw [target,← slotAt_eq_some]
  split_ifs with refused
  · refine iff_of_false not_false ?_
    rintro ⟨nonzero,small,-⟩
    exact refused.elim nonzero (not_le.mpr small)
  · rw [not_or,not_le] at refused
    exact (and_iff_right refused.1).symm.trans (and_congr_right fun _ => (and_iff_right refused.2).symm)

/-- What `cmd_kill` does is decided by the slot that its number leads to. -/
theorem cmdKill_target (s : State) (id : KillId) :
    match target id with
    | some i => cmdKill s id =
        if s.status i = .unused ∨ s.status i = .dead then (s,.noSuchTask) else (s.setState i .dead,.killed)
    | none => ∃ reply ≠ .killed, cmdKill s id = (s,reply) := by
  unfold target cmdKill
  by_cases kernel : id.val = 0
  · simp only [kernel,true_or,if_true]
    exact ⟨.kernelTask,by decide,rfl⟩
  by_cases large : 16 ≤ id.val.toInt
  · simp only [kernel,large,or_true,if_true,if_false,dif_pos]
    exact ⟨.noSuchTask,by decide,rfl⟩
  · obtain ⟨i,found⟩ := Option.isSome_iff_exists.mp (id.property.resolve_left large)
    simp only [kernel,large,or_self,if_false,dif_neg,not_false_eq_true,found,Option.get_some]
    rfl

theorem cmdKill_cases (s : State) (id : KillId) :
    (∃ i : Fin 16, target id = some i ∧ written s (.kill id) = some (i,.dead) ∧
      cmdKill s id = (s.setState i .dead,.killed)) ∨
    (written s (.kill id) = none ∧ (cmdKill s id).1 = s ∧ (cmdKill s id).2 ≠ .killed) := by
  have done := cmdKill_target s id
  rw [written]
  cases leads : target id with
  | none =>
    rw [leads] at done
    obtain ⟨reply,other,same⟩ := done
    rw [same]
    exact .inr ⟨rfl,rfl,other⟩
  | some i =>
    rw [leads] at done
    dsimp only at done
    rw [done,Option.bind_some]
    by_cases gone : s.status i = .unused ∨ s.status i = .dead
    · rw [if_pos gone,if_neg fun both => gone.elim both.1 both.2]
      exact .inr ⟨rfl,rfl,fun same => by cases same⟩
    · rw [if_neg gone,if_pos (not_or.mp gone)]
      exact .inl ⟨i,rfl,rfl,rfl⟩

/-- The slot that is written to gets another record, which has new registers only when it
was unused, and every other slot keeps its own. -/
theorem enter_cases (sym : Symbols) (s : State) (op : Op) :
    (written s op = none ∧ ∀ i, (enter sym s op).tasks i = s.tasks i) ∨
      ∃ j t, written s op = some (j,t.state) ∧ (s.status j ≠ .unused → t.regs = (s.tasks j).regs) ∧
        ∀ i, (enter sym s op).tasks i = if i = j then t else s.tasks i := by
  cases op with
  | create name entry =>
    cases found : unusedSlot s with
    | none =>
      have writes : written s (.create name entry) = none := by simp only [written,found,Option.map_none]
      rw [enter,taskCreate_none sym name entry found]
      exact .inl ⟨writes,fun _ => rfl⟩
    | some slot =>
      obtain ⟨t,ready,same⟩ := taskCreate_some sym name entry found
      have writes : written s (.create name entry) = some (slot,t.state) := by
        simp only [written,found,ready,Option.map_some]
      rw [enter,same]
      exact .inr ⟨slot,t,writes,fun taken => absurd (unusedSlot_some found) taken,fun _ => rfl⟩
  | sleepTicks ticks =>
    let t : Task := {s.tasks s.currentTask with state := .sleeping,wakeTick := s.tickCount + ticks}
    refine .inr ⟨s.currentTask,t,rfl,fun _ => rfl,fun i => ?_⟩
    by_cases here : i = s.currentTask
    · simp [enter,State.setTask,State.setState,here,t]
    · simp [enter,State.setTask,State.setState,here]
  | exit =>
    exact .inr ⟨s.currentTask,{s.tasks s.currentTask with state := .dead},rfl,fun _ => rfl,fun _ => rfl⟩
  | kill id =>
    rcases cmdKill_cases s id with ⟨j,-,writes,same⟩ | ⟨writes,same,-⟩
    · rw [enter,same]
      exact .inr ⟨j,{s.tasks j with state := .dead},writes,fun _ => rfl,fun _ => rfl⟩
    · rw [enter,same]
      exact .inl ⟨writes,fun _ => rfl⟩
  | yield | timer | enablePreempt | disablePreempt | compute => exact .inl ⟨rfl,fun _ => rfl⟩

theorem status_enter : (enter sym s op).status i =
    match written s op with
    | some (j,v) => if i = j then v else s.status i
    | none => s.status i := by
  rcases enter_cases sym s op with ⟨writes,kept⟩ | ⟨j,t,writes,-,kept⟩
  · rw [writes,State.status,kept]
    rfl
  · rw [writes,State.status,kept]
    exact apply_ite Task.state _ _ _

theorem taskCreate_counters (sym : Symbols) (s : State) (name : CString) (entry : Word) :
    (taskCreate sym s name entry).1.currentTask = s.currentTask ∧
      (taskCreate sym s name entry).1.tickCount = s.tickCount := by
  cases found : unusedSlot s with
  | none =>
    rw [taskCreate_none sym name entry found]
    exact ⟨rfl,rfl⟩
  | some slot =>
    obtain ⟨t,-,same⟩ := taskCreate_some sym name entry found
    rw [same]
    exact ⟨rfl,rfl⟩

theorem cmdKill_counters (s : State) (id : KillId) :
    (cmdKill s id).1.currentTask = s.currentTask ∧ (cmdKill s id).1.tickCount = s.tickCount := by
  rcases cmdKill_cases s id with ⟨i,-,-,same⟩ | ⟨-,same,-⟩
  · rw [same]
    exact ⟨rfl,rfl⟩
  · rw [same]
    exact ⟨rfl,rfl⟩

theorem currentTask_enter : (enter sym s op).currentTask = s.currentTask := by
  cases op with
  | create name entry => exact (taskCreate_counters sym s name entry).1
  | kill id => exact (cmdKill_counters s id).1
  | _ => rfl

theorem written_cases (writes : written s op = some (j,v)) :
    ((∃ name entry, op = .create name entry) ∧ s.status j = .unused ∧ v = .ready) ∨
    ((∃ ticks, op = .sleepTicks ticks) ∧ j = s.currentTask ∧ v = .sleeping) ∨
    (op = .exit ∧ j = s.currentTask ∧ v = .dead) ∨
    (op.Kills j ∧ s.status j ≠ .unused ∧ s.status j ≠ .dead ∧ v = .dead) := by
  cases op with
  | create name entry =>
    obtain ⟨slot,found,same⟩ := Option.map_eq_some_iff.mp writes
    obtain ⟨rfl,rfl⟩ := Prod.mk.inj same
    exact .inl ⟨⟨name,entry,rfl⟩,unusedSlot_some found,rfl⟩
  | sleepTicks ticks =>
    obtain ⟨rfl,rfl⟩ := Prod.mk.inj (Option.some.inj writes)
    exact .inr (.inl ⟨⟨ticks,rfl⟩,rfl,rfl⟩)
  | exit =>
    obtain ⟨rfl,rfl⟩ := Prod.mk.inj (Option.some.inj writes)
    exact .inr (.inr (.inl ⟨rfl,rfl,rfl⟩))
  | kill id =>
    obtain ⟨i,leads,same⟩ := Option.bind_eq_some_iff.mp writes
    split_ifs at same with alive
    obtain ⟨rfl,rfl⟩ := Prod.mk.inj (Option.some.inj same)
    exact .inr (.inr (.inr ⟨leads,alive.1,alive.2,rfl⟩))
  | yield | timer | enablePreempt | disablePreempt | compute => cases writes

end Operations

end NimrodOS.Tasks
