import NimrodOS.TaskSlots

/-! Whether `task_count` counts the tasks that are alive. -/
namespace NimrodOS.Tasks

open Transition Libc

def taskCount (s : State) : Int := s.taskCountVal

/-- The slots that are READY, RUNNING or SLEEPING. -/
def liveSlots (s : State) : Finset (Fin 16) := {i | Live (s.status i)}

/-- The counter has the number of tasks that are alive. -/
def Accounted (s : State) : Prop := taskCount s = (liveSlots s).card

/-- `task_init`, a step of the kernel, or a kill that leads astray. -/
inductive Request where
  | init
  | kernel (op : Op)
  | stray (id : {id : Word // ¬Addresses id}) (after : State)

def act (sym : Symbols) (s : State) : Request → State
  | .init => taskInit s
  | .kernel op => (step sym s op).1
  | .stray _ after => after

def Request.Strays : Request → Prop
  | .stray _ _ => True
  | _ => False

/-- `cmd_kill` ends a task. -/
def KillsTask (s : State) : Op → Prop
  | .kill id => ∃ i : Fin 16, target id = some i ∧ Live (s.status i)
  | _ => False

/-- `task_schedule` finds no other task and falls back to the kernel task, which has ended. -/
def RevivesKernel (s : State) : Prop :=
  (∀ i, ¬Runnable s i) ∧ s.status s.currentTask ≠ .running ∧ ¬Live (s.status 0)

/-- The step neither ends a task nor brings one back behind the counter's back. -/
def Counted (sym : Symbols) (s : State) : Request → Prop
  | .init => True
  | .kernel op => ¬KillsTask s op ∧ (Calls s op → ¬RevivesKernel (enter sym s op))
  | .stray _ _ => False

/-- Slots in use, and the current task running. -/
structure Running (s : State) : Prop where
  kernel : s.status 0 ≠ .unused
  current : s.status s.currentTask = .running

section

variable {sym : Symbols} {s t : State} {op : Op} {i j : Fin 16}

theorem live_iff {v : TaskState} : Live v ↔ v ≠ .unused ∧ v ≠ .dead := by
  cases v <;> simp [Live]

theorem mem_liveSlots : i ∈ liveSlots s ↔ Live (s.status i) := by
  simp [liveSlots]

theorem Running.occupied (running : Running s) : Occupied s := by
  refine ⟨running.kernel,?_⟩
  rw [running.current]
  decide

/-! The scheduler leaves the counter alone, and the task it switches to is alive. -/

theorem taskCountVal_wakeSleepers : (wakeSleepers s).taskCountVal = s.taskCountVal := by
  have kept : ∀ t i, t.taskCountVal = s.taskCountVal → (wakeTask t i).taskCountVal = s.taskCountVal := by
    intro t i same
    unfold wakeTask
    split_ifs
    · exact same
    · exact same
  unfold wakeSleepers
  exact wakeTasks_keeps kept _ rfl

theorem taskCountVal_switchTo {next : Fin 16} :
    (switchTo sym s next).taskCountVal = s.taskCountVal := by
  change (ite _ _ _ : State).taskCountVal = _
  split <;> rfl

theorem taskCount_schedule (sym : Symbols) (s : State) :
    taskCount (taskSchedule sym s).1 = taskCount s := by
  rw [taskSchedule_eq rfl]
  split
  · exact taskCountVal_wakeSleepers
  · exact taskCountVal_switchTo.trans taskCountVal_wakeSleepers

theorem liveSlots_congr (same : ∀ i, t.status i = s.status i) : liveSlots t = liveSlots s := by
  ext i
  rw [mem_liveSlots,mem_liveSlots,same]

theorem liveSlots_switched {next : Fin 16} (switched : Switched s t next) :
    liveSlots t = insert next (liveSlots s) := by
  ext i
  rw [Finset.mem_insert,mem_liveSlots,mem_liveSlots,switched.status]
  split_ifs with here wakes
  · exact iff_of_true (.inr (.inl rfl)) (.inl here)
  · refine iff_of_true (.inl rfl) (.inr ?_)
    rcases wakes with ⟨-,running⟩ | due
    · exact .inr (.inl running)
    · exact .inr (.inr due.1)
  · exact (or_iff_right here).symm

/-- Only a fallback to a kernel task that has ended is not counted. -/
theorem schedule_accounted (sym : Symbols) (counted : Accounted s) :
    Accounted (taskSchedule sym s).1 ↔ ¬RevivesKernel s := by
  rw [Accounted] at counted
  rw [Accounted,taskCount_schedule,counted,Int.natCast_inj]
  rcases schedule_cases sym s with ⟨-,stayed⟩ | ⟨next,-,switched⟩
  · rw [liveSlots_congr stayed.status]
    exact iff_of_true rfl fun revives => revives.2.1 stayed.running
  · rw [liveSlots_switched switched]
    by_cases alive : Live (s.status next)
    · rw [Finset.insert_eq_of_mem (mem_liveSlots.mpr alive)]
      refine iff_of_true rfl fun revives => ?_
      rcases switched.picked with ⟨runnable,-⟩ | ⟨-,-,rfl⟩
      · exact revives.1 next runnable
      · exact revives.2.2 alive
    · rw [Finset.card_insert_of_notMem (mt mem_liveSlots.mp alive)]
      refine iff_of_false (by omega) (not_not.mpr ?_)
      rcases switched.picked with ⟨ready | due,-⟩ | ⟨none,stopped,rfl⟩
      · exact absurd (.inl ready) alive
      · exact absurd (.inr (.inr due.1)) alive
      · exact ⟨none,stopped,alive⟩

/-! What an operation does before that. -/

theorem liveSlots_written {v : TaskState} (writes : written s op = some (j,v)) :
    liveSlots (enter sym s op) = if Live v then insert j (liveSlots s) else (liveSlots s).erase j := by
  ext i
  rw [mem_liveSlots,status_enter,writes]
  by_cases here : i = j
  · subst here
    by_cases alive : Live v
    · simp [alive]
    · simp [alive]
  · by_cases alive : Live v
    · simp [alive,here,mem_liveSlots]
    · simp [alive,here,mem_liveSlots]

theorem killsTask_iff {id : KillId} : KillsTask s (.kill id) ↔ written s (.kill id) ≠ none := by
  constructor
  · rintro ⟨i,leads,alive⟩
    rw [written,leads,Option.bind_some,if_pos (live_iff.mp alive)]
    exact Option.some_ne_none _
  · intro writes
    obtain ⟨⟨i,v⟩,wrote⟩ := Option.ne_none_iff_exists'.mp writes
    rcases written_cases wrote with ⟨⟨_,_,create⟩,-⟩ | ⟨⟨_,sleep⟩,-⟩ | ⟨exit,-⟩ | ⟨kills,taken,alive,-⟩
    · cases create
    · cases sleep
    · cases exit
    · exact ⟨i,kills,live_iff.mpr ⟨taken,alive⟩⟩

/-- Only a kill is not counted. -/
theorem enter_accounted (running : Running s) (counted : Accounted s) :
    Accounted (enter sym s op) ↔ ¬KillsTask s op := by
  have current : s.currentTask ∈ liveSlots s := mem_liveSlots.mpr (.inr (.inl running.current))
  rw [Accounted] at counted
  cases op with
  | create name entry =>
    refine iff_of_true ?_ not_false
    cases found : unusedSlot s with
    | none =>
      rw [enter,taskCreate_none sym name entry found]
      exact counted
    | some slot =>
      have writes : written s (.create name entry) = some (slot,.ready) := by
        rw [written,found,Option.map_some]
      have fresh : slot ∉ liveSlots s := by
        rw [mem_liveSlots,unusedSlot_some found]
        decide
      obtain ⟨t,-,same⟩ := taskCreate_some sym name entry found
      have total : taskCount (enter sym s (.create name entry)) = taskCount s + 1 := by
        rw [enter,same]
        rfl
      rw [Accounted,liveSlots_written writes,if_pos (by decide),Finset.card_insert_of_notMem fresh,total,
        counted]
      rfl
  | sleepTicks ticks =>
    refine iff_of_true ?_ not_false
    rw [Accounted,liveSlots_written rfl,if_pos (by decide),Finset.insert_eq_of_mem current]
    exact counted
  | exit =>
    refine iff_of_true ?_ not_false
    have total : taskCount (enter sym s .exit) = taskCount s - 1 := rfl
    have some' := Finset.card_pos.mpr ⟨_,current⟩
    rw [Accounted,liveSlots_written rfl,if_neg (by decide),Finset.card_erase_of_mem current,total,counted]
    omega
  | kill id =>
    rw [killsTask_iff,not_not]
    rcases cmdKill_cases s id with ⟨i,-,writes,same⟩ | ⟨writes,same,-⟩
    · have alive : i ∈ liveSlots s := by
        rcases written_cases writes with ⟨⟨_,_,create⟩,-⟩ | ⟨⟨_,sleep⟩,-⟩ | ⟨exit,-⟩ | ⟨-,taken,alive,-⟩
        · cases create
        · cases sleep
        · cases exit
        · exact mem_liveSlots.mpr (live_iff.mpr ⟨taken,alive⟩)
      have total : taskCount (enter sym s (.kill id)) = taskCount s := by
        rw [enter,same]
        rfl
      have some' := Finset.card_pos.mpr ⟨_,alive⟩
      rw [Accounted,liveSlots_written writes,if_neg (by decide),Finset.card_erase_of_mem alive,total,counted,
        writes]
      refine iff_of_false ?_ (Option.some_ne_none _)
      omega
    · rw [enter,same]
      exact iff_of_true counted writes
  | yield | timer | enablePreempt | disablePreempt | compute => exact iff_of_true counted not_false

/-! Steps and runs. -/

theorem step_accounted (sym : Symbols) (running : Running s) (counted : Accounted s) :
    Accounted (step sym s op).1 ↔ Counted sym s (.kernel op) := by
  have entered : Accounted (enter sym s op) ↔ ¬KillsTask s op := enter_accounted running counted
  by_cases calls : Calls s op
  · have spares : ¬KillsTask s op := by
      cases op with
      | kill id => exact calls.elim
      | _ => exact not_false
    rw [step_of_calls calls,schedule_accounted sym (entered.mpr spares),Counted,and_iff_right spares]
    exact ⟨fun spared _ => spared,fun spares => spares calls⟩
  · rw [step_of_quiet calls,Counted,entered]
    exact (and_iff_left fun does => absurd does calls).symm

theorem taskInit_accounted (s : State) : Accounted (taskInit s) := by
  have only : liveSlots (taskInit s) = {0} := by
    ext i
    rw [mem_liveSlots,taskInit_status,Finset.mem_singleton]
    split_ifs with kernel
    · exact iff_of_true (.inr (.inl rfl)) kernel
    · exact iff_of_false (by decide) kernel
  rw [Accounted,only]
  rfl

theorem taskInit_running (s : State) : Running (taskInit s) :=
  ⟨(taskInit_occupied s).kernel,rfl⟩

theorem step_running (running : Running s) (spares : ¬KillsTask s op) : Running (step sym s op).1 := by
  refine ⟨(step_occupied running.occupied).kernel,?_⟩
  by_cases calls : Calls s op
  · rw [step_of_calls calls]
    exact schedule_running sym _
  · rw [step_of_quiet calls,currentTask_enter,status_enter]
    cases writes : written s op with
    | none => exact running.current
    | some write =>
      obtain ⟨j,v⟩ := write
      have other : s.currentTask ≠ j := by
        rintro rfl
        rcases written_cases writes with ⟨-,free,-⟩ | ⟨⟨_,rfl⟩,-⟩ | ⟨rfl,-⟩ | ⟨kills,-⟩
        · cases free.symm.trans running.current
        · exact calls trivial
        · exact calls trivial
        · cases op with
          | kill id => exact spares (killsTask_iff.mpr (writes ▸ Option.some_ne_none _))
          | _ => exact kills.elim
      exact (if_neg other).trans running.current

/-- What a run does that no kill leads astray. -/
def Follows (sym : Symbols) (s : State) (a : Request) (t : State) : Prop := ¬a.Strays ∧ act sym s a = t

theorem accounted_iff {past : List (State × Request)} {last : State} (run : Run (Follows sym) (taskInit s) past last) :
    (∀ t ∈ past.map Prod.fst ++ [last], Accounted t) ↔ ∀ entry ∈ past, Counted sym entry.1 entry.2 := by
  refine run.exact_states_under (taskInit_running s) (taskInit_accounted s) ?_ ?_
  · rintro s (_ | op | ⟨id,after⟩) t running counted ⟨-,rfl⟩
    · exact taskInit_running s
    · exact step_running running counted.1
    · exact counted.elim
  · rintro s (_ | op | ⟨id,after⟩) t running accounted ⟨straight,rfl⟩
    · exact iff_of_true (taskInit_accounted s) trivial
    · exact step_accounted sym running accounted
    · exact absurd trivial straight

/-- In a run every state is accounted for when each of its steps is counted, and as far as no kill leads
astray in no other. -/
theorem tasks_accounted_iff (sym : Symbols) (s : State) {past : List (State × Request)} {last : State}
    (run : Run (fun s a t => act sym s a = t) (taskInit s) past last) :
    ((∀ entry ∈ past, Counted sym entry.1 entry.2) → ∀ t ∈ past.map Prod.fst ++ [last], Accounted t) ∧
      ((∀ entry ∈ past, ¬entry.2.Strays) → (∀ t ∈ past.map Prod.fst ++ [last], Accounted t) →
        ∀ entry ∈ past, Counted sym entry.1 entry.2) := by
  have follows (straight : ∀ entry ∈ past, ¬entry.2.Strays) : Run (Follows sym) (taskInit s) past last :=
    run.mono fun s a t member moved => ⟨straight (s,a) member,moved⟩
  refine ⟨fun counted => (accounted_iff (follows ?_)).mpr counted,fun straight => (accounted_iff (follows straight)).mp⟩
  rintro ⟨s,a⟩ member strays
  cases a with
  | stray id after => exact counted _ member
  | _ => exact strays

instance (s : State) (op : Op) : Decidable (KillsTask s op) :=
  match op with
  | .kill id => inferInstanceAs (Decidable (∃ i : Fin 16, target id = some i ∧ Live (s.status i)))
  | .create _ _ | .yield | .timer | .sleepTicks _ | .exit | .enablePreempt | .disablePreempt
  | .compute _ => .isFalse id

instance (s : State) (i : Fin 16) : Decidable (Runnable s i) := by
  unfold Runnable
  infer_instance

instance (s : State) : Decidable (RevivesKernel s) := by
  unfold RevivesKernel
  infer_instance

instance (sym : Symbols) (s : State) (a : Request) : Decidable (Counted sym s a) := by
  cases a <;> unfold Counted <;> infer_instance

/-- A task that sleeps, and one that ends. -/
def countedTurns : List Request :=
  [.kernel (.create kernelName 0),.kernel .yield,.kernel (.sleepTicks 100),
    .kernel (.create kernelName 0),.kernel .yield,.kernel .exit]

theorem tasks_accounted_countedTurns :
    taskCount (countedTurns.foldl (act default) (taskInit default)) = 2 ∧
      ∀ t ∈ (trace (act default) (taskInit default) countedTurns).map Prod.fst ++
        [countedTurns.foldl (act default) (taskInit default)], Accounted t :=
  ⟨by decide +kernel,(tasks_accounted_iff default default (run_trace _ _ _)).1 (by decide +kernel)⟩

/-- The counter still counts a task that was killed. -/
theorem killed_task_counted : ¬∀ (sym : Symbols) (s : State) (past : List (State × Request)) (last : State),
    Run (fun s a t => act sym s a = t) (taskInit s) past last → Accounted last := by
  intro claim
  let kills : List Request := [.kernel (.create kernelName 0),.kernel (.kill (.of 1))]
  have counted := claim default default _ _ (run_trace (act default) (taskInit default) kills)
  have two : taskCount (kills.foldl (act default) (taskInit default)) = 2 := by decide +kernel
  have one : (liveSlots (kills.foldl (act default) (taskInit default))).card = 1 := by decide +kernel
  rw [Accounted,two,one] at counted
  cases counted

end

end NimrodOS.Tasks
