import NimrodOS.TaskInvariant

/-! What becomes of a killed task. `cmd_kill` runs in an interrupt and may kill the task
it interrupted, which then goes on until it is switched away. -/
namespace NimrodOS.Tasks

open Transition Libc

def Live (v : TaskState) : Prop := v = .ready ∨ v = .running ∨ v = .sleeping

instance (v : TaskState) : Decidable (Live v) := by
  unfold Live
  infer_instance

/-- No state of the run after a successful kill shows the killed task alive. -/
def KillsLast (past : List (State × Event)) (last : State) : Prop :=
  ∀ before s id after i, past = before ++ (s,.call (.kill id)) :: after → (cmdKill s id).2 = .killed →
    target id = some i → ∀ t ∈ after.map Prod.fst ++ [last], ¬Live (t.status i)

/-- The task of the slot was killed in the run. -/
def Killed (past : List (State × Event)) (i : Fin 16) : Prop :=
  ∃ before s id after, past = before ++ (s,.call (.kill id)) :: after ∧ (cmdKill s id).2 = .killed ∧
    target id = some i

/-- A task that goes to sleep has not been killed. -/
def SleepsAlive (s : State) : Op → Prop
  | .sleepTicks _ => s.status s.currentTask ≠ .dead
  | _ => True

/-- Nor does the scheduler need its last line once the kernel task was killed. -/
def KeepsKilled (sym : Symbols) (past : List (State × Event)) (s : State) : Event → Prop
  | .call op => SleepsAlive s op ∧ (Calls s op → FallsBack (enter sym s op) → ¬Killed past 0)
  | .stray _ _ => False

/-- At every moment of the run. -/
def KillsKept (sym : Symbols) (past : List (State × Event)) : Prop :=
  ∀ before s e after, past = before ++ (s,e) :: after → KeepsKilled sym before s e

section

variable {sym : Symbols} {s t : State} {op : Op} {i : Fin 16} {e : Event} {past : List (State × Event)}

theorem schedule_fallsBack (sym : Symbols) (back : FallsBack s) :
    (taskSchedule sym s).1.status 0 = .running := by
  have alone := nextReady_none.mp back.1
  rcases schedule_cases sym s with ⟨-,stayed⟩ | ⟨next,-,switched⟩
  · have stopped := back.2
    rw [currentTask_wakeSleepers] at stopped
    exact absurd (running_wakeSleepers.mpr stayed.running) stopped
  · rcases switched.picked with ⟨runnable,-⟩ | ⟨-,-,rfl⟩
    · exact absurd runnable (alone next)
    · rw [switched.status,if_pos rfl]

/-- Only putting itself to sleep brings a dead task back, and the kernel's also the last line of
`find_next_task`. -/
theorem step_dead (dead : s.status i = .dead) (alive : SleepsAlive s op)
    (spared : Calls s op → FallsBack (enter sym s op) → i ≠ 0) : (step sym s op).1.status i = .dead := by
  have entered : (enter sym s op).status i = .dead := by
    rw [status_enter]
    cases writes : written s op with
    | none => exact dead
    | some write =>
      obtain ⟨j,v⟩ := write
      dsimp only
      split_ifs with here
      · subst here
        rcases written_cases writes with
          ⟨-,free,-⟩ | ⟨⟨_,rfl⟩,rfl,-⟩ | ⟨-,-,rfl⟩ | ⟨-,-,-,rfl⟩
        · cases free.symm.trans dead
        · exact absurd dead alive
        · rfl
        · rfl
      · exact dead
  by_cases calls : Calls s op
  · rw [step_of_calls calls]
    rcases schedule_cases sym (enter sym s op) with ⟨-,stayed⟩ | ⟨next,-,switched⟩
    · rw [stayed.status]
      exact entered
    · have other : i ≠ next := by
        rintro rfl
        rcases switched.picked with ⟨ready | due,-⟩ | ⟨alone,stopped,kernel⟩
        · cases ready.symm.trans entered
        · cases due.1.symm.trans entered
        · refine spared calls ⟨nextReady_none.mpr alone,?_⟩ kernel
          rw [currentTask_wakeSleepers]
          exact mt running_wakeSleepers.mp stopped
      rw [switched.status,if_neg other,if_neg,entered]
      rintro (⟨-,running⟩ | due)
      · cases running.symm.trans entered
      · cases due.1.symm.trans entered
  · rw [step_of_quiet calls]
    exact entered

theorem step_killed (sym : Symbols) {id : KillId} (killed : (cmdKill s id).2 = .killed)
    (leads : target id = some i) : (step sym s (.kill id)).1.status i = .dead := by
  rcases cmdKill_cases s id with ⟨j,leads',-,ran⟩ | ⟨-,-,refused⟩
  · obtain rfl := Option.some.inj (leads.symm.trans leads')
    change (cmdKill s id).1.status i = .dead
    rw [ran,State.status_setState,if_pos rfl]
  · exact absurd killed refused

/-- A dead current task was killed while it was current. -/
def DeadIsKilled (past : List (State × Event)) (s : State) : Prop :=
  s.status s.currentTask = .running ∨ s.status s.currentTask = .dead ∧ Killed past s.currentTask

theorem Killed.snoc (killed : Killed past i) : Killed (past ++ [(s,e)]) i := by
  obtain ⟨first,t,id,after,recorded,done,leads⟩ := killed
  exact ⟨first,t,id,after ++ [(s,e)],by simp [recorded],done,leads⟩

theorem schedule_running (sym : Symbols) (s : State) :
    (taskSchedule sym s).1.status (taskSchedule sym s).1.currentTask = .running := by
  rcases schedule_cases sym s with ⟨-,stayed⟩ | ⟨next,-,switched⟩
  · rw [stayed.status,stayed.currentTask]
    exact stayed.running
  · rw [switched.status,switched.currentTask,if_pos rfl]

theorem step_deadIsKilled (before : DeadIsKilled past s) :
    DeadIsKilled (past ++ [(s,.call op)]) (step sym s op).1 := by
  by_cases calls : Calls s op
  · left
    rw [step_of_calls calls]
    exact schedule_running sym _
  rw [step_of_quiet calls]
  have unchanged (same : (enter sym s op).status s.currentTask = s.status s.currentTask) :
      DeadIsKilled (past ++ [(s,.call op)]) (enter sym s op) := by
    unfold DeadIsKilled
    rw [currentTask_enter,same]
    exact before.imp_right fun ⟨dead,killed⟩ => ⟨dead,killed.snoc⟩
  cases writes : written s op with
  | none => exact unchanged (by rw [status_enter,writes])
  | some write =>
    obtain ⟨j,v⟩ := write
    by_cases other : s.currentTask = j
    · subst other
      rcases written_cases writes with
        ⟨-,free,-⟩ | ⟨⟨_,rfl⟩,-⟩ | ⟨rfl,-⟩ | ⟨kills,-,-,rfl⟩
      · rcases before with running | ⟨dead,-⟩
        · cases free.symm.trans running
        · cases free.symm.trans dead
      · exact absurd trivial calls
      · exact absurd trivial calls
      · cases op with
        | kill id =>
          right
          rw [currentTask_enter]
          refine ⟨by rw [status_enter,writes]; exact if_pos rfl,past,s,id,[],rfl,?_,kills⟩
          rcases cmdKill_cases s id with ⟨_,-,-,ran⟩ | ⟨refused,-⟩
          · rw [ran]
          · cases refused.symm.trans writes
        | _ => exact kills.elim
    · exact unchanged (by rw [status_enter,writes]; exact if_neg other)

theorem run_deadIsKilled (straight : ∀ entry ∈ past, ¬entry.2.Strays)
    (run : Run (Moves sym) (taskInit s) past t) : DeadIsKilled past t := by
  induction run with
  | nil => exact .inl (taskInit_status s 0)
  | @snoc past state next e _ moved ih =>
    rw [List.forall_mem_append,List.forall_mem_singleton] at straight
    cases e with
    | call op =>
      obtain rfl := moved
      exact step_deadIsKilled (ih straight.1)
    | stray id after => exact absurd trivial straight.2

theorem sleeping_live (sym : Symbols) (s : State) (ticks : Word) :
    Live ((step sym s (.sleepTicks ticks)).1.status s.currentTask) := by
  have entered : (enter sym s (.sleepTicks ticks)).status s.currentTask = .sleeping :=
    status_enter.trans (if_pos rfl)
  have calls : Calls s (.sleepTicks ticks) := trivial
  rw [step_of_calls calls]
  rcases schedule_cases sym (enter sym s (.sleepTicks ticks)) with ⟨-,stayed⟩ | ⟨next,-,switched⟩
  · cases entered.symm.trans stayed.running
  · rw [switched.status,entered]
    split_ifs <;> simp [Live]

/-- What a killed task shows in the states behind a later step. -/
theorem KillsLast.after {before after : List (State × Event)} {last next : State}
    (lasts : KillsLast (before ++ (s,e) :: after) last) (killed : Killed before i)
    (rest : Run (Moves sym) next after last) : ¬Live (next.status i) := by
  obtain ⟨first,t,id,between,rfl,done,leads⟩ := killed
  refine lasts first t id (between ++ (s,e) :: after) i (by simp) done leads next ?_
  have seen := rest.start_mem
  simp only [List.map_append,List.map_cons,List.append_assoc,List.cons_append]
  exact List.mem_append_right _ (List.mem_cons_of_mem _ seen)

theorem killsKept_of_killsLast {last : State} (straight : ∀ entry ∈ past, ¬entry.2.Strays)
    (run : Run (Moves sym) (taskInit s) past last) (lasts : KillsLast past last) : KillsKept sym past := by
  rintro before state e after rfl
  obtain ⟨reached,next,moved,rest⟩ := run.split
  cases e with
  | call op =>
    obtain rfl := moved
    constructor
    · cases op with
      | sleepTicks ticks =>
        intro dead
        have earlier : ∀ entry ∈ before, ¬entry.2.Strays := fun entry member =>
          straight entry (List.mem_append_left _ member)
        rcases run_deadIsKilled earlier reached with running | ⟨-,killed⟩
        · cases dead.symm.trans running
        · exact lasts.after killed rest (sleeping_live sym state ticks)
      | _ => exact trivial
    · intro calls back killed
      refine lasts.after killed rest (.inr (.inl ?_))
      rw [step_of_calls calls]
      exact schedule_fallsBack sym back
  | stray id wild => exact straight (state,.stray id wild) (by simp) trivial

theorem killsLast_of_killsKept {last : State} (run : Run (Moves sym) (taskInit s) past last)
    (kept : KillsKept sym past) : KillsLast past last := by
  rintro before state id after i rfl killed leads
  obtain ⟨-,next,moved,rest⟩ := run.split
  obtain rfl := moved
  let cond : State → Event → Prop := fun s e => ∃ op, e = .call op ∧ SleepsAlive s op ∧
    (Calls s op → FallsBack (enter sym s op) → i ≠ 0)
  have stays : ∀ s e t, s.status i = .dead → cond s e → Moves sym s e t → t.status i = .dead := by
    rintro s e t dead ⟨op,rfl,awake,spared⟩ rfl
    exact step_dead dead awake spared
  have met : ∀ entry ∈ after, cond entry.1 entry.2 := by
    rintro ⟨u,e⟩ member
    obtain ⟨between,later,rfl⟩ := List.append_of_mem member
    have keeps := kept (before ++ (state,.call (.kill id)) :: between) u e later (by simp)
    cases e with
    | call op =>
      refine ⟨op,rfl,keeps.1,?_⟩
      rintro calls back rfl
      exact keeps.2 calls back ⟨before,state,id,between,rfl,killed,leads⟩
    | stray id wild => exact keeps.elim
  have later := rest.invariant_throughout (step_killed sym killed leads) stays met
  intro t member
  rw [later t member]
  simp [Live]

/-- Kills last in the runs in which no killed task puts itself to sleep and the scheduler does not fall back
to a killed kernel task, and as far as no kill leads astray in no other. -/
theorem kills_last_iff (sym : Symbols) (s : State) {past : List (State × Event)} {last : State}
    (run : Run (Moves sym) (taskInit s) past last) :
    (KillsKept sym past → KillsLast past last) ∧
      ((∀ entry ∈ past, ¬entry.2.Strays) → KillsLast past last → KillsKept sym past) :=
  ⟨killsLast_of_killsKept run,fun straight => killsKept_of_killsLast straight run⟩

/-- A task that is killed while it is current, and then yields, stays dead. -/
def killedYields : List Op := [.create kernelName 0,.yield,.kill (.of 1),.yield]

/-- A run of steps. -/
def events (past : List (State × Op)) : List (State × Event) := past.map fun entry => (entry.1,.call entry.2)

theorem run_events {past : List (State × Op)} (run : Run (Step sym) s past t) :
    Run (Moves sym) s (events past) t := by
  induction run with
  | nil => exact .nil
  | snoc _ moved ih =>
    rw [events,List.map_append]
    exact ih.snoc moved

theorem events_mem {next : State → Op → State} {ops : List Op} (member : (s,e) ∈ events (trace next t ops)) :
    ∃ op ∈ ops, e = .call op := by
  obtain ⟨⟨u,op⟩,recorded,same⟩ := List.mem_map.mp member
  obtain ⟨-,rfl⟩ := Prod.mk.inj same
  exact ⟨op,trace_mem recorded,rfl⟩

theorem kills_last_killedYields :
    KillsLast (events (trace (fun s op => (step default s op).1) (taskInit default) killedYields))
      (killedYields.foldl (fun s op => (step default s op).1) (taskInit default)) := by
  apply (kills_last_iff default default (run_events (run_trace _ _ _))).1
  intro before u e after whole
  have recorded (v : State) (f : Event) (member : (v,f) ∈ before ++ (u,e) :: after) :
      ∃ op ∈ killedYields, f = .call op := by
    rw [← whole] at member
    exact events_mem member
  obtain ⟨op,member,rfl⟩ := recorded u e (by simp)
  refine ⟨?_,fun _ _ killed => ?_⟩
  · simp only [killedYields,List.mem_cons,List.not_mem_nil,or_false] at member
    rcases member with rfl | rfl | rfl | rfl <;> exact trivial
  · obtain ⟨first,v,id,between,rfl,-,leads⟩ := killed
    obtain ⟨other,member,same⟩ := recorded v (.call (.kill id)) (by simp)
    obtain rfl := Event.call.inj same
    simp only [killedYields,List.mem_cons,List.not_mem_nil,or_false,reduceCtorEq,false_or,Op.kill.injEq] at member
    subst member
    exact absurd leads (by decide +kernel)

/-- A task that is killed while it is current, and then sleeps, comes back. -/
def killedSleeps : List Op := [.create kernelName 0,.yield,.kill (.of 1),.sleepTicks 100]

theorem killed_sleeper_returns : ¬∀ (sym : Symbols) (s : State) (past : List (State × Event))
    (last : State), Run (Moves sym) (taskInit s) past last → KillsLast past last := by
  intro always
  let next : State → Op → State := fun s op => (step default s op).1
  let first : List Op := [.create kernelName 0,.yield,.kill (.of 1)]
  let killed : State := first.foldl next (taskInit default)
  have run : Run (Moves default) (taskInit default) (events (trace next (taskInit default) killedSleeps))
      (killedSleeps.foldl next (taskInit default)) := run_events (run_trace _ _ _)
  have straight : ∀ entry ∈ events (trace next (taskInit default) killedSleeps), ¬entry.2.Strays := by
    rintro ⟨u,e⟩ member
    obtain ⟨op,-,rfl⟩ := events_mem member
    exact not_false
  have kept := killsKept_of_killsLast straight run (always _ _ _ _ run)
  have dead : killed.status killed.currentTask = .dead := by decide +kernel
  exact (kept (events (trace next (taskInit default) first)) killed (.call (.sleepTicks 100)) [] rfl).1 dead

end

end NimrodOS.Tasks
