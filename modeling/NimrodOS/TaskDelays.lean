import NimrodOS.TaskContext
import NimrodOS.TaskSleep

/-! How long a task waits for its turn. With preemption on, the timer calls the scheduler
whenever the counter is a multiple of five, and each call brings a waiting task nearer. -/
namespace NimrodOS.Tasks

open Transition Libc Cyclic

/-- The next time, from `n` on, at which the timer calls the scheduler. -/
def nextCall (n : Nat) : Nat := (n + 4) / 5 * 5

/-- A task is ready, or asleep until `w` at the latest. -/
structure Waits (w : Word) (x : Fin 16) (s : State) : Prop where
  apart : s.currentTask ≠ x
  state : s.status x = .ready ∨
    s.status x = .sleeping ∧ s.wakeTick x = w ∧ s.tickCount.toNat < nextCall w.toNat

/-- The ticks that may pass before the task is switched to. -/
def budget (w : Word) (x : Fin 16) (s : State) : Nat :=
  if s.status x = .ready then 5 * gap s.currentTask x - 1 - s.tickCount.toNat % 5
  else nextCall w.toNat - s.tickCount.toNat + 74

/-- A step with preemption on that neither kills a task nor switches to it. -/
structure PassesBy (sym : Symbols) (x : Fin 16) (s : State) (op : Op) : Prop where
  preempts : s.preemptEnabled = true
  spares : ¬op.Kills x
  other : (step sym s op).2 ≠ some x

variable {sym : Symbols} {s t : State} {op : Op} {x : Fin 16} {w n : Word} {past : List (State × Op)}

theorem nextCall_bounds (w : Word) : w.toNat ≤ nextCall w.toNat ∧ nextCall w.toNat ≤ w.toNat + 4 ∧
    nextCall w.toNat % 5 = 0 ∧ nextCall w.toNat < 2^32 := by
  have small := w.isLt
  unfold nextCall
  omega

/-- Before it schedules, a step leaves a waiting task alone. -/
theorem enter_waits (passes : PassesBy sym x s op) (waits : Waits w x s) :
    (enter sym s op).status x = s.status x ∧ (enter sym s op).wakeTick x = s.wakeTick x := by
  have untouched (v : TaskState) : written s op ≠ some (x,v) := by
    intro writes
    rcases written_cases writes with ⟨-,free,-⟩ | ⟨-,here,-⟩ | ⟨-,here,-⟩ | ⟨killed,-⟩
    · rcases waits.state with ready | ⟨sleeping,-⟩
      · cases free.symm.trans ready
      · cases free.symm.trans sleeping
    · exact waits.apart here.symm
    · exact waits.apart here.symm
    · exact passes.spares killed
  refine ⟨?_,wakeTick_enter untouched⟩
  rw [status_enter]
  cases writes : written s op with
  | none => rfl
  | some write =>
    have other : x ≠ write.1 := by
      rintro rfl
      exact untouched write.2 writes
    exact if_neg other

/-- The scheduler is called by a tick just when that makes the counter a multiple of five. -/
theorem timer_calls (preempts : s.preemptEnabled = true) :
    Calls s .timer ↔ (s.tickCount + 1).toNat % 5 = 0 := by
  have five : (5 : Word).toNat = 5 := rfl
  rw [Calls,and_iff_right preempts,← BitVec.toNat_inj,BitVec.toNat_umod,five]
  rfl

theorem tick_toNat (s : State) : (s.tickCount + 1).toNat = s.tickCount.toNat + 1 ∨
    s.tickCount.toNat = 4294967295 ∧ (s.tickCount + 1).toNat = 0 := by
  bv_omega

/-- A call of the scheduler that passes a runnable task by. -/
theorem schedule_runnable_waits (runnable : Runnable s x) (other : (taskSchedule sym s).2 ≠ some x) :
    (taskSchedule sym s).1.currentTask ≠ x ∧ (taskSchedule sym s).1.status x = .ready ∧
      gap (taskSchedule sym s).1.currentTask x < gap s.currentTask x := by
  obtain ⟨next,picked,current,here | ⟨nearer,ready⟩⟩ := schedule_runnable sym runnable
  · exact absurd (here ▸ picked) other
  · rw [current]
    exact ⟨fun here => other (here ▸ picked),ready,nearer⟩

/-- A call that finds a task asleep. -/
theorem schedule_asleep (sleeping : s.status x = .sleeping) (early : ¬Due s x)
    (other : (taskSchedule sym s).2 ≠ some x) :
    (taskSchedule sym s).1.currentTask ≠ x ∧ (taskSchedule sym s).1.status x = .sleeping ∧
      (taskSchedule sym s).1.wakeTick x = s.wakeTick x := by
  rcases schedule_cases sym s with ⟨-,stayed⟩ | ⟨next,picked,switched⟩
  · rw [stayed.currentTask,stayed.status,stayed.wakeTick]
    refine ⟨?_,sleeping,rfl⟩
    rintro rfl
    cases sleeping.symm.trans stayed.running
  · have elsewhere : x ≠ next := fun here => other (here ▸ picked)
    rw [switched.currentTask,switched.status,switched.wakeTick,if_neg elsewhere,if_neg]
    · exact ⟨elsewhere.symm,sleeping,rfl⟩
    · rintro (⟨-,running⟩ | due)
      · cases sleeping.symm.trans running
      · exact early due

theorem budget_ready (ready : s.status x = .ready) :
    budget w x s = 5 * gap s.currentTask x - 1 - s.tickCount.toNat % 5 := if_pos ready

theorem budget_asleep (sleeping : s.status x = .sleeping) :
    budget w x s = nextCall w.toNat - s.tickCount.toNat + 74 := by
  rw [budget,if_neg]
  simp [sleeping]

theorem timer_of_isTimer (timer : op.isTimer = true) : op = .timer := by
  cases op <;> simp [Op.isTimer] at timer ⊢

/-- A step that calls the scheduler passes a task by as that call does. -/
theorem passed_call (passes : PassesBy sym x s op) (calls : Calls s op) :
    (taskSchedule sym (enter sym s op)).2 ≠ some x := by
  rw [← step_of_calls calls]
  exact passes.other

theorem step_ready (passes : PassesBy sym x s op) (waits : Waits w x s) (ready : s.status x = .ready) :
    Waits w x (step sym s op).1 ∧ op.isTimer.toNat + budget w x (step sym s op).1 ≤ budget w x s := by
  have kept := (enter_waits passes waits).1.trans ready
  have positive : 0 < gap s.currentTask x := gap_pos
  have tick := tick_toNat s
  rw [budget_ready ready]
  by_cases calls : Calls s op
  · obtain ⟨apart,still,nearer⟩ := schedule_runnable_waits (.inl kept) (passed_call passes calls)
    have positive' : 0 < gap (taskSchedule sym (enter sym s op)).1.currentTask x := gap_pos
    rw [currentTask_enter] at nearer
    rw [step_of_calls calls,budget_ready still,schedule_tickCount,tickCount_enter]
    refine ⟨⟨apart,.inl still⟩,?_⟩
    cases timer : op.isTimer with
    | false =>
      simp
      omega
    | true =>
      obtain rfl := timer_of_isTimer timer
      have multiple := (timer_calls passes.preempts).mp calls
      simp
      omega
  · rw [step_of_quiet calls,budget_ready kept,currentTask_enter,tickCount_enter]
    refine ⟨⟨by rw [currentTask_enter]; exact waits.apart,.inl kept⟩,?_⟩
    cases timer : op.isTimer with
    | false => simp
    | true =>
      obtain rfl := timer_of_isTimer timer
      have between := mt (timer_calls passes.preempts).mpr calls
      simp
      omega

theorem step_asleep (passes : PassesBy sym x s op) (waits : Waits w x s) (sleeping : s.status x = .sleeping) :
    Waits w x (step sym s op).1 ∧ op.isTimer.toNat + budget w x (step sym s op).1 ≤ budget w x s := by
  obtain ⟨-,wake,before⟩ : s.status x = .sleeping ∧ s.wakeTick x = w ∧ s.tickCount.toNat < nextCall w.toNat :=
    waits.state.resolve_left (by simp [sleeping])
  obtain ⟨kept,kept'⟩ := enter_waits passes waits
  have asleep := kept.trans sleeping
  have same := kept'.trans wake
  have apart : (enter sym s op).currentTask ≠ x := by
    rw [currentTask_enter]
    exact waits.apart
  have tick := tick_toNat s
  obtain ⟨beyond,-,five,small⟩ := nextCall_bounds w
  rw [budget_asleep sleeping]
  have later : (enter sym s op).tickCount.toNat = s.tickCount.toNat + op.isTimer.toNat := by
    rw [tickCount_enter]
    cases timer : op.isTimer with
    | false => simp
    | true =>
      simp
      omega
  by_cases calls : Calls s op
  · have other := passed_call passes calls
    rw [step_of_calls calls]
    by_cases due : Due (enter sym s op) x
    · obtain ⟨apart',ready,nearer⟩ := schedule_runnable_waits (.inr due) other
      have most : gap (enter sym s op).currentTask x ≤ 16 := gap_le
      rw [budget_ready ready]
      refine ⟨⟨apart',.inl ready⟩,?_⟩
      have one := op.isTimer.toNat_le
      omega
    · obtain ⟨apart',still,same'⟩ := schedule_asleep asleep due other
      have early : (enter sym s op).tickCount.toNat < w.toNat := by
        by_contra late
        refine due ⟨asleep,?_⟩
        rw [same,ge_iff_le,BitVec.le_def]
        exact Nat.not_lt.mp late
      rw [budget_asleep still,schedule_tickCount]
      refine ⟨⟨apart',.inr ⟨still,same'.trans same,?_⟩⟩,by omega⟩
      rw [schedule_tickCount]
      omega
  · have early : (enter sym s op).tickCount.toNat < nextCall w.toNat := by
      cases timer : op.isTimer with
      | false =>
        simp [timer] at later
        omega
      | true =>
        obtain rfl := timer_of_isTimer timer
        have between := mt (timer_calls passes.preempts).mpr calls
        simp [timer] at later
        omega
    rw [step_of_quiet calls,budget_asleep asleep]
    exact ⟨⟨apart,.inr ⟨asleep,same,early⟩⟩,by omega⟩

theorem step_waits (passes : PassesBy sym x s op) (waits : Waits w x s) :
    Waits w x (step sym s op).1 ∧ op.isTimer.toNat + budget w x (step sym s op).1 ≤ budget w x s := by
  rcases waits.state with ready | ⟨sleeping,-⟩
  · exact step_ready passes waits ready
  · exact step_asleep passes waits sleeping

/-- As long as a waiting task is passed by, ticks come out of its budget. -/
theorem run_waits (run : Run (Step sym) s past t) (waits : Waits w x s)
    (passed : ∀ entry ∈ past, PassesBy sym x entry.1 entry.2) : ticks past + budget w x t ≤ budget w x s := by
  refine run.spends waits ?_ passed
  rintro s op t before passes rfl
  exact step_waits passes before

/-- The current task goes to sleep. -/
theorem sleep_waits (sym : Symbols) (s : State) (noWrap : s.tickCount.toNat + n.toNat < 2^32)
    (other : (step sym s (.sleepTicks n)).2 ≠ some s.currentTask) :
    Waits (s.tickCount + n) s.currentTask (step sym s (.sleepTicks n)).1 ∧
      budget (s.tickCount + n) s.currentTask (step sym s (.sleepTicks n)).1 ≤ n.toNat + 78 := by
  have calls : Calls s (.sleepTicks n) := trivial
  obtain ⟨asleep,wake⟩ := sleep_enter sym s n
  have sum : (s.tickCount + n).toNat = s.tickCount.toNat + n.toNat := by
    rw [BitVec.toNat_add,Nat.mod_eq_of_lt noWrap]
  have now : (enter sym s (.sleepTicks n)).tickCount = s.tickCount := tickCount_enter
  obtain ⟨beyond,most,-⟩ := nextCall_bounds (s.tickCount + n)
  rw [step_of_calls calls] at other ⊢
  by_cases due : Due (enter sym s (.sleepTicks n)) s.currentTask
  · obtain ⟨apart,ready,nearer⟩ := schedule_runnable_waits (.inr due) other
    have around : gap (enter sym s (.sleepTicks n)).currentTask s.currentTask ≤ 16 := gap_le
    rw [budget_ready ready]
    exact ⟨⟨apart,.inl ready⟩,by omega⟩
  · obtain ⟨apart,still,same⟩ := schedule_asleep asleep due other
    have early : s.tickCount.toNat < (s.tickCount + n).toNat := by
      by_contra late
      refine due ⟨asleep,?_⟩
      rw [wake,now,ge_iff_le,BitVec.le_def]
      exact Nat.not_lt.mp late
    rw [budget_asleep still,schedule_tickCount,now]
    refine ⟨⟨apart,.inr ⟨still,same.trans wake,?_⟩⟩,by omega⟩
    rw [schedule_tickCount,now]
    omega

/-- The current task is not ready; it may have been killed. -/
def Apart (s : State) : Prop := s.status s.currentTask ≠ .unused ∧ s.status s.currentTask ≠ .ready

theorem step_apart (sym : Symbols) (op : Op) (before : Apart s) : Apart (step sym s op).1 := by
  refine ⟨step_current sym op before.1,?_⟩
  by_cases calls : Calls s op
  · rw [step_of_calls calls]
    rcases schedule_cases sym (enter sym s op) with ⟨-,stayed⟩ | ⟨next,-,switched⟩
    · rw [stayed.currentTask,stayed.status,stayed.running]
      simp
    · rw [switched.currentTask,switched.status,if_pos rfl]
      simp
  · rw [step_of_quiet calls,currentTask_enter,status_enter]
    cases writes : written s op with
    | none => exact before.2
    | some write =>
      dsimp only
      split
      · rename_i here
        rcases written_cases writes with ⟨-,free,-⟩ | ⟨-,-,asleep⟩ | ⟨-,-,dead⟩ | ⟨-,-,-,dead⟩
        · exact absurd (here ▸ free) before.1
        · simp [asleep]
        · simp [dead]
        · simp [dead]
      · exact before.2

theorem run_apart (s : State) (run : Run (Step sym) (taskInit s) past t) : Apart t := by
  have first : (taskInit s).status (taskInit s).currentTask = .running := rfl
  have start : Apart (taskInit s) := by simp [Apart,first]
  refine run.invariant start ?_
  rintro s op t before rfl
  exact step_apart sym op before

/-- Nobody starves: in every run with preemption on, a ready task that is not killed is
switched to within 75 ticks, and one that sleeps for `n` ticks within `n + 79`. -/
theorem dispatched_in_time (sym : Symbols) (s₀ s t : State) (x : Fin 16) {before past : List (State × Op)}
    (boot : Run (Step sym) (taskInit s₀) before s) (run : Run (Step sym) s past t)
    (preempted : ∀ entry ∈ past, entry.1.preemptEnabled = true ∧ ¬entry.2.Kills x) :
    (s.status x = .ready → 75 ≤ ticks past → ∃ entry ∈ past, (step sym entry.1 entry.2).2 = some x) ∧
    ∀ n rest, past = (s,.sleepTicks n) :: rest → s.currentTask = x → s.tickCount.toNat + n.toNat < 2^32 →
      n.toNat + 79 ≤ ticks past → ∃ entry ∈ past, (step sym entry.1 entry.2).2 = some x := by
  constructor
  · intro ready long
    by_contra never
    push Not at never
    have apart : s.currentTask ≠ x := by
      rintro rfl
      exact (run_apart s₀ boot).2 ready
    have waits : Waits 0 x s := ⟨apart,.inl ready⟩
    have spent := run_waits run waits fun entry member =>
      ⟨(preempted entry member).1,(preempted entry member).2,never entry member⟩
    have around : gap s.currentTask x < 16 := gap_lt apart
    rw [budget_ready ready] at spent
    omega
  · rintro n rest rfl rfl noWrap long
    by_contra never
    push Not at never
    obtain ⟨-,next,rfl,later⟩ := Run.split (show Run _ s ([] ++ _) t from run)
    obtain ⟨waits,most⟩ := sleep_waits sym s noWrap (never _ List.mem_cons_self)
    have spent := run_waits later waits fun entry member =>
      have among := List.mem_cons_of_mem _ member
      ⟨(preempted entry among).1,(preempted entry among).2,never entry among⟩
    rw [ticks_sleep] at long
    omega

/-- The scheduler does not turn preemption off. -/
theorem preempts_schedule (sym : Symbols) (s : State) :
    (taskSchedule sym s).1.preemptEnabled = s.preemptEnabled := by
  have woken : (wakeSleepers s).preemptEnabled = s.preemptEnabled := by
    unfold wakeSleepers
    refine wakeTasks_keeps (P := fun t => t.preemptEnabled = s.preemptEnabled) (fun t i same => ?_) _ rfl
    rw [← same,wakeTask]
    split <;> rfl
  have switched (t : State) (next : Fin 16) : (switchTo sym t next).preemptEnabled = t.preemptEnabled := by
    change (ite _ _ _ : State).preemptEnabled = _
    split <;> rfl
  rw [taskSchedule_eq rfl]
  split
  · exact woken
  · exact (switched _ _).trans woken

theorem run_timer (sym : Symbols) (preempts : s.preemptEnabled = true) (m : Nat) :
    ∃ past t, Run (Step sym) s past t ∧ ticks past = m ∧ t.preemptEnabled = true ∧
      ∀ entry ∈ past, entry.1.preemptEnabled = true ∧ entry.2 = .timer := by
  induction m with
  | zero => exact ⟨[],s,.nil,rfl,preempts,by simp⟩
  | succ m ih =>
    obtain ⟨past,t,run,count,still,all⟩ := ih
    refine ⟨_,_,run.snoc (rfl : Step sym t .timer _),?_,?_,?_⟩
    · rw [ticks_snoc,count]
      rfl
    · by_cases calls : Calls t .timer
      · rw [step_of_calls calls,preempts_schedule]
        exact still
      · rw [step_of_quiet calls]
        exact still
    · rw [List.forall_mem_append,List.forall_mem_singleton]
      exact ⟨all,still,rfl⟩

/-- A task that is created gets its turn though the kernel only waits for ticks. -/
theorem dispatched_in_time_timer : ∃ before past s t, Run (Step default) (taskInit default) before s ∧
    Run (Step default) s past t ∧ ticks past = 75 ∧ ∃ entry ∈ past, (step default entry.1 entry.2).2 = some 1 := by
  have boot := run_trace (fun s op => (step default s op).1) (taskInit default)
    [.create kernelName 0,.enablePreempt]
  generalize made : [Op.create kernelName 0,.enablePreempt].foldl (fun s op => (step default s op).1)
    (taskInit default) = s at boot
  have preempts : s.preemptEnabled = true := by
    rw [← made]
    decide +kernel
  have ready : s.status 1 = .ready := by
    rw [← made]
    decide +kernel
  obtain ⟨past,t,run,count,-,all⟩ := run_timer default preempts 75
  have preempted : ∀ entry ∈ past, entry.1.preemptEnabled = true ∧ ¬entry.2.Kills 1 := by
    intro entry member
    refine ⟨(all entry member).1,?_⟩
    rw [(all entry member).2]
    exact not_false
  exact ⟨_,past,s,t,boot,run,count,
    (dispatched_in_time default default s t 1 boot run preempted).1 ready count.ge⟩

end NimrodOS.Tasks
