import Mathlib.Data.List.Infix
import NimrodOS.Lib.Run
import NimrodOS.TaskSteps

/-! Which task is running. The kernel task, which waits for interrupts in its idle loop,
never sleeps or exits. -/
namespace NimrodOS.Tasks

open Transition Libc

/-- The kernel task does not give itself up. -/
def KernelStays (s : State) : Op → Prop
  | .sleepTicks _ | .exit => s.currentTask ≠ 0
  | _ => True

def Step (sym : Symbols) (s : State) (op : Op) (t : State) : Prop := (step sym s op).1 = t

/-- A step, or a `cmd_kill` with a number that leads astray: a word somewhere in memory is read and perhaps
overwritten. What comes of that is not followed, so the state behind it is any. -/
inductive Event where
  | call (op : Op)
  | stray (id : {id : Word // ¬Addresses id}) (after : State)

def Moves (sym : Symbols) (s : State) : Event → State → Prop
  | .call op,t => Step sym s op t
  | .stray _ after,t => t = after

def Event.Strays : Event → Prop
  | .call _ => False
  | .stray _ _ => True

def KernelMoves (sym : Symbols) (s : State) (e : Event) (t : State) : Prop :=
  (∀ op, e = .call op → KernelStays s op) ∧ Moves sym s e t

/-- No kill leads to the kernel task, or astray. -/
def Event.Spares : Event → Prop
  | .call op => ¬op.Kills 0
  | .stray _ _ => False

/-- No task runs but the current one, and the kernel task is alive. -/
structure Sound (s : State) : Prop where
  running : ∀ i, s.status i = .running → i = s.currentTask
  kernel : s.status 0 = .ready ∨ s.status 0 = .running

/-- The last line of `find_next_task` is reached. -/
def FallsBack (s : State) : Prop :=
  nextReady (wakeSleepers s) = none ∧
    (wakeSleepers s).status (wakeSleepers s).currentTask ≠ .running

/-! Every state that the table passes through. -/

/-- After each round of the waking loop and each later write of `task_schedule`. -/
def scheduleMoments (sym : Symbols) (s : State) : List State :=
  let w := wakeSleepers s
  let yielded := if w.status w.currentTask = .running then w.setState w.currentTask .ready else w
  let moved : State := {yielded with currentTask := choose w}
  let resumed := moved.setState (choose w) .running
  (List.finRange 16).inits.map (fun is => is.foldl wakeTask s) ++
    if choose w = w.currentTask ∧ w.status w.currentTask = .running then [w]
    else [w,yielded,moved,resumed,switchContext sym resumed w.currentTask (choose w)]

/-- After each write of the operation before it schedules. -/
def enterMoments (sym : Symbols) (s : State) (op : Op) : List State :=
  let first : List State := match op with
    | .create _ _ => ((unusedSlot s).map fun slot => s.setTask slot clearedTask).toList
    | .sleepTicks _ => [s.setState s.currentTask .sleeping]
    | .exit => [s.setState s.currentTask .dead]
    | _ => []
  first ++ [enter sym s op]

def moments (sym : Symbols) (s : State) (op : Op) : List State :=
  enterMoments sym s op ++ if Calls s op then scheduleMoments sym (enter sym s op) else []

section

variable {sym : Symbols} {s t m : State} {op : Op} {i next : Fin 16}

/-! What keeps the invariant. -/

theorem enter_sound (before : Sound s) (stays : KernelStays s op) (spares : ¬op.Kills 0) :
    Sound (enter sym s op) := by
  cases writes : written s op with
  | none =>
    have same (i : Fin 16) : (enter sym s op).status i = s.status i := by
      rw [status_enter,writes]
    constructor
    · intro i running
      rw [currentTask_enter]
      exact before.running i (same i ▸ running)
    · rw [same]
      exact before.kernel
  | some write =>
    obtain ⟨j,v⟩ := write
    have set (i : Fin 16) : (enter sym s op).status i = if i = j then v else s.status i := by
      rw [status_enter,writes]
    have quiet : v ≠ .running ∧ j ≠ 0 := by
      rcases written_cases writes with ⟨-,free,rfl⟩ | ⟨⟨_,rfl⟩,rfl,rfl⟩ | ⟨rfl,rfl,rfl⟩ | ⟨kills,-,-,rfl⟩
      · refine ⟨by simp,?_⟩
        rintro rfl
        simpa [free] using before.kernel
      · exact ⟨by simp,stays⟩
      · exact ⟨by simp,stays⟩
      · refine ⟨by simp,?_⟩
        rintro rfl
        exact spares kills
    constructor
    · intro i running
      rw [set] at running
      split at running
      · exact absurd running quiet.1
      · rw [currentTask_enter]
        exact before.running i running
    · rw [set,if_neg quiet.2.symm]
      exact before.kernel

/-- After `task_schedule` the current task runs, and no other. -/
def OneRunning (s : State) : Prop := ∀ i, s.status i = .running ↔ i = s.currentTask

theorem schedule_sound (sym : Symbols) (before : Sound s) :
    Sound (taskSchedule sym s).1 ∧ OneRunning (taskSchedule sym s).1 := by
  have both : OneRunning (taskSchedule sym s).1 ∧
      ((taskSchedule sym s).1.status 0 = .ready ∨ (taskSchedule sym s).1.status 0 = .running) := by
    rcases schedule_cases sym s with ⟨-,stayed⟩ | ⟨next,-,switched⟩
    · constructor
      · intro i
        rw [stayed.status,stayed.currentTask]
        constructor
        · exact before.running i
        · rintro rfl
          exact stayed.running
      · rw [stayed.status]
        exact before.kernel
    · constructor
      · intro i
        rw [switched.status,switched.currentTask]
        by_cases here : i = next
        · simp [here]
        · have gives := before.running i
          simp only [here,if_false,iff_false]
          split_ifs with yields
          · simp
          · exact fun running => yields (.inl ⟨gives running,running⟩)
      · rw [switched.status]
        split_ifs
        · exact .inr rfl
        · exact .inl rfl
        · exact before.kernel
  exact ⟨⟨fun i => (both.1 i).mp,both.2⟩,both.1⟩

/-- With the kernel task alive there is always a task to run. -/
theorem not_fallsBack (before : Sound s) : ¬FallsBack s := by
  rintro ⟨none,stopped⟩
  have alone := nextReady_none.mp none
  rcases before.kernel with ready | running
  · exact alone 0 (.inl ready)
  · rw [before.running 0 running] at running
    apply stopped
    rw [currentTask_wakeSleepers]
    exact running_wakeSleepers.mpr running

theorem wakeTask_sound (before : Sound s) : Sound (wakeTask s i) := by
  constructor
  · intro j running
    rw [status_wakeTask] at running
    split_ifs at running
    rw [currentTask_wakeTask]
    exact before.running j running
  · rw [status_wakeTask]
    split_ifs
    · exact .inl rfl
    · exact before.kernel

/-- Setting a slot to anything but RUNNING, the kernel's at most to READY. -/
theorem setTask_sound {t : Task} (before : Sound s) (quiet : t.state ≠ .running)
    (alive : i = 0 → t.state = .ready) : Sound (s.setTask i t) := by
  constructor
  · intro j running
    rw [State.status_setTask] at running
    split_ifs at running
    · exact absurd running quiet
    · exact before.running j running
  · rw [State.status_setTask]
    split_ifs with here
    · exact .inl (alive here.symm)
    · exact before.kernel

theorem Sound.of_same (before : Sound s) (status : ∀ i, t.status i = s.status i)
    (currentTask : t.currentTask = s.currentTask) : Sound t := by
  constructor
  · intro i running
    rw [currentTask]
    exact before.running i (status i ▸ running)
  · rw [status]
    exact before.kernel

/-- The writes of a switch. In between no task is running. -/
theorem switch_sound (before : Sound s) (done : Sound (switchTo sym s next)) :
    let yielded := if s.status s.currentTask = .running then s.setState s.currentTask .ready else s
    let moved : State := {yielded with currentTask := next}
    Sound yielded ∧ Sound moved ∧ Sound (moved.setState next .running) := by
  intro yielded moved
  have first : Sound yielded := by
    unfold yielded
    split
    · exact setTask_sound before (by simp) fun _ => rfl
    · exact before
  have none (i : Fin 16) : yielded.status i ≠ .running := by
    unfold yielded
    split
    · rw [State.status_setState]
      split
      · simp
      · rename_i other
        exact mt (before.running i) other
    · rename_i stopped
      intro running
      exact stopped (before.running i running ▸ running)
  refine ⟨first,⟨fun i running => absurd running (none i),first.kernel⟩,?_⟩
  exact done.of_same (fun i => status_switchContext.symm) rfl

theorem scheduleMoments_sound (before : Sound s) : ∀ m ∈ scheduleMoments sym s, Sound m := by
  intro m member
  have rounds (is : List (Fin 16)) : Sound (is.foldl wakeTask s) :=
    wakeTasks_keeps (fun _ _ before => wakeTask_sound before) is before
  have woken : Sound (wakeSleepers s) := by
    unfold wakeSleepers
    exact rounds _
  unfold scheduleMoments at member
  rcases List.mem_append.mp member with round | writes
  · obtain ⟨is,-,rfl⟩ := List.mem_map.mp round
    exact rounds is
  · by_cases stays : choose (wakeSleepers s) = (wakeSleepers s).currentTask ∧
        (wakeSleepers s).status (wakeSleepers s).currentTask = .running
    · rw [if_pos stays] at writes
      obtain rfl := List.mem_singleton.mp writes
      exact woken
    · rw [if_neg stays] at writes
      have done := (schedule_sound sym before).1
      rw [taskSchedule_eq rfl,if_neg stays] at done
      obtain ⟨yielded,moved,resumed⟩ := switch_sound woken done
      simp only [List.mem_cons,List.not_mem_nil,or_false] at writes
      rcases writes with rfl | rfl | rfl | rfl | rfl
      · exact woken
      · exact yielded
      · exact moved
      · exact resumed
      · exact done

theorem enterMoments_sound (before : Sound s) (stays : KernelStays s op) (spares : ¬op.Kills 0) :
    ∀ m ∈ enterMoments sym s op, Sound m := by
  intro m member
  unfold enterMoments at member
  rcases List.mem_append.mp member with first | last
  · cases op with
    | create name entry =>
      obtain ⟨slot,found,rfl⟩ := Option.map_eq_some_iff.mp (Option.mem_toList.mp first)
      apply setTask_sound before (by simp [clearedTask])
      rintro rfl
      simpa [unusedSlot_some found] using before.kernel
    | sleepTicks ticks =>
      obtain rfl := List.mem_singleton.mp first
      exact setTask_sound before (by simp) fun kernel => absurd kernel stays
    | exit =>
      obtain rfl := List.mem_singleton.mp first
      exact setTask_sound before (by simp) fun kernel => absurd kernel stays
    | _ => cases first
  · obtain rfl := List.mem_singleton.mp last
    exact enter_sound before stays spares

theorem moments_sound (before : Sound s) (stays : KernelStays s op) (spares : ¬op.Kills 0) :
    ∀ m ∈ moments sym s op, Sound m := by
  intro m member
  rcases List.mem_append.mp member with entering | scheduling
  · exact enterMoments_sound before stays spares m entering
  · split_ifs at scheduling
    · exact scheduleMoments_sound (enter_sound before stays spares) m scheduling
    · cases scheduling

theorem step_sound (before : Sound s) (stays : KernelStays s op) (spares : ¬op.Kills 0) :
    Sound (step sym s op).1 := by
  have entered : Sound (enter sym s op) := enter_sound before stays spares
  by_cases calls : Calls s op
  · rw [step_of_calls calls]
    exact (schedule_sound sym entered).1
  · rw [step_of_quiet calls]
    exact entered

theorem taskInit_status (s : State) (i : Fin 16) :
    (taskInit s).status i = if i = 0 then .running else .unused :=
  apply_ite Task.state _ _ _

theorem taskInit_sound (s : State) : Sound (taskInit s) := by
  constructor
  · intro i running
    rw [taskInit_status] at running
    split_ifs at running with kernel
    exact kernel
  · exact .inr (taskInit_status s 0)

/-- The current task is the only running one, also inside operations, the kernel task is alive, and
`find_next_task` never needs its last line. -/
structure Scheduled (sym : Symbols) (past : List (State × Event)) (last : State) : Prop where
  states : ∀ t ∈ past.map Prod.fst ++ [last], Sound t
  moments : ∀ s op, (s,.call op) ∈ past → ∀ m ∈ moments sym s op, Sound m
  schedules : ∀ s op, (s,.call op) ∈ past → Calls s op →
    ¬FallsBack (enter sym s op) ∧ OneRunning (step sym s op).1

theorem moves_sound {e : Event} (before : Sound s) (spares : e.Spares) (moved : KernelMoves sym s e t) :
    Sound t := by
  cases e with
  | call op =>
    obtain ⟨stays,rfl⟩ := moved
    exact step_sound before (stays op rfl) spares
  | stray id after => exact spares.elim

/-- A kill that leads to slot 0 ends the kernel task. -/
theorem kernel_killed (sym : Symbols) (before : Sound s) (kills : op.Kills 0) : ¬Sound (enter sym s op) := by
  cases op with
  | kill id =>
    have dead : (enter sym s (.kill id)).status 0 = .dead := by
      have alive : s.status 0 ≠ .unused ∧ s.status 0 ≠ .dead := by
        rcases before.kernel with ready | running
        · simp [ready]
        · simp [running]
      have writes : written s (.kill id) = some (0,.dead) := by
        rw [written,show target id = some 0 from kills,Option.bind_some,if_pos alive]
      rw [status_enter,writes]
      exact if_pos rfl
    intro sound
    simpa [dead] using sound.kernel
  | _ => exact kills.elim

/-- The scheduler holds in every run whose kills spare the kernel task, and in no run, as far as no kill
leads astray, in which one does not. -/
theorem scheduler_sound_iff (sym : Symbols) (s : State) {past : List (State × Event)} {last : State}
    (run : Run (KernelMoves sym) (taskInit s) past last) :
    ((∀ entry ∈ past, entry.2.Spares) → Scheduled sym past last) ∧
      ((∀ entry ∈ past, ¬entry.2.Strays) → Scheduled sym past last → ∀ entry ∈ past, entry.2.Spares) := by
  constructor
  · intro spares
    let cond : State → Event → Prop := fun _ e => e.Spares
    have kept : ∀ s e t, Sound s → cond s e → KernelMoves sym s e t → Sound t :=
      fun _ _ _ before spares moved => moves_sound before spares moved
    have sound := run.invariant_throughout (taskInit_sound s) kept spares
    have entered (state : State) (op : Op) (member : (state,.call op) ∈ past) :
        Sound state ∧ KernelStays state op ∧ ¬op.Kills 0 := by
      obtain ⟨before,after,rfl⟩ := List.append_of_mem member
      obtain ⟨-,next,⟨stays,-⟩,-⟩ := run.split
      exact ⟨sound state (by simp),stays op rfl,spares _ member⟩
    refine ⟨sound,fun state op member => ?_,fun state op member calls => ?_⟩
    · obtain ⟨before,stays,spared⟩ := entered state op member
      exact moments_sound before stays spared
    · obtain ⟨before,stays,spared⟩ := entered state op member
      have after : Sound (enter sym state op) := enter_sound before stays spared
      rw [step_of_calls calls]
      exact ⟨not_fallsBack after,(schedule_sound sym after).2⟩
  · rintro straight scheduled ⟨state,e⟩ member
    cases e with
    | call op =>
      intro kills
      have before := scheduled.states state (List.mem_append_left _ (List.mem_map_of_mem member))
      refine kernel_killed sym before kills (scheduled.moments state op member _ ?_)
      exact List.mem_append_left _ (List.mem_append_right _ (List.mem_singleton_self _))
    | stray id after => exact straight _ member trivial

theorem kernel_moves (sym : Symbols) (s : State) (op : Op) (stays : KernelStays s op) :
    KernelMoves sym s (.call op) (step sym s op).1 := by
  refine ⟨fun other same => ?_,rfl⟩
  cases same
  exact stays

theorem kernelSlot : slotAt 0x80000000 = some 0 := slotAt_eq_some.mpr rfl

/-- What `kill 2147483648` comes to. -/
def kernelAlias : KillId := ⟨0x80000000,.inr (Option.isSome_of_eq_some kernelSlot)⟩

/-- A task is created, killed by its own number and passed by. -/
def killedTurns : List Op := [.create kernelName 0,.kill (.of 1),.yield]

theorem scheduler_sound_killedTurns : ∃ past last, past.map Prod.snd = killedTurns.map Event.call ∧
    Run (KernelMoves default) (taskInit default) past last ∧ Scheduled default past last := by
  let made := (step default (taskInit default) (.create kernelName 0)).1
  let killed := (step default made (.kill (.of 1))).1
  have run := Run.cons (kernel_moves default (taskInit default) (.create kernelName 0) trivial)
    (Run.cons (kernel_moves default made (.kill (.of 1)) trivial)
      (Run.single (kernel_moves default killed .yield trivial)))
  refine ⟨_,_,rfl,run,(scheduler_sound_iff default default run).1 ?_⟩
  have other : target (.of 1) ≠ some 0 := by decide +kernel
  simp only [List.forall_mem_cons]
  exact ⟨not_false,other,not_false,List.forall_mem_nil _⟩

/-- The smallest number leads to the kernel task. -/
theorem kernel_alias_killed : ¬∀ (sym : Symbols) (s : State) (past : List (State × Event)) (last : State),
    Run (KernelMoves sym) (taskInit s) past last → Scheduled sym past last := by
  intro always
  have scheduled := always default default _ _
    (Run.single (kernel_moves default (taskInit default) (.kill kernelAlias) trivial))
  have kills : (Op.kill kernelAlias).Kills 0 := target_eq_some.mpr (by decide)
  refine kernel_killed default (taskInit_sound default) kills ?_
  exact scheduled.states _ (List.mem_append_right _ (List.mem_singleton_self _))

end

end NimrodOS.Tasks
