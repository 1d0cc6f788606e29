import Mathlib.Data.Fintype.Card
import NimrodOS.TaskKill

/-! Who gets a slot. `task_create` takes unused slots only, and a slot that was taken
once never becomes unused again. -/
namespace NimrodOS.Tasks

open Transition Libc

/-- The slots of the kernel task and of the current task are taken. -/
structure Occupied (s : State) : Prop where
  kernel : s.status 0 ≠ .unused
  current : s.status s.currentTask ≠ .unused

def unusedSlots (s : State) : Finset (Fin 16) := {i | s.status i = .unused}

/-- The slot that an operation gives to a new task. -/
def created (s : State) : Op → Option (Fin 16)
  | .create _ _ => unusedSlot s
  | _ => none

/-- How many tasks the run has created. -/
def creations (past : List (State × Op)) : Nat :=
  past.countP fun entry => (created entry.1 entry.2).isSome

section

variable {sym : Symbols} {s t : State} {op : Op} {i : Fin 16}

theorem taskCreate_result (sym : Symbols) (s : State) (name : CString) (entry : Word) :
    (taskCreate sym s name entry).2 = match unusedSlot s with
      | some slot => (slot.val : Int)
      | none => -1 := by
  unfold taskCreate
  cases unusedSlot s <;> rfl

theorem refused_iff {name : CString} {entry : Word} :
    (taskCreate sym s name entry).2 = -1 ↔ ∀ i, s.status i ≠ .unused := by
  rw [taskCreate_result,← unusedSlot_none]
  cases unusedSlot s with
  | none => simp
  | some slot => simp

theorem created_eq_written (op : Op) : created s op = some i ↔
    written s op = some (i,.ready) := by
  cases op with
  | create name entry => simp [created,written]
  | kill id =>
    refine iff_of_false (fun made => by cases made) ?_
    intro writes
    obtain ⟨j,-,same⟩ := Option.bind_eq_some_iff.mp writes
    split_ifs at same
    cases same
  | _ => simp [created,written]

theorem enter_unused (occupied : Occupied s) : (enter sym s op).status i = .unused ↔
    s.status i = .unused ∧ created s op ≠ some i := by
  rw [status_enter,Ne,created_eq_written]
  cases writes : written s op with
  | none => simp
  | some write =>
    obtain ⟨j,v⟩ := write
    by_cases here : i = j
    · subst here
      rcases written_cases writes with
        ⟨-,free,rfl⟩ | ⟨-,rfl,rfl⟩ | ⟨-,rfl,rfl⟩ | ⟨-,taken,-,rfl⟩
      · simp
      · simp [occupied.current]
      · simp [occupied.current]
      · simp [taken]
    · have other : (j,v) ≠ (i,.ready) := fun same => here (Prod.mk.inj same).1.symm
      simp [here,other]

theorem enter_occupied (occupied : Occupied s) : Occupied (enter sym s op) := by
  constructor
  · exact fun free => occupied.kernel ((enter_unused occupied).mp free).1
  · rw [currentTask_enter]
    exact fun free => occupied.current ((enter_unused occupied).mp free).1

theorem schedule_unused (sym : Symbols) (occupied : Occupied s) :
    (taskSchedule sym s).1.status i = .unused ↔ s.status i = .unused := by
  rcases schedule_cases sym s with ⟨-,stayed⟩ | ⟨next,-,switched⟩
  · rw [stayed.status]
  · rw [switched.status]
    split_ifs with here yields
    · subst here
      have taken : s.status i ≠ .unused := by
        rcases switched.picked with ⟨ready | due,-⟩ | ⟨-,-,rfl⟩
        · simp [ready]
        · simp [due.1]
        · exact occupied.kernel
      simp [taken]
    · rcases yields with ⟨-,running⟩ | due
      · simp [running]
      · simp [due.1]
    · exact Iff.rfl

theorem step_occupied (occupied : Occupied s) : Occupied (step sym s op).1 := by
  have entered : Occupied (enter sym s op) := enter_occupied occupied
  by_cases calls : Calls s op
  · rw [step_of_calls calls]
    constructor
    · exact mt (schedule_unused sym entered).mp entered.kernel
    · simp [schedule_running]
  · rw [step_of_quiet calls]
    exact entered

/-- A step takes at most the slot of the task it creates. -/
theorem step_unused (occupied : Occupied s) : (step sym s op).1.status i = .unused ↔
    s.status i = .unused ∧ created s op ≠ some i := by
  by_cases calls : Calls s op
  · rw [step_of_calls calls,schedule_unused sym (enter_occupied occupied)]
    exact enter_unused occupied
  · rw [step_of_quiet calls]
    exact enter_unused occupied

theorem step_unusedSlots (sym : Symbols) (op : Op) (occupied : Occupied s) :
    (unusedSlots (step sym s op).1).card + (if (created s op).isSome then 1 else 0) =
      (unusedSlots s).card := by
  cases took : created s op with
  | none =>
    have same : unusedSlots (step sym s op).1 = unusedSlots s := by
      ext i
      simp [unusedSlots,step_unused occupied,took]
    simp [same]
  | some slot =>
    have erased : unusedSlots (step sym s op).1 = (unusedSlots s).erase slot := by
      ext i
      simp [unusedSlots,step_unused occupied,took,and_comm,eq_comm]
    have free : slot ∈ unusedSlots s := by
      cases op with
      | create name entry => simpa [unusedSlots] using unusedSlot_some took
      | _ => cases took
    have left : 0 < (unusedSlots s).card := Finset.card_pos.mpr ⟨slot,free⟩
    rw [erased,Finset.card_erase_of_mem free]
    simp
    omega

theorem taskInit_occupied (s : State) : Occupied (taskInit s) := by
  constructor
  · simp [taskInit_status]
  · simp [taskInit,State.status]

/-- Each of the fifteen slots behind the kernel's is given out at most once. -/
theorem creations_unusedSlots {past : List (State × Op)}
    (run : Run (Step sym) (taskInit s) past t) :
    Occupied t ∧ (unusedSlots t).card + creations past = 15 := by
  induction run with
  | nil =>
    refine ⟨taskInit_occupied s,?_⟩
    have fresh : unusedSlots (taskInit s) = Finset.univ.erase 0 := by
      ext i
      simp [unusedSlots,taskInit_status]
    rw [fresh]
    rfl
  | @snoc past state next op _ moved ih =>
    obtain ⟨occupied,total⟩ := ih
    obtain rfl := moved
    have taken := step_unusedSlots sym op occupied
    refine ⟨step_occupied occupied,?_⟩
    simp only [creations,List.countP_append,List.countP_singleton] at total ⊢
    omega

/-- Every refused `task_create` found all slots in use by live tasks. -/
def RefusesWhenLive (sym : Symbols) (past : List (State × Op)) : Prop :=
  ∀ before s name entry after, past = before ++ (s,.create name entry) :: after →
    (taskCreate sym s name entry).2 = -1 → ∀ i, Live (s.status i)

/-- Every `task_create` comes before the fifteenth success, or meets no dead task. -/
def RoomOrNoDead (past : List (State × Op)) : Prop :=
  ∀ before s name entry after, past = before ++ (s,.create name entry) :: after →
    creations before < 15 ∨ ∀ i, s.status i ≠ .dead

/-- Some continuation gives the slot to a new task. -/
def Reusable (sym : Symbols) (s : State) (i : Fin 16) : Prop :=
  ∃ future last, Run (Step sym) s future last ∧
    ∃ entry ∈ future, created entry.1 entry.2 = some i

/-- At one call: a refusal is right unless all slots are given out and one is dead. -/
theorem refusal_iff {past : List (State × Op)} (run : Run (Step sym) (taskInit s) past t)
    (name : CString) (entry : Word) :
    ((taskCreate sym t name entry).2 = -1 → ∀ i, Live (t.status i)) ↔
      creations past < 15 ∨ ∀ i, t.status i ≠ .dead := by
  obtain ⟨-,total⟩ := creations_unusedSlots run
  have full : (taskCreate sym t name entry).2 = -1 ↔ ¬creations past < 15 := by
    have empty : (∀ i, t.status i ≠ .unused) ↔ (unusedSlots t).card = 0 := by
      simp [unusedSlots,Finset.filter_eq_empty_iff]
    rw [refused_iff,empty]
    omega
  rw [full,← or_iff_not_imp_left]
  by_cases room : creations past < 15
  · simp [room]
  · have taken := refused_iff.mp (full.mpr room)
    simp only [room,false_or]
    refine forall_congr' fun i => ?_
    have used := taken i
    cases state : t.status i <;> simp_all [Live]

theorem not_reusable (occupied : Occupied s) (taken : s.status i ≠ .unused) :
    ¬Reusable sym s i := by
  rintro ⟨future,last,run,⟨state,op⟩,member,took⟩
  obtain ⟨before,after,rfl⟩ := List.append_of_mem member
  have kept : ∀ s op t, (Occupied s ∧ s.status i ≠ .unused) → Step sym s op t →
      Occupied t ∧ t.status i ≠ .unused := by
    rintro s op t ⟨occupied,taken⟩ rfl
    exact ⟨step_occupied occupied,fun free => taken ((step_unused occupied).mp free).1⟩
  have stillTaken := (run.split.1.invariant ⟨occupied,taken⟩ kept).2
  cases op with
  | create name entry => exact stillTaken (unusedSlot_some took)
  | _ => cases took

/-- Refusals are right in exactly the runs in which slots last or nobody dies, and the
slot of a dead task is lost for ever. -/
theorem slots_reclaimed_iff (sym : Symbols) (s : State) {past : List (State × Op)} {last : State}
    (run : Run (Step sym) (taskInit s) past last) :
    (RefusesWhenLive sym past ↔ RoomOrNoDead past) ∧
      ∀ i, (last.status i = .dead → Reusable sym last i) ↔ last.status i ≠ .dead := by
  constructor
  · constructor
    · rintro refuses before state name entry after rfl
      exact (refusal_iff run.split.1 name entry).mp (refuses before state name entry after rfl)
    · rintro room before state name entry after rfl
      exact (refusal_iff run.split.1 name entry).mpr (room before state name entry after rfl)
  · intro i
    constructor
    · intro reusable dead
      have occupied := (creations_unusedSlots run).1
      exact not_reusable occupied (by simp [dead]) (reusable dead)
    · exact fun alive dead => absurd dead alive

/-- A few tasks come and go. -/
theorem slots_reclaimed_killedYields : RefusesWhenLive default
    (trace (fun s op => (step default s op).1) (taskInit default) killedYields) := by
  have run := run_trace (fun s op => (step default s op).1) (taskInit default) killedYields
  apply (slots_reclaimed_iff default default run).1.mpr
  intro before state name entry after whole
  left
  have short : before.length < 4 := by
    have length := congrArg List.length whole
    simp [killedYields,trace] at length
    omega
  exact Nat.lt_of_le_of_lt List.countP_le_length (by omega)

/-- Fifteen tasks are created and one of them is killed. -/
def fullThenKill : List Op := List.replicate 15 (.create kernelName 0) ++ [.kill (.of 1)]

theorem killed_slot_refused : ¬∀ (sym : Symbols) (s : State) (past : List (State × Op))
    (last : State), Run (Step sym) (taskInit s) past last → RefusesWhenLive sym past := by
  intro always
  let next : State → Op → State := fun s op => (step default s op).1
  let full : State := fullThenKill.foldl next (taskInit default)
  have run : Run (Step default) (taskInit default) (trace next (taskInit default) fullThenKill) full :=
    run_trace next (taskInit default) fullThenKill
  have refused : (taskCreate default full kernelName 0).2 = -1 := by decide +kernel
  have dead : ¬Live (full.status 1) := by decide +kernel
  have moved : Step default full (.create kernelName 0) (next full (.create kernelName 0)) := rfl
  have refuses := always default default _ _ (run.snoc moved)
  exact dead (refuses _ full kernelName 0 [] rfl refused 1)

end

end NimrodOS.Tasks
