import Mathlib.Tactic.IntervalCases
import NimrodOS.Lib.Run
import NimrodOS.TaskSwitch

/-! Any number of tasks that call `switch_context`. -/
namespace NimrodOS.Tasks

open ByteMemory X86 Transition

/-- Where the saved registers and the stack of each task lie. -/
structure Layout (ι : Type) where
  context : ι → Word
  stackLow : ι → Nat
  stackHigh : ι → Nat
  contextFits : ∀ i, (context i).toNat + 40 ≤ 2^32
  stackFits : ∀ i, stackHigh i ≤ 2^32
  contextApart : ∀ i j, i ≠ j → (context i).toNat + 40 ≤ (context j).toNat ∨
    (context j).toNat + 40 ≤ (context i).toNat
  stackApart : ∀ i j, i ≠ j → stackHigh i ≤ stackLow j ∨ stackHigh j ≤ stackLow i
  clear : ∀ i j, (context i).toNat + 40 ≤ stackLow j ∨ stackHigh j ≤ (context i).toNat

/-- A task that is not running: it was just created, or it is in a call of `switch_context`
that began with these registers and returns to `eip`. -/
inductive Parked where
  | fresh (entry : Word)
  | called (regs : TaskRegs)

structure Kernel (ι : Type) where
  machine : Machine
  current : ι
  parked : ι → Option Parked

/-- The registers at a call, with the address that it returns to. -/
def callRegs (m : Machine) : TaskRegs := {registers m with eip := m.top}

/-- The registers that `task_create` stores. -/
def startRegs (entry sp : Word) : TaskRegs :=
  {noRegs with eip := entry,esp := sp,ebp := sp,eflags := 0x202}

inductive Action (ι : Type) where
  /-- Code of the running task and of the kernel. -/
  | compute (m : Machine)
  | create (i : ι) (entry : Word) (m : Machine)
  /-- A call of `switch_context`. -/
  | switch (j : ι)

variable {ι : Type}

namespace Layout

/-- All but a task's own code leaves its context and, while it is parked, its stack alone. -/
structure Spares (lay : Layout ι) (mem mem' : Memory) (i : ι) : Prop where
  context : Agree mem mem' (lay.context i).toNat ((lay.context i).toNat + 40)
  stack : Agree mem mem' (lay.stackLow i) (lay.stackHigh i)

/-- What `task_create` leaves for a task: its registers, and `task_exit` on its stack. -/
structure Starts (lay : Layout ι) (taskExit : Word) (mem : Memory) (i : ι) (entry sp : Word) :
    Prop where
  regs : HoldsWords mem (lay.context i) (startRegs entry sp).words
  exit : load32 mem sp = taskExit
  low : lay.stackLow i + 4 ≤ sp.toNat
  high : sp.toNat + 4 ≤ lay.stackHigh i

/-- A call of `switch_context` by the running task, on its own stack. -/
structure Calls (lay : Layout ι) (s : Kernel ι) (j : ι) : Prop where
  oldArg : load32 s.machine.mem (s.machine.reg .esp + 4) = lay.context s.current
  newArg : load32 s.machine.mem (s.machine.reg .esp + 8) = lay.context j
  low : lay.stackLow s.current + 4 ≤ (s.machine.reg .esp).toNat
  high : (s.machine.reg .esp).toNat + 12 ≤ lay.stackHigh s.current
  target : j = s.current ∨ s.parked j ≠ none

end Layout

/-! What is stored for a parked task. -/

/-- The words of a context that a switch writes. -/
def TaskRegs.saveInto (r old : TaskRegs) : TaskRegs :=
  {old with
    ebx := r.ebx,esi := r.esi,edi := r.edi,ebp := r.ebp,esp := r.esp,eip := r.eip,eflags := r.eflags}

theorem savedRegs_eq (m : Machine) (old : TaskRegs) : savedRegs m old = (callRegs m).saveInto old := rfl

/-- A context belongs to a parked task. -/
def Parked.Matches : Parked → TaskRegs → Prop
  | .fresh entry,r => r = startRegs entry r.esp
  | .called regs,r => ∃ old, r = regs.saveInto old

/-- The context in memory, its stack pointer on the task's own stack, and for a fresh task
the address of `task_exit` where that points. -/
structure Layout.Stored (lay : Layout ι) (taskExit : Word) (mem : Memory) (i : ι) (p : Parked)
    (r : TaskRegs) : Prop where
  words : HoldsWords mem (lay.context i) r.words
  low : lay.stackLow i + 4 ≤ r.esp.toNat
  high : r.esp.toNat + 4 ≤ lay.stackHigh i
  belongs : p.Matches r
  exit : ∀ entry, p = .fresh entry → load32 mem r.esp = taskExit

/-- Whatever stands in memory is some structure. -/
theorem exists_words (mem : Memory) (a : Word) : ∃ r : TaskRegs, HoldsWords mem a r.words := by
  refine ⟨⟨load32 mem (a + 0),load32 mem (a + 4),load32 mem (a + 8),load32 mem (a + 12),
    load32 mem (a + 16),load32 mem (a + 20),load32 mem (a + 24),load32 mem (a + 28),
    load32 mem (a + 32),load32 mem (a + 36)⟩,?_⟩
  intro i inside
  have small : i < 10 := inside
  interval_cases i <;> rfl

variable {lay : Layout ι} {taskExit : Word} {s s' : Kernel ι} {i j : ι} {p : Parked}
  {mem mem' : Memory} {r : TaskRegs}

namespace Layout

theorem Stored.spared (stored : lay.Stored taskExit mem i p r) (spares : lay.Spares mem mem' i) :
    lay.Stored taskExit mem' i p r := by
  have fits := lay.stackFits i
  have low := stored.low
  have high := stored.high
  refine ⟨stored.words.agree (lay.contextFits i) spares.context,low,high,stored.belongs,?_⟩
  intro entry fresh
  rw [← stored.exit entry fresh]
  exact ((spares.stack.load32 _ (by omega) high (by omega))).symm

theorem Starts.stored {entry sp : Word} (starts : lay.Starts taskExit mem i entry sp) :
    lay.Stored taskExit mem i (.fresh entry) (startRegs entry sp) :=
  ⟨starts.regs,starts.low,starts.high,rfl,fun _ _ => starts.exit⟩

theorem Calls.room (calls : lay.Calls s j) :
    Room s.machine (lay.context s.current) (lay.context j) := by
  have fits := lay.stackFits s.current
  have low := calls.low
  have high := calls.high
  have oldClear := lay.clear s.current s.current
  have newClear := lay.clear j s.current
  refine ⟨calls.oldArg,calls.newArg,by omega,by omega,lay.contextFits _,lay.contextFits _,
    by omega,by omega,?_⟩
  by_cases same : s.current = j
  · exact .inl (congrArg lay.context same)
  · exact .inr (lay.contextApart _ _ same)

/-- A stack pointer of a task is clear of all contexts. -/
theorem Stored.clears (stored : lay.Stored taskExit mem i p r) (k : ι) :
    Room.Clears r.esp (lay.context k) := by
  have low := stored.low
  have high := stored.high
  have clear := lay.clear k i
  exact ⟨by omega,by omega⟩

/-- A save parks the running task. -/
theorem Calls.parks (calls : lay.Calls s j) {mem : Memory} {old : TaskRegs}
    (held : HoldsWords mem (lay.context s.current) (savedRegs s.machine old).words) :
    lay.Stored taskExit mem s.current (.called (callRegs s.machine)) (savedRegs s.machine old) := by
  have low := calls.low
  have high := calls.high
  have esp : (savedRegs s.machine old).esp.toNat = (s.machine.reg .esp).toNat := rfl
  refine ⟨held,by omega,by omega,⟨old,savedRegs_eq s.machine old⟩,?_⟩
  intro entry fresh
  cases fresh

end Layout

/-! Steps of the kernel. -/

variable [DecidableEq ι]

/-- The tasks that are parked once the running one has called. -/
def Kernel.leave (s : Kernel ι) : ι → Option Parked :=
  Function.update s.parked s.current (some (.called (callRegs s.machine)))

/-- Interrupts do not arrive inside of `switch_context`, so a call of it is one step. -/
inductive Layout.Step (lay : Layout ι) (taskExit : Word) (s : Kernel ι) :
    Action ι → Kernel ι → Prop where
  | compute (m : Machine) :
      (∀ i, Agree s.machine.mem m.mem (lay.context i).toNat ((lay.context i).toNat + 40)) →
      (∀ i, i ≠ s.current → lay.Spares s.machine.mem m.mem i) →
      lay.Step taskExit s (.compute m) {s with machine := m}
  | create (i : ι) (entry sp : Word) (m : Machine) : i ≠ s.current →
      (∀ k, k ≠ i → k ≠ s.current → lay.Spares s.machine.mem m.mem k) →
      lay.Starts taskExit m.mem i entry sp →
      lay.Step taskExit s (.create i entry m)
        ⟨m,s.current,Function.update s.parked i (some (.fresh entry))⟩
  | switch (j : ι) : lay.Calls s j →
      lay.Step taskExit s (.switch j)
        ⟨run switchCode s.machine,j,Function.update s.leave j none⟩

/-- The machine goes on as the task that it was switched to expects. After a return from the
call the stack pointer stands above the return address. -/
def Resumed (taskExit : Word) (m : Machine) : Parked → Prop
  | .fresh entry => m.eip = entry ∧ load32 m.mem (m.reg .esp) = taskExit
  | .called regs => m.eip = regs.eip ∧ m.reg .ebx = regs.ebx ∧ m.reg .esi = regs.esi ∧
      m.reg .edi = regs.edi ∧ m.reg .ebp = regs.ebp ∧ m.eflags = regs.eflags ∧
      m.reg .esp = regs.esp + 4

/-- Every switch is transparent. -/
def Transparent (taskExit : Word) (s : Kernel ι) : Action ι → Prop
  | .switch j => ∀ p, s.leave j = some p → Resumed taskExit (run switchCode s.machine) p
  | _ => True

/-- The step switches to a task that was switched out before. -/
def Resumes (s : Kernel ι) : Action ι → Prop
  | .switch j => ∃ regs, s.leave j = some (.called regs)
  | _ => False

/-! Runs. -/

/-- Parked tasks are not running and wait as they were left. -/
def Layout.Waits (lay : Layout ι) (taskExit : Word) (s : Kernel ι) : Prop :=
  ∀ i p, s.parked i = some p → i ≠ s.current ∧ ∃ r, lay.Stored taskExit s.machine.mem i p r

namespace Layout

/-- What the load half of a switch finds. -/
theorem Calls.loads (calls : lay.Calls s j) (waits : lay.Waits taskExit s)
    (left : s.leave j = some p) :
    ∃ r, lay.Stored taskExit (savedMemory s.machine (lay.context s.current)) j p r := by
  have room := calls.room
  obtain ⟨old,held⟩ := exists_words s.machine.mem (lay.context s.current)
  by_cases same : j = s.current
  · subst same
    rw [Kernel.leave,Function.update_self] at left
    obtain rfl := Option.some.inj left
    exact ⟨_,calls.parks (room.saved_holds held)⟩
  · rw [Kernel.leave,Function.update_of_ne same] at left
    obtain ⟨-,r,stored⟩ := waits j p left
    have low := calls.low
    have high := calls.high
    have clear := lay.clear j s.current
    have apart := lay.contextApart j s.current same
    have apartStacks := lay.stackApart j s.current same
    have context := lay.clear s.current j
    refine ⟨r,stored.spared ⟨?_,?_⟩⟩
    · exact fun x below above => (room.saved_outside (by omega) (by omega)).symm
    · exact fun x below above => (room.saved_outside (by omega) (by omega)).symm

/-- The machine after a switch to a task with a context that belongs to it. -/
theorem Calls.switched (calls : lay.Calls s j) (waits : lay.Waits taskExit s)
    (left : s.leave j = some p) : ∃ r, p.Matches r ∧
    registers (run switchCode s.machine) = loadContext (registers s.machine) r (lay.context j) ∧
    (∀ entry, p = .fresh entry → load32 (run switchCode s.machine).mem r.esp = taskExit) ∧
    lay.Waits taskExit ⟨run switchCode s.machine,j,Function.update s.leave j none⟩ := by
  have room := calls.room
  obtain ⟨old,held⟩ := exists_words s.machine.mem (lay.context s.current)
  obtain ⟨r,stored⟩ := calls.loads waits left
  obtain ⟨regs,saved,outside⟩ := room.switched held stored.words (stored.clears s.current)
    (stored.clears j)
  have low := calls.low
  have high := calls.high
  have lowR := stored.low
  have highR := stored.high
  refine ⟨r,stored.belongs,regs,?_,?_⟩
  · intro entry fresh
    subst fresh
    have other : j ≠ s.current := by
      rintro rfl
      rw [Kernel.leave,Function.update_self] at left
      cases left
    have apartStacks := lay.stackApart j s.current other
    have context := lay.clear s.current j
    have fits := lay.stackFits j
    rw [← stored.exit entry rfl]
    have same : Agree (run switchCode s.machine).mem
        (savedMemory s.machine (lay.context s.current)) r.esp.toNat (r.esp.toNat + 4) :=
      fun x below above => (outside x (by omega) (by omega) (by omega)).trans
        (room.saved_outside (by omega) (by omega)).symm
    exact same.load32 _ le_rfl le_rfl (by omega)
  · intro i q parked
    replace parked : Function.update s.leave j none i = some q := parked
    have apart : i ≠ j := by
      rintro rfl
      rw [Function.update_self] at parked
      cases parked
    rw [Function.update_of_ne apart] at parked
    refine ⟨apart,?_⟩
    by_cases here : i = s.current
    · subst here
      rw [Kernel.leave,Function.update_self] at parked
      obtain rfl := Option.some.inj parked
      exact ⟨_,calls.parks saved⟩
    · rw [Kernel.leave,Function.update_of_ne here] at parked
      obtain ⟨-,r',waiting⟩ := waits i q parked
      have contexts := lay.contextApart i s.current here
      have clear := lay.clear i s.current
      have clearJ := lay.clear i j
      have context := lay.clear s.current i
      have apartStacks := lay.stackApart i s.current here
      have apartJ := lay.stackApart i j apart
      refine ⟨r',waiting.spared ⟨?_,?_⟩⟩
      · exact fun x below above => (outside x (by omega) (by omega) (by omega)).symm
      · exact fun x below above => (outside x (by omega) (by omega) (by omega)).symm

/-- A step leaves the parked tasks waiting. -/
theorem Step.waits {action : Action ι} (waits : lay.Waits taskExit s)
    (moved : lay.Step taskExit s action s') : lay.Waits taskExit s' := by
  cases moved with
  | compute m contexts others =>
    intro i p parked
    obtain ⟨apart,r,stored⟩ := waits i p parked
    exact ⟨apart,r,stored.spared (others i apart)⟩
  | create k entry sp m other others starts =>
    intro i p parked
    replace parked : Function.update s.parked k (some (.fresh entry)) i = some p := parked
    by_cases here : i = k
    · subst here
      rw [Function.update_self] at parked
      obtain rfl := Option.some.inj parked
      exact ⟨other,_,starts.stored⟩
    · rw [Function.update_of_ne here] at parked
      obtain ⟨apart,r,stored⟩ := waits i p parked
      exact ⟨apart,r,stored.spared (others i here apart)⟩
  | switch j calls =>
    have parked : ∃ p, s.leave j = some p := by
      by_cases same : j = s.current
      · subst same
        exact ⟨_,Function.update_self ..⟩
      · obtain ⟨p,parked⟩ := Option.ne_none_iff_exists'.mp (calls.target.resolve_left same)
        exact ⟨p,(Function.update_of_ne same ..).trans parked⟩
    obtain ⟨p,left⟩ := parked
    obtain ⟨-,-,-,-,waiting⟩ := calls.switched waits left
    exact waiting

/-- A task that was switched out goes on behind its call with its registers and flags, but
its stack pointer still points at the return address. -/
theorem resumed_of_loaded {m : Machine} {cpu regs old : TaskRegs} {b : Word}
    (loaded : registers m = loadContext cpu (regs.saveInto old) b) :
    Resumed taskExit m (.called {regs with esp := regs.esp - 4}) := by
  have esp : m.reg .esp = regs.esp := congrArg TaskRegs.esp loaded
  refine ⟨congrArg TaskRegs.eip loaded,congrArg TaskRegs.ebx loaded,congrArg TaskRegs.esi loaded,
    congrArg TaskRegs.edi loaded,congrArg TaskRegs.ebp loaded,congrArg TaskRegs.eflags loaded,?_⟩
  rw [esp]
  exact (BitVec.sub_add_cancel regs.esp 4).symm

theorem Calls.continues {regs : TaskRegs} (calls : lay.Calls s j) (waits : lay.Waits taskExit s)
    (left : s.leave j = some (.called regs)) :
    Resumed taskExit (run switchCode s.machine) (.called {regs with esp := regs.esp - 4}) := by
  obtain ⟨r,⟨old,rfl⟩,loaded,-⟩ := calls.switched waits left
  exact resumed_of_loaded loaded

theorem Calls.starts {entry : Word} (calls : lay.Calls s j) (waits : lay.Waits taskExit s)
    (left : s.leave j = some (.fresh entry)) :
    Resumed taskExit (run switchCode s.machine) (.fresh entry) := by
  obtain ⟨r,belongs,loaded,exit,-⟩ := calls.switched waits left
  generalize run switchCode s.machine = m at loaded exit ⊢
  have eip : m.eip = r.eip := congrArg TaskRegs.eip loaded
  have esp : m.reg .esp = r.esp := congrArg TaskRegs.esp loaded
  refine ⟨eip.trans (congrArg TaskRegs.eip belongs),?_⟩
  rw [esp]
  exact exit entry rfl

/-- So it is transparent just for tasks that were not switched out before. -/
theorem transparent_iff {action : Action ι} (waits : lay.Waits taskExit s)
    (moved : lay.Step taskExit s action s') : Transparent taskExit s action ↔ ¬Resumes s action := by
  cases moved with
  | compute | create => exact iff_of_true trivial not_false
  | switch j calls =>
    constructor
    · rintro transparent ⟨regs,left⟩
      have expected := (transparent _ left).2.2.2.2.2.2
      have found := (calls.continues waits left).2.2.2.2.2.2
      have same : regs.esp = regs.esp + 4 := by
        rw [← expected,found]
        exact (BitVec.sub_add_cancel regs.esp 4).symm
      bv_omega
    · intro fresh p left
      cases p with
      | fresh entry => exact calls.starts waits left
      | called regs => exact absurd ⟨regs,left⟩ fresh

end Layout

/-- Before any task was switched out or created. -/
def startKernel (m : Machine) (i : ι) : Kernel ι := ⟨m,i,fun _ => none⟩

/-- The switches of a run are transparent just as far as they do not resume a task that was
switched out. -/
theorem switches_transparent_iff (lay : Layout ι) (taskExit : Word) {m : Machine} {i : ι}
    {past : List (Kernel ι × Action ι)} (run : Run (lay.Step taskExit) (startKernel m i) past s) :
    (∀ entry ∈ past, Transparent taskExit entry.1 entry.2) ↔
      ∀ entry ∈ past, ¬Resumes entry.1 entry.2 := by
  apply forall₂_congr
  rintro ⟨state,action⟩ member
  obtain ⟨before,after,rfl⟩ := List.append_of_mem member
  obtain ⟨prior,next,moved,-⟩ := run.split
  have start : lay.Waits taskExit (startKernel m i) := by
    intro k p parked
    cases parked
  have waits := prior.invariant start fun _ _ _ waits moved => moved.waits waits
  exact Layout.transparent_iff waits moved

/-! The table of the kernel. -/

/-- The kernel runs on the stack that it was booted with, the other tasks on those in their
slots. -/
def tableLayout (sym : Symbols) (fits : TableFits sym) (low high : Nat) (inside : high ≤ 2^32)
    (apart : high ≤ sym.tasks.toNat ∨ sym.tasks.toNat + 16 * 4180 ≤ low) : Layout (Fin 16) where
  context := regsAddr sym
  stackLow i := if i = 0 then low else sym.tasks.toNat + (i * 4180 + 80)
  stackHigh i := if i = 0 then high else sym.tasks.toNat + (i * 4180 + 4176)
  contextFits i := by
    rw [regsAddr_toNat fits]
    unfold TableFits at fits
    omega
  stackFits i := by
    have within : (i : Nat) * 4180 + 4176 ≤ 16 * 4180 := by omega
    split_ifs
    · exact inside
    · exact (Nat.add_le_add_left within _).trans fits
  contextApart i j other := by
    have different := Fin.val_ne_of_ne other
    rw [regsAddr_toNat fits,regsAddr_toNat fits]
    omega
  stackApart i j other := by
    have different := Fin.val_ne_of_ne other
    split_ifs with first second second
    · exact absurd (first.trans second.symm) other
    · omega
    · omega
    · omega
  clear i j := by
    rw [regsAddr_toNat fits]
    split_ifs <;> omega

/-- `task_create` leaves what a fresh task starts with, on the stack in its slot. -/
theorem taskCreate_starts {sym : Symbols} {s : State} {name : Libc.CString} {entry : Word}
    {slot : Fin 16} (fits : TableFits sym) (free : unusedSlot s = some slot) :
    ∃ sp, ((taskCreate sym s name entry).1.tasks slot).regs = startRegs entry sp ∧
      load32 ((taskCreate sym s name entry).1.tasks slot).stack sp = sym.taskExit ∧
      sym.tasks.toNat + (slot * 4180 + 80) + 4 ≤ sp.toNat ∧
      sp.toNat + 4 ≤ sym.tasks.toNat + (slot * 4180 + 4176) := by
  have bound := slot.isLt
  have top : (stackTop sym slot).toNat = sym.tasks.toNat + (slot * 4180 + 4176) := by
    unfold TableFits at fits
    exact offset_toNat (by omega)
  have aligned : (stackTop sym slot &&& ~~~0xF).toNat = (stackTop sym slot).toNat / 16 * 16 :=
    clearLow_toNat (stackTop sym slot) 4
  have sp : ((stackTop sym slot &&& ~~~0xF) - 4).toNat = (stackTop sym slot).toNat / 16 * 16 - 4 := by
    have four : (4 : Word).toNat = 4 := rfl
    rw [BitVec.toNat_sub,aligned,four]
    omega
  refine ⟨(stackTop sym slot &&& ~~~0xF) - 4,?_,?_,by omega,by omega⟩
  · simp [taskCreate,free,State.setTask,startRegs]
  · simp [taskCreate,free,State.setTask]

/-! One task that switches to itself, as the kernel does when it sleeps and no other task is
ready. -/

def aloneLayout : Layout Unit where
  context _ := 0x1000
  stackLow _ := 0x2000
  stackHigh _ := 0x3000
  contextFits _ := by decide
  stackFits _ := by decide
  contextApart _ _ other := absurd rfl other
  stackApart _ _ other := absurd rfl other
  clear _ _ := by decide

/-- Both arguments of the call are the only context. -/
def aloneMachine : Machine where
  reg r := if r = .esp then 0x2f00 else 0
  eip := 0
  eflags := 2
  mem := store32 (store32 (fun _ => 0) 0x2f04 0x1000) 0x2f08 0x1000

theorem alone_calls : aloneLayout.Calls (startKernel aloneMachine ()) () :=
  ⟨by decide,by decide,by decide,by decide,.inl rfl⟩

theorem alone_run (taskExit : Word) : ∃ s, Run (aloneLayout.Step taskExit)
    (startKernel aloneMachine ()) [(startKernel aloneMachine (),.switch ())] s :=
  ⟨_,Run.single (.switch () alone_calls)⟩

theorem switches_transparent_alone :
    (∀ entry ∈ [(startKernel aloneMachine (),Action.switch ())], Transparent 0 entry.1 entry.2) ↔
      ∀ entry ∈ [(startKernel aloneMachine (),Action.switch ())], ¬Resumes entry.1 entry.2 := by
  obtain ⟨s,run⟩ := alone_run 0
  exact switches_transparent_iff aloneLayout 0 run

/-- The stack pointer is four short of what a transparent switch would leave. -/
theorem switch_alone_short : ∃ past s,
    Run (aloneLayout.Step 0) (startKernel aloneMachine ()) past s ∧
      ¬∀ entry ∈ past, Transparent 0 entry.1 entry.2 := by
  obtain ⟨s,run⟩ := alone_run 0
  refine ⟨_,s,run,?_⟩
  intro transparent
  have waits : aloneLayout.Waits 0 (startKernel aloneMachine ()) := by
    intro k p parked
    cases parked
  have left : (startKernel aloneMachine ()).leave () = some (.called (callRegs aloneMachine)) :=
    Function.update_self ..
  have expected := (transparent _ (List.mem_singleton_self _) _ left).2.2.2.2.2.2
  have found := (alone_calls.continues waits left).2.2.2.2.2.2
  have same : (callRegs aloneMachine).esp - 4 + 4 = (callRegs aloneMachine).esp + 4 :=
    found.symm.trans expected
  revert same
  decide

end NimrodOS.Tasks
