import Mathlib.Data.Fin.Basic
import NimrodOS.Lib.Cyclic
import NimrodOS.Libc

/-! The task table and its scheduler: `kernel/task.c`, `switch_context` of
`kernel/task_switch.asm`, and the callers of both that change the table: the timer
interrupt, `sys_sleep_handler` and `cmd_kill` of the shell. The lines that these print
or log are left out. -/
namespace NimrodOS.Tasks

open ByteMemory Libc

inductive TaskState where
  | unused
  | ready
  | running
  | sleeping
  | dead
  deriving DecidableEq, Repr, Inhabited

structure TaskRegs where
  eax : Word
  ebx : Word
  ecx : Word
  edx : Word
  esi : Word
  edi : Word
  ebp : Word
  esp : Word
  eip : Word
  eflags : Word
  deriving DecidableEq, Repr, Inhabited

/-- The stack is given by address. -/
structure Task where
  id : Int
  name : Fin 32 → Byte
  state : TaskState
  regs : TaskRegs
  stack : Memory
  wakeTick : Word
  deriving Inhabited

/-- The table, the counters of `task.c` and `timer.c`, and the registers of the CPU. -/
structure State where
  tasks : Fin 16 → Task
  currentTask : Fin 16
  taskCountVal : Int
  tickCount : Word
  preemptEnabled : Bool
  cpu : TaskRegs
  deriving Inhabited

/-- Addresses that the linker chooses: of the table, of `task_exit` and of the
instruction behind the only call of `switch_context`. -/
structure Symbols where
  tasks : Word
  taskExit : Word
  scheduleReturn : Word
  deriving Inhabited

def noRegs : TaskRegs := ⟨0,0,0,0,0,0,0,0,0,0⟩

/-- A slot after `memset`. -/
def clearedTask : Task := ⟨0,fun _ => 0,.unused,noRegs,fun _ => 0,0⟩

def State.setTask (s : State) (i : Fin 16) (t : Task) : State :=
  {s with tasks := fun j => if j = i then t else s.tasks j}

def State.setState (s : State) (i : Fin 16) (v : TaskState) : State :=
  s.setTask i {s.tasks i with state := v}

/-- The characters of "kernel". -/
def kernelName : CString := ⟨[0x6B,0x65,0x72,0x6E,0x65,0x6C],by decide⟩

def taskInit (s : State) : State :=
  let kernel : Task := {clearedTask with
    id := 0,name := strcpy clearedTask.name kernelName,state := .running}
  {s with
    tasks := fun i => if i = 0 then kernel else clearedTask
    taskCountVal := 1
    currentTask := 0}

/-- The end of a slot's stack; a slot has 4180 bytes and its stack ends 4 before them. -/
def stackTop (sym : Symbols) (slot : Fin 16) : Word :=
  sym.tasks + BitVec.ofNat 32 (slot * 4180 + 4176)

/-- The first unused slot. -/
@[irreducible] def unusedSlot (s : State) : Option (Fin 16) :=
  Fin.find? fun i => (s.tasks i).state == .unused

def taskCreate (sym : Symbols) (s : State) (name : CString) (entry : Word) : State × Int :=
  match unusedSlot s with
  | none => (s,-1)
  | some slot =>
    let sp := (stackTop sym slot &&& ~~~0xF) - 4
    let t : Task := {clearedTask with
      id := slot.val
      name := strncpy clearedTask.name name 31
      state := .ready
      stack := store32 clearedTask.stack sp sym.taskExit
      regs := {noRegs with eip := entry,esp := sp,ebp := sp,eflags := 0x202}}
    ({s.setTask slot t with taskCountVal := s.taskCountVal + 1},slot.val)

/-- One round of the waking loop. -/
def wakeTask (s : State) (i : Fin 16) : State :=
  if (s.tasks i).state = .sleeping ∧ s.tickCount ≥ (s.tasks i).wakeTick then s.setState i .ready
  else s

@[irreducible] def wakeSleepers (s : State) : State := (List.finRange 16).foldl wakeTask s

@[irreducible] def nextReady (s : State) : Option (Fin 16) :=
  Cyclic.search s.currentTask fun i => (s.tasks i).state == .ready

def findNextTask (s : State) : State × Fin 16 :=
  let s := wakeSleepers s
  match nextReady s with
  | some idx => (s,idx)
  | none =>
    if (s.tasks s.currentTask).state = .running then (s,s.currentTask)
    else (s,0)

/-- The registers that are saved, the return address among them. -/
def saveContext (sym : Symbols) (cpu old : TaskRegs) : TaskRegs :=
  {old with
    ebx := cpu.ebx,esi := cpu.esi,edi := cpu.edi,ebp := cpu.ebp,esp := cpu.esp
    eip := sym.scheduleReturn,eflags := cpu.eflags}

def loadContext (cpu new : TaskRegs) (newRegs : Word) : TaskRegs :=
  {cpu with
    eax := newRegs,ebx := new.ebx,ecx := cpu.eflags,esi := new.esi,edi := new.edi
    ebp := new.ebp,esp := new.esp,eip := new.eip,eflags := new.eflags}

/-- Where the saved registers of a slot lie. -/
def regsAddr (sym : Symbols) (slot : Fin 16) : Word :=
  sym.tasks + BitVec.ofNat 32 (slot * 4180 + 40)

def switchContext (sym : Symbols) (s : State) (old new : Fin 16) : State :=
  let s := s.setTask old {s.tasks old with regs := saveContext sym s.cpu (s.tasks old).regs}
  {s with cpu := loadContext s.cpu (s.tasks new).regs (regsAddr sym new)}

/-- The second result is the task that the CPU is switched to, if it is switched. -/
def taskSchedule (sym : Symbols) (s : State) : State × Option (Fin 16) :=
  let (s,next) := findNextTask s
  if next = s.currentTask ∧ (s.tasks s.currentTask).state = .running then (s,none)
  else
    let old := s.currentTask
    let s := if (s.tasks old).state = .running then s.setState old .ready else s
    let s := {s with currentTask := next}
    let s := s.setState next .running
    (switchContext sym s old next,some next)

def taskYield (sym : Symbols) (s : State) : State × Option (Fin 16) := taskSchedule sym s

def taskExit (sym : Symbols) (s : State) : State × Option (Fin 16) :=
  let s := s.setState s.currentTask .dead
  taskSchedule sym {s with taskCountVal := s.taskCountVal - 1}

def taskSleepTicks (sym : Symbols) (s : State) (ticks : Word) : State × Option (Fin 16) :=
  let s := s.setState s.currentTask .sleeping
  let t := s.tasks s.currentTask
  taskSchedule sym (s.setTask s.currentTask {t with wakeTick := s.tickCount + ticks})

def sysSleepHandler (sym : Symbols) (s : State) (seconds : Word) : State × Option (Fin 16) :=
  taskSleepTicks sym s (seconds * 100)

def timerCallback (sym : Symbols) (s : State) : State × Option (Fin 16) :=
  let s := {s with tickCount := s.tickCount + 1}
  if s.preemptEnabled ∧ s.tickCount % 5 = 0 then taskSchedule sym s
  else (s,none)

def timerEnablePreempt (s : State) : State := {s with preemptEnabled := true}

def timerDisablePreempt (s : State) : State := {s with preemptEnabled := false}

inductive KillReply where
  | kernelTask
  | noSuchTask
  | killed
  deriving DecidableEq, Repr

/-- The slot whose state `list[id].state` is. The index is scaled by the 4180 bytes of a slot, modulo 2^32. -/
@[irreducible] def slotAt (id : Word) : Option (Fin 16) :=
  Fin.find? fun i => id * 4180 == BitVec.ofNat 32 (i * 4180)

/-- A number is refused by its size, or the state of a slot lies behind it. All others are negative, and
what lies behind them is a word anywhere in memory. -/
def Addresses (id : Word) : Prop := 16 ≤ id.toInt ∨ (slotAt id).isSome

abbrev KillId := {id : Word // Addresses id}

/-- `cmd_kill` once it has read the number. -/
def cmdKill (s : State) (id : KillId) : State × KillReply :=
  if id.val = 0 then (s,.kernelTask)
  else if large : id.val.toInt ≥ 16 then (s,.noSuchTask)
  else
    let i := (slotAt id.val).get (id.property.resolve_left large)
    if (s.tasks i).state = .unused ∨ (s.tasks i).state = .dead then (s,.noSuchTask)
    else (s.setState i .dead,.killed)

/-! The kernel's steps. Interrupt handlers and system calls run with interrupts off, so
each operation is one step. A task that returns into `task_exit` has them on, and no interrupt is
taken to come before the switch. -/

inductive Op where
  | create (name : CString) (entry : Word)
  | yield
  | timer
  | sleepTicks (ticks : Word)
  | exit
  | kill (id : KillId)
  | enablePreempt
  | disablePreempt
  /-- Instructions of the running task that leave the table alone. -/
  | compute (cpu : TaskRegs)

def step (sym : Symbols) (s : State) : Op → State × Option (Fin 16)
  | .create name entry => ((taskCreate sym s name entry).1,none)
  | .yield => taskYield sym s
  | .timer => timerCallback sym s
  | .sleepTicks ticks => taskSleepTicks sym s ticks
  | .exit => taskExit sym s
  | .kill id => ((cmdKill s id).1,none)
  | .enablePreempt => (timerEnablePreempt s,none)
  | .disablePreempt => (timerDisablePreempt s,none)
  | .compute cpu => ({s with cpu := cpu},none)

end NimrodOS.Tasks
