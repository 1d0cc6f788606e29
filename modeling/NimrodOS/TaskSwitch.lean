import NimrodOS.Lib.X86
import NimrodOS.Task

/-! `switch_context` of `kernel/task_switch.asm`, instruction after instruction. -/
namespace NimrodOS.Tasks

open ByteMemory X86

/-- The old registers and the state are saved. -/
def saveCode : List Instr :=
  [.load .eax ⟨.esp,4⟩,
   .store ⟨.eax,4⟩ .ebx,
   .store ⟨.eax,16⟩ .esi,
   .store ⟨.eax,20⟩ .edi,
   .store ⟨.eax,24⟩ .ebp,
   .store ⟨.eax,28⟩ .esp,
   .load .ecx ⟨.esp,0⟩,
   .store ⟨.eax,32⟩ .ecx,
   .pushfd,
   .pop .ecx,
   .store ⟨.eax,36⟩ .ecx]

/-- The new ones are loaded, the stack is switched, and the last instruction jumps. -/
def loadCode : List Instr :=
  [.load .eax ⟨.esp,8⟩,
   .load .ebx ⟨.eax,4⟩,
   .load .esi ⟨.eax,16⟩,
   .load .edi ⟨.eax,20⟩,
   .load .ebp ⟨.eax,24⟩,
   .load .esp ⟨.eax,28⟩,
   .push ⟨.eax,36⟩,
   .popfd,
   .jump ⟨.eax,32⟩]

def switchCode : List Instr := saveCode ++ loadCode

/-- The words of `task_regs_t` in their order. -/
def TaskRegs.words (r : TaskRegs) : List Word :=
  [r.eax,r.ebx,r.ecx,r.edx,r.esi,r.edi,r.ebp,r.esp,r.eip,r.eflags]

def registers (m : Machine) : TaskRegs :=
  ⟨m.reg .eax,m.reg .ebx,m.reg .ecx,m.reg .edx,m.reg .esi,m.reg .edi,m.reg .ebp,m.reg .esp,m.eip,
    m.eflags⟩

theorem registers_esp (m : Machine) : (registers m).esp = m.reg .esp := rfl

/-- Memory after the first stores of the save. -/
def storedRegs (m : Machine) (a : Word) : Memory :=
  let mem := store32 m.mem (a + 4) (m.reg .ebx)
  let mem := store32 mem (a + 16) (m.reg .esi)
  let mem := store32 mem (a + 20) (m.reg .edi)
  let mem := store32 mem (a + 24) (m.reg .ebp)
  store32 mem (a + 28) (m.reg .esp)

/-- Memory after the save. -/
def savedMemory (m : Machine) (a : Word) : Memory :=
  let mem := store32 (storedRegs m a) (a + 32) (load32 (storedRegs m a) (m.reg .esp))
  let mem := store32 mem (m.reg .esp - 4) m.eflags
  store32 mem (a + 36) m.eflags

theorem run_saveCode (m : Machine) :
    registers (run saveCode m) =
      {registers m with eax := load32 m.mem (m.reg .esp + 4),ecx := m.eflags} ∧
    (run saveCode m).mem = savedMemory m (load32 m.mem (m.reg .esp + 4)) := by
  simp only [run,saveCode,exec,Machine.set,Machine.addr,Machine.pushWord,Machine.drop,Machine.top,
    Function.update,Function.update_idem,List.foldl_cons,List.foldl_nil,↓reduceDIte,reduceCtorEq,BitVec.add_zero,
    BitVec.ofNat_eq_ofNat,BitVec.sub_add_cancel,load32_store32,savedMemory,storedRegs,registers,and_self]

theorem run_loadCode (m : Machine) {b : Word} {new : TaskRegs} (arg : load32 m.mem (m.reg .esp + 8) = b)
    (held : HoldsWords m.mem b new.words) (apart : WordsApart (new.esp - 4) (b + 32)) :
    registers (run loadCode m) =
      {registers m with
        eax := b,ebx := new.ebx,esi := new.esi,edi := new.edi,ebp := new.ebp,esp := new.esp
        eip := new.eip,eflags := new.eflags} ∧
    (run loadCode m).mem = store32 m.mem (new.esp - 4) new.eflags := by
  have field (i : Nat) (inside : i < 10) : load32 m.mem (b + BitVec.ofNat 32 (4 * i)) = new.words[i] :=
    held i inside
  have ebx : load32 m.mem (b + 4) = new.ebx := field 1 (by decide)
  have esi : load32 m.mem (b + 16) = new.esi := field 4 (by decide)
  have edi : load32 m.mem (b + 20) = new.edi := field 5 (by decide)
  have ebp : load32 m.mem (b + 24) = new.ebp := field 6 (by decide)
  have esp : load32 m.mem (b + 28) = new.esp := field 7 (by decide)
  have eflags : load32 m.mem (b + 36) = new.eflags := field 9 (by decide)
  have eip : load32 (store32 m.mem (new.esp - 4) new.eflags) (b + 32) = new.eip :=
    (load32_store32_apart apart m.mem new.eflags).trans (field 8 (by decide))
  simp only [BitVec.ofNat_eq_ofNat] at arg ebx esi edi ebp esp eflags eip
  simp only [run,loadCode,exec,Machine.set,Machine.addr,Machine.pushWord,Machine.drop,Machine.top,
    Function.update,Function.update_idem,List.foldl_cons,List.foldl_nil,↓reduceDIte,reduceCtorEq,
    BitVec.ofNat_eq_ofNat,BitVec.sub_add_cancel,load32_store32,registers,arg,ebx,esi,edi,ebp,esp,eflags,eip,
    and_self]

/-- What a switch saves: the callee-saved registers, the stack pointer as it is in
`switch_context` and the return address on top of the stack. -/
def savedRegs (m : Machine) (old : TaskRegs) : TaskRegs :=
  {old with
    ebx := m.reg .ebx,esi := m.reg .esi,edi := m.reg .edi,ebp := m.reg .ebp,esp := m.reg .esp
    eip := m.top,eflags := m.eflags}

/-- The arguments on the stack, and everything in its own place. -/
structure Room (m : Machine) (a b : Word) : Prop where
  oldArg : load32 m.mem (m.reg .esp + 4) = a
  newArg : load32 m.mem (m.reg .esp + 8) = b
  below : 4 ≤ (m.reg .esp).toNat
  above : (m.reg .esp).toNat + 12 ≤ 2^32
  oldFits : a.toNat + 40 ≤ 2^32
  newFits : b.toNat + 40 ≤ 2^32
  oldClear : a.toNat + 40 ≤ (m.reg .esp).toNat - 4 ∨ (m.reg .esp).toNat + 12 ≤ a.toNat
  newClear : b.toNat + 40 ≤ (m.reg .esp).toNat - 4 ∨ (m.reg .esp).toNat + 12 ≤ b.toNat
  distinct : a = b ∨ a.toNat + 40 ≤ b.toNat ∨ b.toNat + 40 ≤ a.toNat

namespace Room

variable {m : Machine} {a b : Word} {old new : TaskRegs}

theorem esp_sub (room : Room m a b) : (m.reg .esp - 4).toNat = (m.reg .esp).toNat - 4 := by
  have below := room.below
  bv_omega

theorem stored_outside (room : Room m a b) {x : Word}
    (context : x.toNat < a.toNat ∨ a.toNat + 40 ≤ x.toNat) : storedRegs m a x = m.mem x := by
  have fits := room.oldFits
  have kept {k : Nat} (small : k ≤ 36) (mem : Memory) (v : Word) :
      store32 mem (a + BitVec.ofNat 32 k) v x = mem x := by
    have place : (a + BitVec.ofNat 32 k).toNat = a.toNat + k := offset_toNat (by omega)
    exact store32_outside _ _ _ _ (by omega) (by omega)
  exact (kept (k := 28) (by decide) _ _).trans <| (kept (k := 24) (by decide) _ _).trans <|
    (kept (k := 20) (by decide) _ _).trans <| (kept (k := 16) (by decide) _ _).trans <|
    kept (k := 4) (by decide) _ _

/-- The return address is still on top of the stack. -/
theorem stored_top (room : Room m a b) : load32 (storedRegs m a) (m.reg .esp) = m.top := by
  have below := room.below
  have above := room.above
  have clear := room.oldClear
  have same : Agree (storedRegs m a) m.mem (m.reg .esp).toNat ((m.reg .esp).toNat + 4) :=
    fun x left right => room.stored_outside (by omega)
  exact same.load32 _ le_rfl le_rfl (by omega)

/-- The structure and the word below the stack pointer are all that a save changes. -/
theorem saved_outside (room : Room m a b) {x : Word}
    (context : x.toNat < a.toNat ∨ a.toNat + 40 ≤ x.toNat)
    (pushed : x.toNat < (m.reg .esp).toNat - 4 ∨ (m.reg .esp).toNat ≤ x.toNat) :
    savedMemory m a x = m.mem x := by
  have fits := room.oldFits
  have below := room.below
  have above := room.above
  have sub := room.esp_sub
  have place32 : (a + 32).toNat = a.toNat + 32 := offset_toNat (k := 32) (by omega)
  have place36 : (a + 36).toNat = a.toNat + 36 := offset_toNat (k := 36) (by omega)
  rw [savedMemory,store32_outside _ _ _ _ (by omega) (by omega),
    store32_outside _ _ _ _ (by omega) (by omega),store32_outside _ _ _ _ (by omega) (by omega)]
  exact room.stored_outside context

theorem saved_holds (room : Room m a b) (held : HoldsWords m.mem a old.words) :
    HoldsWords (savedMemory m a) a (savedRegs m old).words := by
  have fits := room.oldFits
  have below := room.below
  have above := room.above
  have clear := room.oldClear
  have sub := room.esp_sub
  have put {mem : Memory} {ws : List Word} (ten : ws.length = 10) (held : HoldsWords mem a ws)
      {j : Nat} (inside : j < 10) (v : Word) :
      HoldsWords (store32 mem (a + BitVec.ofNat 32 (4 * j)) v) a (ws.set j v) :=
    held.store (by omega) (by omega) v
  have saved1 := put rfl held (j := 1) (by decide) (m.reg .ebx)
  have saved2 := put rfl saved1 (j := 4) (by decide) (m.reg .esi)
  have saved3 := put rfl saved2 (j := 5) (by decide) (m.reg .edi)
  have saved4 := put rfl saved3 (j := 6) (by decide) (m.reg .ebp)
  have saved5 := put rfl saved4 (j := 7) (by decide) (m.reg .esp)
  have saved6 := put rfl saved5 (j := 8) (by decide) m.top
  have apart : a.toNat + 40 ≤ (m.reg .esp - 4).toNat ∨ (m.reg .esp - 4).toNat + 4 ≤ a.toNat := by
    omega
  have pushed : HoldsWords (store32 (store32 (storedRegs m a) (a + 32) m.top) (m.reg .esp - 4)
      m.eflags) a [old.eax,m.reg .ebx,old.ecx,old.edx,m.reg .esi,m.reg .edi,m.reg .ebp,
        m.reg .esp,m.top,old.eflags] :=
    saved6.agree fits (agree_store32 _ _ _ (by omega) apart)
  rw [savedMemory,room.stored_top]
  exact put rfl pushed (j := 9) (by decide) m.eflags

/-- The word that is pushed on a stack lies outside of a structure. -/
def Clears (sp a : Word) : Prop :=
  4 ≤ sp.toNat ∧ (a.toNat + 40 ≤ sp.toNat - 4 ∨ sp.toNat ≤ a.toNat)

/-- What `switch_context` does: the save, then the load of the other structure, or of the same
one once it is saved. -/
theorem switched (room : Room m a b) (held : HoldsWords m.mem a old.words)
    (target : HoldsWords (savedMemory m a) b new.words) (clearOld : Clears new.esp a)
    (clearNew : Clears new.esp b) :
    registers (run switchCode m) = loadContext (registers m) new b ∧
    HoldsWords (run switchCode m).mem a (savedRegs m old).words ∧
    ∀ x : Word, x.toNat < a.toNat ∨ a.toNat + 40 ≤ x.toNat →
      x.toNat < (m.reg .esp).toNat - 4 ∨ (m.reg .esp).toNat ≤ x.toNat →
      x.toNat < new.esp.toNat - 4 ∨ new.esp.toNat ≤ x.toNat →
      (run switchCode m).mem x = m.mem x := by
  have below := room.below
  have above := room.above
  have fitsOld := room.oldFits
  have fitsNew := room.newFits
  have oldClear := room.oldClear
  have newClear := room.newClear
  obtain ⟨regs,mem⟩ := run_saveCode m
  rw [room.oldArg] at regs mem
  have esp : (run saveCode m).reg .esp = m.reg .esp := by
    rw [← registers_esp,regs]
    rfl
  have place : (m.reg .esp + 8).toNat = (m.reg .esp).toNat + 8 := offset_toNat (k := 8) (by omega)
  have arg : load32 (run saveCode m).mem ((run saveCode m).reg .esp + 8) = b := by
    have same : Agree (savedMemory m a) m.mem (m.reg .esp).toNat ((m.reg .esp).toNat + 12) :=
      fun x left right => room.saved_outside (by omega) (by omega)
    rw [mem,esp,← room.newArg]
    exact same.load32 _ (by omega) (by omega) (by omega)
  have pushed : (new.esp - 4).toNat = new.esp.toNat - 4 := by
    have low := clearNew.1
    bv_omega
  have target32 : (b + 32).toNat = b.toNat + 32 := offset_toNat (k := 32) (by omega)
  have apart : WordsApart (new.esp - 4) (b + 32) := by
    obtain ⟨low,side⟩ := clearNew
    exact ⟨by omega,by omega,by omega⟩
  obtain ⟨regs',mem'⟩ := run_loadCode (run saveCode m) arg (by rwa [mem]) apart
  rw [mem] at mem'
  have switched : run switchCode m = run loadCode (run saveCode m) := run_append saveCode loadCode m
  obtain ⟨low,side⟩ := clearOld
  refine ⟨?_,?_,?_⟩
  · rw [switched,regs',regs]
    rfl
  · rw [switched,mem']
    exact (room.saved_holds held).agree fitsOld (agree_store32 _ _ _ (by omega)
      (show a.toNat + 40 ≤ _ ∨ _ by omega))
  · intro x context stack target
    rw [switched,mem',store32_outside _ _ _ _ (by omega) (by omega)]
    exact room.saved_outside context stack

end Room

/-! The table of tasks in memory. -/

/-- The registers and the saved registers of all slots are those of the machine. -/
structure Represents (sym : Symbols) (s : State) (m : Machine) : Prop where
  cpu : registers m = s.cpu
  regs : ∀ i, HoldsWords m.mem (regsAddr sym i) (s.tasks i).regs.words

/-- The table lies below the end of memory. -/
def TableFits (sym : Symbols) : Prop := sym.tasks.toNat + 16 * 4180 ≤ 2^32

theorem regsAddr_toNat {sym : Symbols} (fits : TableFits sym) (i : Fin 16) :
    (regsAddr sym i).toNat = sym.tasks.toNat + (i * 4180 + 40) := by
  have bound := i.isLt
  unfold TableFits at fits
  exact offset_toNat (by omega)

section

variable {sym : Symbols} {s : State} {m : Machine} {old new : Fin 16}

theorem switchContext_regs (i : Fin 16) : ((switchContext sym s old new).tasks i).regs =
    if i = old then saveContext sym s.cpu (s.tasks old).regs else (s.tasks i).regs := by
  by_cases here : i = old
  · simp [switchContext,State.setTask,here]
  · simp [switchContext,State.setTask,here]

theorem switchContext_cpu : (switchContext sym s old new).cpu =
    loadContext s.cpu ((switchContext sym s old new).tasks new).regs (regsAddr sym new) := rfl

/-- The instructions do what the switch of the task table is said to do. -/
theorem represents_switch (fits : TableFits sym) (rep : Represents sym s m)
    (room : Room m (regsAddr sym old) (regsAddr sym new)) (returns : m.top = sym.scheduleReturn)
    (stack : ∀ i, (regsAddr sym i).toNat + 40 ≤ (m.reg .esp).toNat - 4 ∨
      (m.reg .esp).toNat ≤ (regsAddr sym i).toNat)
    (target : ∀ i, Room.Clears ((switchContext sym s old new).tasks new).regs.esp (regsAddr sym i)) :
    Represents sym (switchContext sym s old new) (run switchCode m) := by
  have saved : saveContext sym s.cpu (s.tasks old).regs = savedRegs m (s.tasks old).regs := by
    rw [← rep.cpu,saveContext,savedRegs,returns]
    rfl
  have apart {i j : Fin 16} (other : i ≠ j) : (regsAddr sym i).toNat + 40 ≤ (regsAddr sym j).toNat ∨
      (regsAddr sym j).toNat + 40 ≤ (regsAddr sym i).toNat := by
    have different := Fin.val_ne_of_ne other
    rw [regsAddr_toNat fits,regsAddr_toNat fits]
    omega
  have held : HoldsWords (savedMemory m (regsAddr sym old)) (regsAddr sym new)
      ((switchContext sym s old new).tasks new).regs.words := by
    rw [switchContext_regs,saved]
    by_cases same : new = old
    · subst same
      rw [if_pos rfl]
      exact room.saved_holds (rep.regs new)
    · have clear := stack new
      have other := apart same
      rw [if_neg same]
      have fitsNew : (regsAddr sym new).toNat + 40 ≤ 2^32 := room.newFits
      have same : Agree m.mem (savedMemory m (regsAddr sym old)) (regsAddr sym new).toNat
          ((regsAddr sym new).toNat + 40) :=
        fun x below above => (room.saved_outside (by omega) (by omega)).symm
      exact (rep.regs new).agree fitsNew same
  obtain ⟨regs,kept,outside⟩ := room.switched (rep.regs old) held (target old) (target new)
  constructor
  · rw [regs,rep.cpu,switchContext_cpu]
  · intro i
    rw [switchContext_regs,saved]
    by_cases here : i = old
    · subst here
      rw [if_pos rfl]
      exact kept
    · have clear := stack i
      have other := apart here
      obtain ⟨low,side⟩ := target i
      have fitsI : (regsAddr sym i).toNat + 40 ≤ 2^32 := by
        rw [regsAddr_toNat fits]
        unfold TableFits at fits
        omega
      have same : Agree m.mem (run switchCode m).mem (regsAddr sym i).toNat
          ((regsAddr sym i).toNat + 40) :=
        fun x below above => (outside x (by omega) (by omega) (by omega)).symm
      rw [if_neg here]
      exact (rep.regs i).agree fitsI same

end

end NimrodOS.Tasks
