import NimrodOS.Lib.X86

/-! Interrupts of a 32-bit x86 processor that stays at one privilege level: what the
processor pushes, the instructions of entry and exit code with their segment registers, and
what a stack holds after a series of pushes. Loads of segment registers are not checked
against descriptors. -/
namespace X86

open ByteMemory

abbrev Selector := BitVec 16

inductive Seg where
  | cs | ds | es | fs | gs
  deriving DecidableEq

structure Cpu extends Machine where
  seg : Seg → Selector

namespace Cpu

def pushWord (c : Cpu) (v : Word) : Cpu := {c with toMachine := c.toMachine.pushWord v}

def pop (c : Cpu) : Cpu := {c with toMachine := c.toMachine.drop}

def set (c : Cpu) (r : Reg) (v : Word) : Cpu := {c with toMachine := c.toMachine.set r v}

def setSeg (c : Cpu) (s : Seg) (v : Selector) : Cpu := {c with seg := Function.update c.seg s v}

def pushWords (c : Cpu) (ws : List Word) : Cpu := ws.foldl pushWord c

/-- Into the low half of a register. -/
def setLow (c : Cpu) (r : Reg) (v : Selector) : Cpu :=
  c.set r ((c.reg r).extractLsb' 16 16 ++ v)

end Cpu

/-- The flags after an addition: carry, parity, adjust, zero, sign and overflow. -/
def addFlags (old a b : Word) : Word :=
  let sum := a + b
  let flag (i : Nat) (set : Bool) : Word := if set then 1 <<< i else 0
  let even := (List.range 8).foldl (fun p i => p ^^ sum.getLsbD i) true
  (old &&& ~~~0x8D5) ||| flag 0 (sum < a) ||| flag 2 even |||
    flag 4 ((a ^^^ b ^^^ sum).getLsbD 4) ||| flag 6 (sum == 0) ||| flag 7 sum.msb |||
    flag 11 (a.msb == b.msb && sum.msb != a.msb)

inductive TrapInstr where
  /-- `push dword v` -/
  | pushImm (v : Word)
  | pushReg (r : Reg)
  | popReg (r : Reg)
  | pusha
  | popa
  /-- `mov r16, s` -/
  | readSeg (r : Reg) (s : Seg)
  /-- `mov s, r16` -/
  | writeSeg (s : Seg) (r : Reg)
  /-- `mov r16, v` -/
  | loadLow (r : Reg) (v : Selector)
  /-- `add esp, k` -/
  | addEsp (k : Word)
  | iret

namespace Cpu

def pusha (c : Cpu) : Cpu :=
  c.pushWords [c.reg .eax,c.reg .ecx,c.reg .edx,c.reg .ebx,c.reg .esp,c.reg .ebp,c.reg .esi,c.reg .edi]

def popReg (c : Cpu) (r : Reg) : Cpu := c.pop.set r c.top

/-- The word for `esp` is passed over. -/
def popa (c : Cpu) : Cpu :=
  ((((((((c.popReg .edi).popReg .esi).popReg .ebp).pop).popReg .ebx).popReg .edx).popReg .ecx).popReg
    .eax)

/-- Back to the same privilege level. -/
def iret (c : Cpu) : Cpu :=
  let eip := c.top
  let c := c.pop
  let cs := c.top.setWidth 16
  let c := c.pop
  let eflags := c.top
  {c.pop.setSeg .cs cs with eip := eip,eflags := eflags}

end Cpu

def execTrap (c : Cpu) : TrapInstr → Cpu
  | .pushImm v => c.pushWord v
  | .pushReg r => c.pushWord (c.reg r)
  | .popReg r => c.popReg r
  | .pusha => c.pusha
  | .popa => c.popa
  | .readSeg r s => c.setLow r (c.seg s)
  | .writeSeg s r => c.setSeg s ((c.reg r).setWidth 16)
  | .loadLow r v => c.setLow r v
  | .addEsp k =>
    {c.set .esp (c.reg .esp + k) with eflags := addFlags c.eflags (c.reg .esp) k}
  | .iret => c.iret

def runTrap (block : List TrapInstr) (c : Cpu) : Cpu := block.foldl execTrap c

theorem runTrap_append (first second : List TrapInstr) (c : Cpu) :
    runTrap (first ++ second) c = runTrap second (runTrap first c) := List.foldl_append

/-- An interrupt gate: the context and an error code, if there is one, are pushed, and the
flags for traps, interrupts, nested tasks and the virtual mode are cleared. -/
def interrupt (c : Cpu) (codeSegment : Selector) (errorCode : Option Word) : Cpu :=
  let pushed := c.pushWords ([c.eflags,(c.seg .cs).setWidth 32,c.eip] ++ errorCode.toList)
  {pushed.setSeg .cs codeSegment with eflags := c.eflags &&& ~~~0x34300}

/-! What a stack holds. -/

/-- The words from the top of the stack up to an address. -/
structure Holds (c : Cpu) (ws : List Word) (base : Word) : Prop where
  words : HoldsWords c.mem (c.reg .esp) ws
  esp : (c.reg .esp).toNat + 4 * ws.length = base.toNat

/-- What is left of a processor by pushing words: the bytes below its stack pointer change,
and no others. -/
structure Pushed (c d : Cpu) (ws : List Word) : Prop where
  holds : Holds d ws (c.reg .esp)
  outside : AgreeOutside c.mem d.mem (d.reg .esp).toNat (c.reg .esp).toNat

section

variable {c d : Cpu} {ws vs : List Word} {v base : Word} {r : Reg}

@[simp] theorem pushWord_reg (other : r ≠ .esp) : (c.pushWord v).reg r = c.reg r := by
  simp [Cpu.pushWord,Machine.pushWord,Machine.set,other]

@[simp] theorem pushWord_esp : (c.pushWord v).reg .esp = c.reg .esp - 4 := by
  simp [Cpu.pushWord,Machine.pushWord,Machine.set]

@[simp] theorem pushWord_seg : (c.pushWord v).seg = c.seg := rfl

@[simp] theorem pushWord_mem : (c.pushWord v).mem = store32 c.mem (c.reg .esp - 4) v := rfl

@[simp] theorem pushWords_reg (other : r ≠ .esp) : (c.pushWords ws).reg r = c.reg r := by
  induction ws generalizing c with
  | nil => rfl
  | cons w ws ih => exact ih.trans (pushWord_reg other)

@[simp] theorem pushWords_seg : (c.pushWords ws).seg = c.seg := by
  induction ws generalizing c with
  | nil => rfl
  | cons w ws ih => exact ih

theorem Pushed.refl (c : Cpu) : Pushed c c [] :=
  ⟨⟨fun _ inside => absurd inside (Nat.not_lt_zero _),rfl⟩,AgreeOutside.refl _⟩

/-- Only the memory and the stack pointer matter. -/
theorem Pushed.congr {d' : Cpu} (pushed : Pushed c d ws) (mem : d'.mem = d.mem)
    (esp : d'.reg .esp = d.reg .esp) : Pushed c d' ws := by
  obtain ⟨⟨words,base⟩,outside⟩ := pushed
  constructor
  · exact ⟨by rwa [mem,esp],by rwa [esp]⟩
  · rwa [mem,esp]

theorem Pushed.push (pushed : Pushed c d ws) (room : 4 ≤ (d.reg .esp).toNat) (v : Word) :
    Pushed c (d.pushWord v) (v :: ws) := by
  obtain ⟨⟨words,base⟩,outside⟩ := pushed
  have lower : (d.reg .esp - 4).toNat = (d.reg .esp).toNat - 4 := by bv_omega
  have most := (c.reg .esp).isLt
  constructor
  · constructor
    · intro i inside
      rw [pushWord_mem,pushWord_esp]
      cases i with
      | zero => simp
      | succ i =>
        have inside : i < ws.length := by simpa using inside
        have place : d.reg .esp - 4 + BitVec.ofNat 32 (4 * (i + 1)) =
            d.reg .esp + BitVec.ofNat 32 (4 * i) := by bv_omega
        have above : (d.reg .esp + BitVec.ofNat 32 (4 * i)).toNat = (d.reg .esp).toNat + 4 * i :=
          offset_toNat (by omega)
        rw [place,List.getElem_cons_succ,← words i inside]
        exact load32_store32_apart ⟨by omega,by omega,.inl (by omega)⟩ _ _
    · rw [pushWord_esp,List.length_cons]
      omega
  · rw [pushWord_mem,pushWord_esp]
    intro x apart
    rw [outside x (by omega)]
    exact (store32_outside _ _ _ _ (by omega) (by omega)).symm

/-- The last word pushed is on top. -/
theorem Pushed.pushWords (pushed : Pushed c d ws) (room : 4 * vs.length ≤ (d.reg .esp).toNat) :
    Pushed c (d.pushWords vs) (vs.reverse ++ ws) := by
  induction vs generalizing d ws with
  | nil => exact pushed
  | cons v vs ih =>
    rw [List.length_cons] at room
    have lower : (d.reg .esp - 4).toNat = (d.reg .esp).toNat - 4 := by bv_omega
    have rest := ih (pushed.push (by omega) v) (by rw [pushWord_esp]; omega)
    rw [List.reverse_cons,List.append_assoc]
    exact rest

theorem Holds.top (held : Holds c (v :: ws) base) : c.top = v := by
  have first := held.words 0 (Nat.zero_lt_succ _)
  simpa [Machine.top] using first

@[simp] theorem pop_reg (other : r ≠ .esp) : c.pop.reg r = c.reg r := by
  simp [Cpu.pop,Machine.drop,Machine.set,other]

@[simp] theorem pop_esp : c.pop.reg .esp = c.reg .esp + 4 := by
  simp [Cpu.pop,Machine.drop,Machine.set]

theorem Holds.congr (held : Holds c ws base) (mem : d.mem = c.mem)
    (esp : d.reg .esp = c.reg .esp) : Holds d ws base :=
  ⟨by rw [mem,esp]; exact held.words,by rw [esp]; exact held.esp⟩

theorem Holds.pop (held : Holds c (v :: ws) base) : Holds c.pop ws base := by
  have reach := held.esp
  have most := base.isLt
  rw [List.length_cons] at reach
  constructor
  · intro i inside
    have place : c.reg .esp + 4 + BitVec.ofNat 32 (4 * i) =
        c.reg .esp + BitVec.ofNat 32 (4 * (i + 1)) := by bv_omega
    rw [pop_esp,place]
    exact held.words (i + 1) (by simpa using inside)
  · rw [pop_esp]
    bv_omega

/-- A register other than the stack pointer takes the word on top. -/
theorem Holds.popReg (held : Holds c (v :: ws) base) (other : r ≠ .esp) :
    Holds (c.popReg r) ws base ∧ (c.popReg r).reg r = v ∧ (c.popReg r).seg = c.seg ∧
      (c.popReg r).mem = c.mem ∧ ∀ q, q ≠ r → q ≠ .esp → (c.popReg r).reg q = c.reg q := by
  refine ⟨held.pop.congr rfl ?_,?_,rfl,rfl,fun q apart notEsp => ?_⟩
  · simp [Cpu.popReg,Cpu.set,Machine.set,other.symm]
  · simpa [Cpu.popReg,Cpu.set,Machine.set] using held.top
  · simp [Cpu.popReg,Cpu.set,Machine.set,apart,Cpu.pop,Machine.drop,notEsp]

/-- `popa` loads all registers but the stack pointer. -/
theorem Holds.popa {edi esi ebp skipped ebx edx ecx eax : Word}
    (held : Holds c (edi :: esi :: ebp :: skipped :: ebx :: edx :: ecx :: eax :: ws) base) :
    Holds c.popa ws base ∧ c.popa.seg = c.seg ∧ c.popa.mem = c.mem ∧
      c.popa.reg .edi = edi ∧ c.popa.reg .esi = esi ∧ c.popa.reg .ebp = ebp ∧
      c.popa.reg .ebx = ebx ∧ c.popa.reg .edx = edx ∧ c.popa.reg .ecx = ecx ∧
      c.popa.reg .eax = eax := by
  obtain ⟨held,edi,-,-,kept₁⟩ := held.popReg (r := .edi) (by decide)
  obtain ⟨held,esi,-,-,kept₂⟩ := held.popReg (r := .esi) (by decide)
  obtain ⟨held,ebp,-,-,kept₃⟩ := held.popReg (r := .ebp) (by decide)
  obtain ⟨held,ebx,-,-,kept₄⟩ := held.pop.popReg (r := .ebx) (by decide)
  obtain ⟨held,edx,-,-,kept₅⟩ := held.popReg (r := .edx) (by decide)
  obtain ⟨held,ecx,-,-,kept₆⟩ := held.popReg (r := .ecx) (by decide)
  obtain ⟨held,eax,-,-,kept₇⟩ := held.popReg (r := .eax) (by decide)
  refine ⟨held,rfl,rfl,?_,?_,?_,?_,?_,?_,eax⟩
  · rw [Cpu.popa,kept₇,kept₆,kept₅,kept₄,pop_reg,kept₃,kept₂,edi] <;> decide
  · rw [Cpu.popa,kept₇,kept₆,kept₅,kept₄,pop_reg,kept₃,esi] <;> decide
  · rw [Cpu.popa,kept₇,kept₆,kept₅,kept₄,pop_reg,ebp] <;> decide
  · rw [Cpu.popa,kept₇,kept₆,kept₅,ebx] <;> decide
  · rw [Cpu.popa,kept₇,kept₆,edx] <;> decide
  · rw [Cpu.popa,kept₇,ecx] <;> decide

theorem iret_reg (other : r ≠ .esp) : c.iret.reg r = c.reg r := by
  simp [Cpu.iret,Cpu.setSeg,Cpu.pop,Machine.drop,Machine.set,other]

theorem iret_seg {s : Seg} (other : s ≠ .cs) : c.iret.seg s = c.seg s := by
  simp [Cpu.iret,Cpu.setSeg,Cpu.pop,other]

/-- `iret` takes the context from the stack. -/
theorem Holds.iret {eip cs eflags : Word} (held : Holds c [eip,cs,eflags] base) :
    c.iret.reg .esp = base ∧ c.iret.eip = eip ∧ c.iret.eflags = eflags ∧
      c.iret.seg .cs = cs.setWidth 16 ∧ c.iret.mem = c.mem := by
  have second := held.pop
  have third := second.pop
  refine ⟨BitVec.eq_of_toNat_eq third.pop.esp,held.top,third.top,?_,rfl⟩
  have same : c.iret.seg .cs = c.pop.top.setWidth 16 := by simp [Cpu.iret,Cpu.setSeg]
  rw [same,second.top]

end

end X86
