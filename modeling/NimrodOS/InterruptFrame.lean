import NimrodOS.Interrupts
import NimrodOS.Lib.Run
import NimrodOS.Lib.Trap

/-! The entry and exit code of `cpu/isr_asm.asm`: the `registers_t` that a handler is given,
and what the interrupted code finds when the handler has returned. -/
namespace NimrodOS.Interrupts

open ByteMemory X86 Transition

/-- The part of `registers_t` that is pushed; `esp` and `ss` are not without a change of
privilege. -/
structure Registers where
  ds : Word
  edi : Word
  esi : Word
  ebp : Word
  useless : Word
  ebx : Word
  edx : Word
  ecx : Word
  eax : Word
  intNo : Word
  errCode : Word
  eip : Word
  cs : Word
  eflags : Word
  deriving DecidableEq, Repr

def Registers.words (r : Registers) : List Word :=
  [r.ds,r.edi,r.esi,r.ebp,r.useless,r.ebx,r.edx,r.ecx,r.eax,r.intNo,r.errCode,r.eip,r.cs,r.eflags]

/-- The exceptions for which the processor pushes an error code. -/
def Stub.hasCode : Stub → Bool
  | .isr n => n.val ∈ [8,10,11,12,13,14,17,30]
  | .irq _ => false
  | .isr128 => false

/-- The instructions of a stub up to its jump. -/
def Stub.code : Stub → List TrapInstr
  /- `ISR_ERRCODE` and `ISR_NOERRCODE` -/
  | .isr n =>
    if n.val ∈ [8,10,11,12,13,14,17,30] then [.pushImm (BitVec.ofNat 32 n)]
    else [.pushImm 0,.pushImm (BitVec.ofNat 32 n)]
  | .irq n => [.pushImm 0,.pushImm (BitVec.ofNat 32 (32 + n))]
  | .isr128 => [.pushImm 0,.pushImm 128]

/-- `isr_common_stub` and `irq_common_stub` up to the call. -/
def commonEntry : List TrapInstr :=
  [.pusha,.readSeg .eax .ds,.pushReg .eax,.loadLow .eax 0x10,.writeSeg .ds .eax,.writeSeg .es .eax,
   .writeSeg .fs .eax,.writeSeg .gs .eax,.pushReg .esp]

/-- The rest of both behind the call. -/
def commonExit : List TrapInstr :=
  [.popReg .eax,.popReg .eax,.writeSeg .ds .eax,.writeSeg .es .eax,.writeSeg .fs .eax,
   .writeSeg .gs .eax,.popa,.addEsp 8,.iret]

/-- From the interrupt to the first instruction of the C handler. -/
def enter (stub : Stub) (c : Cpu) (errorCode : Option Word) (returnAddress : Word) : Cpu :=
  (runTrap (stub.code ++ commonEntry) (interrupt c 0x08 errorCode)).pushWord returnAddress

def leave (c : Cpu) : Cpu := runTrap commonExit c

/-- What is pushed for a handler. The upper half of `ds` is that of `eax`. -/
def context (stub : Stub) (c : Cpu) (errorCode : Option Word) : Registers where
  ds := (c.reg .eax).extractLsb' 16 16 ++ c.seg .ds
  edi := c.reg .edi
  esi := c.reg .esi
  ebp := c.reg .ebp
  useless := c.reg .esp - 20
  ebx := c.reg .ebx
  edx := c.reg .edx
  ecx := c.reg .ecx
  eax := c.reg .eax
  intNo := stub.number.setWidth 32
  errCode := errorCode.getD 0
  eip := c.eip
  cs := (c.seg .cs).setWidth 32
  eflags := c.eflags

/-- The processor as a frame describes it. -/
def resumed (f : Registers) (esp : Word) (mem : Memory) : Cpu where
  reg
    | .eax => f.eax
    | .ebx => f.ebx
    | .ecx => f.ecx
    | .edx => f.edx
    | .esi => f.esi
    | .edi => f.edi
    | .ebp => f.ebp
    | .esp => esp
  eip := f.eip
  eflags := f.eflags
  mem := mem
  seg
    | .cs => f.cs.setWidth 16
    | _ => f.ds.setWidth 16

variable {stub : Stub} {c d after : Cpu} {errorCode : Option Word} {returnAddress : Word}

/-! Entry. -/

/-- Behind a stub's own pushes. -/
structure Stubbed (stub : Stub) (c d : Cpu) (errorCode : Option Word) : Prop where
  pushed : Pushed c d [stub.number.setWidth 32,errorCode.getD 0,c.eip,(c.seg .cs).setWidth 32,c.eflags]
  reg : ∀ r, r ≠ .esp → d.reg r = c.reg r
  cs : d.seg .cs = 0x08
  ds : d.seg .ds = c.seg .ds

theorem number_irq (n : Fin 16) : (Stub.irq n).number.setWidth 32 = BitVec.ofNat 32 (32 + n) := by
  have small := n.isLt
  simp only [Stub.number,← BitVec.toNat_inj,BitVec.toNat_setWidth,BitVec.toNat_ofNat]
  omega

theorem number_isr (n : Fin 32) : (Stub.isr n).number.setWidth 32 = BitVec.ofNat 32 n := by
  have small := n.isLt
  simp only [Stub.number,← BitVec.toNat_inj,BitVec.toNat_setWidth,BitVec.toNat_ofNat]
  omega

/-- The processor or the stub pushes the error code. -/
theorem stub_pushes (stub : Stub) (raised : errorCode.isSome = stub.hasCode) : ∃ vs,
    (∀ d, runTrap stub.code d = d.pushWords vs) ∧
      errorCode.toList ++ vs = [errorCode.getD 0,stub.number.setWidth 32] := by
  have uncoded (plain : stub.hasCode = false) : errorCode = none :=
    Option.isNone_iff_eq_none.mp (by simpa [plain] using raised)
  cases stub with
  | isr n =>
    by_cases coded : n.val ∈ [8,10,11,12,13,14,17,30]
    · obtain ⟨code,rfl⟩ : ∃ code, errorCode = some code :=
        Option.isSome_iff_exists.mp (raised.trans (decide_eq_true coded))
      refine ⟨[BitVec.ofNat 32 n],fun d => ?_,by rw [number_isr]; rfl⟩
      rw [Stub.code,if_pos coded]
      rfl
    · obtain rfl := uncoded (decide_eq_false coded)
      refine ⟨[0,BitVec.ofNat 32 n],fun d => ?_,by rw [number_isr]; rfl⟩
      rw [Stub.code,if_neg coded]
      rfl
  | irq n =>
    obtain rfl := uncoded rfl
    exact ⟨[0,BitVec.ofNat 32 (32 + n)],fun d => rfl,by rw [number_irq]; rfl⟩
  | isr128 =>
    obtain rfl := uncoded rfl
    exact ⟨[0,128],fun d => rfl,rfl⟩

theorem interrupt_pushed (errorCode : Option Word) (room : 16 ≤ (c.reg .esp).toNat) (sel : Selector) :
    Pushed c (interrupt c sel errorCode)
      (errorCode.toList.reverse ++ [c.eip,(c.seg .cs).setWidth 32,c.eflags]) := by
  have words : 4 * ([c.eflags,(c.seg .cs).setWidth 32,c.eip] ++ errorCode.toList).length ≤
      (c.reg .esp).toNat := by
    cases errorCode <;> simp <;> omega
  have pushed := (Pushed.refl c).pushWords words
  rw [List.append_nil,List.reverse_append] at pushed
  exact pushed.congr rfl rfl

theorem interrupt_reg {r : Reg} (other : r ≠ .esp) (sel : Selector) :
    (interrupt c sel errorCode).reg r = c.reg r := pushWords_reg other

theorem interrupt_seg {s : Seg} (sel : Selector) :
    (interrupt c sel errorCode).seg s = if s = .cs then sel else c.seg s := by
  by_cases code : s = .cs
  · simp [interrupt,Cpu.setSeg,code]
  · simp [interrupt,Cpu.setSeg,code]

theorem stubbed (room : 64 ≤ (c.reg .esp).toNat) (raised : errorCode.isSome = stub.hasCode) :
    Stubbed stub c (runTrap stub.code (interrupt c 0x08 errorCode)) errorCode := by
  obtain ⟨vs,runs,words⟩ := stub_pushes stub raised
  have wide : 16 ≤ (c.reg .esp).toNat := by omega
  have pushed := interrupt_pushed errorCode wide 0x08
  have short := congrArg List.length words
  rw [List.length_append] at short
  have few : vs.length ≤ 2 := by
    simp only [List.length_cons,List.length_nil] at short
    omega
  have base := pushed.holds.esp
  simp only [List.length_append,List.length_reverse,List.length_cons,List.length_nil] at base short
  have whole : Pushed c ((interrupt c 0x08 errorCode).pushWords vs) _ := pushed.pushWords (by omega)
  rw [← List.append_assoc,← List.reverse_append,words] at whole
  rw [runs]
  constructor
  · exact whole
  · intro r other
    rw [pushWords_reg other]
    exact interrupt_reg other 0x08
  · rw [pushWords_seg]
    exact interrupt_seg 0x08
  · rw [pushWords_seg]
    exact interrupt_seg 0x08

/-- What a handler is called with: `registers_t` of the interrupted code, a pointer to it
and the kernel's segments. -/
structure Entered (stub : Stub) (c d : Cpu) (errorCode : Option Word) (returnAddress : Word) :
    Prop where
  pushed : Pushed c d (returnAddress :: (c.reg .esp - 56) :: (context stub c errorCode).words)
  cs : d.seg .cs = 0x08
  data : ∀ s, s ≠ .cs → d.seg s = 0x10

theorem append_low (high low : Selector) : (high ++ low : BitVec (16 + 16)).setWidth 16 = low := by
  ext i inside
  rw [BitVec.getElem_setWidth,BitVec.getLsbD_append]
  simp [inside]

theorem setLow_same {r : Reg} (v : Selector) :
    (c.setLow r v).reg r = (c.reg r).extractLsb' 16 16 ++ v := by
  simp [Cpu.setLow,Cpu.set,Machine.set]

theorem setLow_low {r : Reg} (v : Selector) : ((c.setLow r v).reg r).setWidth 16 = v := by
  rw [setLow_same]
  exact append_low _ v

theorem setLow_esp {r : Reg} (other : r ≠ .esp) (v : Selector) :
    (c.setLow r v).reg .esp = c.reg .esp := by
  simp [Cpu.setLow,Cpu.set,Machine.set,other.symm]

/-- A selector in the four data segment registers, by way of `ax`. -/
def loadData (c : Cpu) : Cpu :=
  let c := c.setSeg .ds ((c.reg .eax).setWidth 16)
  let c := c.setSeg .es ((c.reg .eax).setWidth 16)
  let c := c.setSeg .fs ((c.reg .eax).setWidth 16)
  c.setSeg .gs ((c.reg .eax).setWidth 16)

theorem loadData_seg (c : Cpu) (s : Seg) :
    (loadData c).seg s = if s = .cs then c.seg .cs else (c.reg .eax).setWidth 16 := by
  cases s <;> simp [loadData,Cpu.setSeg]

theorem commonEntry_eq (c : Cpu) : runTrap commonEntry c =
    (let marked := c.pusha.setLow .eax (c.pusha.seg .ds)
    let kernel := loadData ((marked.pushWord (marked.reg .eax)).setLow .eax 0x10)
    kernel.pushWord (kernel.reg .esp)) := rfl

theorem commonExit_eq (c : Cpu) : runTrap commonExit c =
    (execTrap (loadData ((c.popReg .eax).popReg .eax)).popa (.addEsp 8)).iret := rfl

/-- Behind `push eax`: the general registers and the data segment are saved. -/
theorem stubbed_saved (first : Stubbed stub c d errorCode) (room : 64 ≤ (c.reg .esp).toNat) :
    Pushed c ((d.pusha.setLow .eax (d.pusha.seg .ds)).pushWord
      ((d.pusha.setLow .eax (d.pusha.seg .ds)).reg .eax)) (context stub c errorCode).words := by
  have base := first.pushed.holds.esp
  simp only [List.length_cons,List.length_nil] at base
  have all : Pushed c d.pusha _ := first.pushed.pushWords (by
    simp only [List.length_cons,List.length_nil]
    omega)
  have base' := all.holds.esp
  simp only [List.length_append,List.length_reverse,List.length_cons,List.length_nil] at base'
  have esp := setLow_esp (c := d.pusha) (r := .eax) (by decide) (d.pusha.seg .ds)
  have marked : Pushed c (d.pusha.setLow .eax (d.pusha.seg .ds)) _ := all.congr rfl esp
  have saved := marked.push (by rw [esp]; omega) ((d.pusha.setLow .eax (d.pusha.seg .ds)).reg .eax)
  have eax : d.pusha.reg .eax = c.reg .eax := (pushWords_reg (by decide)).trans (first.reg .eax (by decide))
  have ds : d.pusha.seg .ds = c.seg .ds := (congrFun pushWords_seg .ds).trans first.ds
  have lower : d.reg .esp = c.reg .esp - 20 := by bv_omega
  rw [setLow_same,eax,ds] at saved ⊢
  simp only [List.reverse_cons,List.reverse_nil,List.nil_append,List.cons_append,lower] at saved
  rw [first.reg .eax (by decide),first.reg .ecx (by decide),first.reg .edx (by decide),
    first.reg .ebx (by decide),first.reg .ebp (by decide),first.reg .esi (by decide),
    first.reg .edi (by decide)] at saved
  exact saved

theorem entered (returnAddress : Word) (room : 64 ≤ (c.reg .esp).toNat)
    (raised : errorCode.isSome = stub.hasCode) :
    Entered stub c (enter stub c errorCode returnAddress) errorCode returnAddress := by
  have first := stubbed room raised
  rw [enter,runTrap_append,commonEntry_eq]
  generalize runTrap stub.code (interrupt c 0x08 errorCode) = d at first ⊢
  have saved := stubbed_saved first room
  have cs : d.pusha.seg .cs = 0x08 := (congrFun pushWords_seg .cs).trans first.cs
  have code : ((d.pusha.setLow .eax (d.pusha.seg .ds)).pushWord
      ((d.pusha.setLow .eax (d.pusha.seg .ds)).reg .eax)).seg .cs = 0x08 := cs
  dsimp only
  generalize (d.pusha.setLow .eax (d.pusha.seg .ds)).pushWord _ = e at saved code ⊢
  have base := saved.holds.esp
  have words : (context stub c errorCode).words.length = 14 := rfl
  have esp : (loadData (e.setLow .eax 0x10)).reg .esp = e.reg .esp := setLow_esp (by decide) _
  have kernel : Pushed c (loadData (e.setLow .eax 0x10)) _ := saved.congr rfl esp
  have passed := kernel.push (by rw [esp]; omega) ((loadData (e.setLow .eax 0x10)).reg .esp)
  have called := passed.push (by rw [pushWord_esp,esp]; bv_omega) returnAddress
  have frame : e.reg .esp = c.reg .esp - 56 := by bv_omega
  rw [esp,frame] at called
  have segs (s : Seg) : (loadData (e.setLow .eax 0x10)).seg s = if s = .cs then 0x08 else 0x10 := by
    rw [loadData_seg,setLow_low]
    change (if s = .cs then e.seg .cs else _) = _
    rw [code]
  rw [esp,frame]
  refine ⟨called,(segs .cs).trans (if_pos rfl),fun s other => (segs s).trans (if_neg other)⟩

/-! Exit. -/

theorem addEsp_skips {v w base : Word} {ws : List Word} (held : Holds c (v :: w :: ws) base) :
    Holds (execTrap c (.addEsp 8)) ws base ∧ (execTrap c (.addEsp 8)).seg = c.seg ∧
      (execTrap c (.addEsp 8)).mem = c.mem ∧
      ∀ r, r ≠ .esp → (execTrap c (.addEsp 8)).reg r = c.reg r := by
  have esp : (execTrap c (.addEsp 8)).reg .esp = c.pop.pop.reg .esp := by
    rw [pop_esp,pop_esp,BitVec.add_assoc]
    simp [execTrap,Cpu.set,Machine.set]
  refine ⟨held.pop.pop.congr rfl esp,rfl,rfl,fun r other => ?_⟩
  simp [execTrap,Cpu.set,Machine.set,other]

/-- The way back from `popa` on. -/
theorem back_eq {f : Registers} {base : Word}
    (held : Holds d [f.edi,f.esi,f.ebp,f.useless,f.ebx,f.edx,f.ecx,f.eax,f.intNo,f.errCode,f.eip,f.cs,
      f.eflags] base) (segs : ∀ s, s ≠ .cs → d.seg s = f.ds.setWidth 16) :
    (execTrap d.popa (.addEsp 8)).iret = resumed f base d.mem := by
  obtain ⟨held,seg,mem,edi,esi,ebp,ebx,edx,ecx,eax⟩ := held.popa
  obtain ⟨held,seg',mem',kept⟩ := addEsp_skips held
  rw [seg] at seg'
  rw [mem] at mem'
  generalize execTrap d.popa (.addEsp 8) = e at held seg' mem' kept ⊢
  obtain ⟨esp,eip,eflags,cs,mem⟩ := held.iret
  have segments : e.iret.seg = (resumed f base d.mem).seg := by
    funext s
    cases s with
    | cs => exact cs
    | ds | es | fs | gs =>
      rw [iret_seg (by decide),seg']
      exact segs _ (by decide)
  have regs : e.iret.reg = (resumed f base d.mem).reg := by
    funext r
    cases r with
    | esp => exact esp
    | eax => rw [iret_reg (by decide),kept _ (by decide),eax]; rfl
    | ebx => rw [iret_reg (by decide),kept _ (by decide),ebx]; rfl
    | ecx => rw [iret_reg (by decide),kept _ (by decide),ecx]; rfl
    | edx => rw [iret_reg (by decide),kept _ (by decide),edx]; rfl
    | esi => rw [iret_reg (by decide),kept _ (by decide),esi]; rfl
    | edi => rw [iret_reg (by decide),kept _ (by decide),edi]; rfl
    | ebp => rw [iret_reg (by decide),kept _ (by decide),ebp]; rfl
  have memory : e.iret.mem = (resumed f base d.mem).mem := mem.trans mem'
  generalize e.iret = g at *
  obtain ⟨⟨reg,eip',eflags',mem⟩,seg⟩ := g
  cases regs
  cases segments
  cases memory
  cases eip
  cases eflags
  rfl

theorem loadData_machine (c : Cpu) : (loadData c).toMachine = c.toMachine := rfl

/-- The processor comes back as the frame describes it, whatever the handler has left in the
registers and in the place of its argument. -/
theorem leave_eq {f : Registers} {argument base : Word} (held : Holds after (argument :: f.words) base) :
    leave after = resumed f base after.mem := by
  rw [leave,commonExit_eq]
  obtain ⟨held,-,-,mem,-⟩ := held.popReg (r := .eax) (by decide)
  obtain ⟨held,eax,-,mem',-⟩ := held.popReg (r := .eax) (by decide)
  rw [mem] at mem'
  generalize (after.popReg .eax).popReg .eax = d at held eax mem' ⊢
  have machine := loadData_machine d
  have segs := loadData_seg d
  rw [eax] at segs
  rw [← mem',← machine]
  apply back_eq
  · exact held.congr (by rw [machine]) (by rw [machine])
  · exact fun s other => (segs s).trans (if_neg other)

/-! Handlers. -/

/-- A handler is called with a pointer to the interrupted context, in the kernel's segments. -/
structure Calls (stub : Stub) (c : Cpu) (errorCode : Option Word) (entry : Cpu) : Prop where
  argument : load32 entry.mem (entry.reg .esp + 4) = entry.reg .esp + 8
  frame : HoldsWords entry.mem (entry.reg .esp + 8) (context stub c errorCode).words
  code : entry.seg .cs = 0x08
  data : ∀ s, s ≠ .cs → entry.seg s = 0x10
  outside : AgreeOutside c.mem entry.mem ((c.reg .esp).toNat - 64) (c.reg .esp).toNat

/-- The handler has returned to its caller and left this in the frame. -/
structure Returned (entry after : Cpu) (f : Registers) : Prop where
  esp : after.reg .esp = entry.reg .esp + 4
  frame : HoldsWords after.mem (entry.reg .esp + 8) f.words

theorem Entered.esp (entered : Entered stub c d errorCode returnAddress) :
    (d.reg .esp).toNat + 64 = (c.reg .esp).toNat := entered.pushed.holds.esp

theorem Entered.calls (entered : Entered stub c d errorCode returnAddress) :
    Calls stub c errorCode d := by
  have base := entered.esp
  have words := entered.pushed.holds.words
  have top : c.reg .esp - 56 = d.reg .esp + 8 := by bv_omega
  have second := words 1 (Nat.succ_lt_succ (Nat.succ_pos _))
  refine ⟨second.trans top,fun i inside => ?_,entered.cs,entered.data,?_⟩
  · have place : d.reg .esp + 8 + BitVec.ofNat 32 (4 * i) =
        d.reg .esp + BitVec.ofNat 32 (4 * (i + 2)) := by bv_omega
    rw [place]
    exact words (i + 2) (Nat.succ_lt_succ (Nat.succ_lt_succ inside))
  · have low : (d.reg .esp).toNat = (c.reg .esp).toNat - 64 := by omega
    rw [← low]
    exact entered.pushed.outside

/-- The stack behind a handler, from the place of its argument on. -/
theorem Entered.returned {f : Registers} (entered : Entered stub c d errorCode returnAddress)
    (returned : Returned d after f) :
    Holds after (load32 after.mem (after.reg .esp) :: f.words) (c.reg .esp) := by
  have base := entered.esp
  have words : f.words.length = 14 := rfl
  constructor
  · intro i inside
    cases i with
    | zero => simp
    | succ i =>
      have place : after.reg .esp + BitVec.ofNat 32 (4 * (i + 1)) =
          d.reg .esp + 8 + BitVec.ofNat 32 (4 * i) := by
        rw [returned.esp]
        bv_omega
      rw [place]
      exact returned.frame i (Nat.lt_of_succ_lt_succ inside)
  · rw [returned.esp,List.length_cons,words]
    bv_omega

/-- Through any of the stubs a handler gets the whole interrupted context, and when it
returns, the processor goes on with what the handler has left in that context. -/
theorem stub_frames (stub : Stub) (c : Cpu) (errorCode : Option Word) (returnAddress : Word)
    (room : 64 ≤ (c.reg .esp).toNat) (raised : errorCode.isSome = stub.hasCode) :
    Calls stub c errorCode (enter stub c errorCode returnAddress) ∧
    ∀ after f, Returned (enter stub c errorCode returnAddress) after f →
      leave after = resumed f (c.reg .esp) after.mem :=
  have entered := entered returnAddress room raised
  ⟨entered.calls,fun _ _ returned => leave_eq (entered.returned returned)⟩

/-- A handler that returns at once. -/
theorem Calls.idle {entry : Cpu} (calls : Calls stub c errorCode entry) :
    Returned entry entry.pop (context stub c errorCode) := ⟨pop_esp,calls.frame⟩

/-- Kernel code with a stack below 4 KB. -/
def kernelCode : Cpu :=
  ⟨⟨fun r => if r = .esp then 0x1000 else 0,0x100000,0x202,fun _ => 0⟩,
    fun s => if s = .cs then 0x08 else 0x10⟩

theorem stub_frames_syscall :
    leave (enter .isr128 kernelCode none 0).pop =
      resumed (context .isr128 kernelCode none) (kernelCode.reg .esp)
        (enter .isr128 kernelCode none 0).pop.mem := by
  obtain ⟨calls,resumes⟩ := stub_frames .isr128 kernelCode none 0 (by decide) rfl
  exact resumes _ _ calls.idle

/-- Code that runs in one data segment. -/
def Flat (c : Cpu) : Prop := ∀ s, s ≠ .cs → c.seg s = c.seg .ds

theorem resumed_context (flat : Flat c) (mem : Memory) :
    resumed (context stub c errorCode) (c.reg .esp) mem = {c with mem := mem} := by
  have code : ((c.seg .cs).setWidth 32).setWidth 16 = c.seg .cs := by
    rw [BitVec.setWidth_setWidth_of_le _ (by decide),BitVec.setWidth_eq]
  have data : (context stub c errorCode).ds.setWidth 16 = c.seg .ds := append_low _ _
  have segs : (resumed (context stub c errorCode) (c.reg .esp) mem).seg = c.seg := by
    funext s
    cases s with
    | cs => exact code
    | ds => exact data
    | es => exact data.trans (flat .es (by decide)).symm
    | fs => exact data.trans (flat .fs (by decide)).symm
    | gs => exact data.trans (flat .gs (by decide)).symm
  have regs : (resumed (context stub c errorCode) (c.reg .esp) mem).reg = c.reg := by
    funext r
    cases r <;> rfl
  generalize back : resumed (context stub c errorCode) (c.reg .esp) mem = g at segs regs
  have eip : g.eip = c.eip := by rw [← back]; rfl
  have eflags : g.eflags = c.eflags := by rw [← back]; rfl
  have memory : g.mem = mem := by rw [← back]; rfl
  obtain ⟨⟨reg,_,_,_⟩,seg⟩ := g
  cases regs
  cases segs
  cases eip
  cases eflags
  cases memory
  rfl

/-! Programs that are interrupted. -/

inductive Event where
  | step
  | interrupt (stub : Stub) (errorCode : Option Word)
  deriving DecidableEq

/-- An interrupt whose handler leaves the frame alone. Handlers own some of memory, and use
the stack below the interrupted code. -/
structure Interrupted (owned : Word → Prop) (stub : Stub) (errorCode : Option Word) (c d : Cpu) :
    Prop where
  room : 64 ≤ (c.reg .esp).toNat
  raised : errorCode.isSome = stub.hasCode
  flat : Flat c
  handled : ∃ returnAddress after,
    Returned (enter stub c errorCode returnAddress) after (context stub c errorCode) ∧
    (∀ x, ¬owned x → (c.reg .esp).toNat ≤ x.toNat →
      after.mem x = (enter stub c errorCode returnAddress).mem x) ∧ d = leave after

inductive Move (program : Cpu → Cpu) (owned : Word → Prop) : Cpu → Event → Cpu → Prop
  | step (c : Cpu) : Move program owned c .step (program c)
  | interrupt {c d : Cpu} {stub : Stub} {errorCode : Option Word}
      (interrupted : Interrupted owned stub errorCode c d) :
      Move program owned c (.interrupt stub errorCode) d

/-- What is seen depends neither on the memory of the handlers nor on what lies below the
stack pointer. -/
def Blind {α : Type} (owned : Word → Prop) (view : Cpu → α) : Prop :=
  ∀ (c : Cpu) (mem : Memory), (∀ x, ¬owned x → (c.reg .esp).toNat ≤ x.toNat → mem x = c.mem x) →
    view {c with mem := mem} = view c

section

variable {α : Type} {program : Cpu → Cpu} {owned : Word → Prop} {view : Cpu → α}

theorem Interrupted.unseen (interrupted : Interrupted owned stub errorCode c d)
    (blind : Blind owned view) : view d = view c := by
  obtain ⟨room,raised,flat,returnAddress,after,returned,kept,rfl⟩ := interrupted
  have entered := entered returnAddress room raised
  have low := entered.esp
  rw [leave_eq (entered.returned returned),resumed_context flat]
  apply blind
  intro x other above
  exact (kept x other above).trans (entered.pushed.outside x (.inr above)).symm

/-- Wherever a program is interrupted, and however often, what it sees is as if it had run
alone. -/
theorem interrupts_unseen (program : Cpu → Cpu) (owned : Word → Prop) (view : Cpu → α)
    (blind : Blind owned view) (steady : ∀ c d, view c = view d → view (program c) = view (program d))
    {start last : Cpu} {past : List (Cpu × Event)}
    (run : Run (Move program owned) start past last) :
    view last = view (program^[(past.map Prod.snd).count .step] start) := by
  induction run with
  | nil => rfl
  | snoc _ moved ih =>
    rw [List.map_append,List.count_append]
    cases moved with
    | step =>
      rw [Nat.add_comm,Function.iterate_add_apply]
      exact steady _ _ ih
    | interrupt interrupted => exact (interrupted.unseen blind).trans ih

/-- A program that counts, and a timer interrupt. -/
theorem interrupts_unseen_counter : ∃ past last,
    Run (Move (fun c => c.set .eax (c.reg .eax + 1)) fun _ => False) kernelCode past last ∧
      past.map Prod.snd = [.step,.interrupt (.irq 0) none,.step] ∧ last.reg .eax = 2 := by
  generalize count : (fun c : Cpu => c.set .eax (c.reg .eax + 1)) = program
  have room : 64 ≤ ((program kernelCode).reg .esp).toNat := by rw [← count]; decide
  have flat : Flat (program kernelCode) := by
    rw [← count]
    intro s other
    cases s with
    | cs => exact absurd rfl other
    | ds | es | fs | gs => rfl
  have calls : Calls (.irq 0) (program kernelCode) none (enter (.irq 0) (program kernelCode) none 0) :=
    (entered 0 room rfl).calls
  have interrupted : Interrupted (fun _ => False) (.irq 0) none (program kernelCode)
      (leave (enter (.irq 0) (program kernelCode) none 0).pop) :=
    ⟨room,rfl,flat,0,_,calls.idle,fun _ _ _ => rfl,rfl⟩
  have run := Run.cons (Move.step kernelCode) (Run.cons (Move.interrupt interrupted)
    (Run.single (Move.step (leave (enter (.irq 0) (program kernelCode) none 0).pop))))
  have seen := interrupts_unseen program (fun _ => False) (fun c => c.reg .eax) (fun _ _ _ => rfl)
    (by
      intro c d same
      rw [← count]
      simpa [Cpu.set,Machine.set] using same) run
  refine ⟨_,_,run,rfl,seen.trans ?_⟩
  rw [← count]
  rfl

end

end NimrodOS.Interrupts
