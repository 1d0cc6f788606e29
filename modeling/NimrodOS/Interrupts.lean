import NimrodOS.Lib.ByteMemory

/-! The two interrupt tables and the routines that fill them: `cpu/idt.c`, `cpu/isr.c`,
the entry stubs of `cpu/isr_asm.asm`, and of each driver's init the part that chooses
its device and registers its handler. Device registers are inputs. -/
namespace NimrodOS.Interrupts

/-! The tables. -/

structure IdtEntry where
  baseLow : BitVec 16
  sel : BitVec 16
  always0 : Byte
  flags : Byte
  baseHigh : BitVec 16
  deriving DecidableEq, Repr

inductive Handler where
  | timerCallback
  | keyboardCallback
  | syscallHandler
  | rtl8139IrqHandler
  | e1000IrqHandler
  deriving DecidableEq, Repr

/-- `idt` and `interrupt_handlers`, both with 256 entries. -/
structure Tables where
  idt : Byte → IdtEntry
  handlers : Byte → Option Handler

/-- Both tables lie in `.bss`. -/
def cleared : Tables := ⟨fun _ => ⟨0,0,0,0,0⟩,fun _ => none⟩

def idtSetGate (t : Tables) (num : Byte) (base : Word) (sel : BitVec 16) (flags : Byte) : Tables :=
  let entry : IdtEntry :=
    ⟨(base &&& 0xFFFF).setWidth 16,sel,0,flags,((base >>> 16) &&& 0xFFFF).setWidth 16⟩
  {t with idt := fun v => if v = num then entry else t.idt v}

def registerInterruptHandler (t : Tables) (n : Byte) (handler : Handler) : Tables :=
  {t with handlers := fun v => if v = n then some handler else t.handlers v}

/-! The entry stubs. -/

inductive Stub where
  | isr (n : Fin 32)
  | irq (n : Fin 16)
  | isr128
  deriving DecidableEq, Repr

def stubs : List Stub :=
  (List.finRange 32).map .isr ++ (List.finRange 16).map .irq ++ [.isr128]

/-- The interrupt number a stub pushes. -/
def Stub.number : Stub → Byte
  | .isr n => BitVec.ofNat 8 n
  | .irq n => BitVec.ofNat 8 (32 + n)
  | .isr128 => 128

/-- Where the linker puts the stubs. -/
structure LinkMap where
  addr : Stub → Word
  distinct : Function.Injective addr
  nonzero : ∀ stub, addr stub ≠ 0

/-- The calls of `idt_set_gate` for a family of stubs. -/
def setGates (xs : List α) (num : α → Byte) (base : α → Word) (sel : BitVec 16) (flags : Byte)
    (t : Tables) : Tables :=
  xs.foldl (fun t x => idtSetGate t (num x) (base x) sel flags) t

def isrInstall (link : LinkMap) (t : Tables) : Tables :=
  let t := setGates (List.finRange 32) (fun n => BitVec.ofNat 8 n) (fun n => link.addr (.isr n))
    0x08 0x8E t
  let t := setGates (List.finRange 16) (fun n => BitVec.ofNat 8 (32 + n))
    (fun n => link.addr (.irq n)) 0x08 0x8E t
  idtSetGate t 0x80 (link.addr .isr128) 0x08 0xEE

/-- `idt_init` and `idt_load_and_enable` only program the PIC and the CPU. -/
def irqInstall (link : LinkMap) (t : Tables) : Tables := isrInstall link t

/-- The common IRQ stub calls `irq_handler`. -/
def irqHandler (t : Tables) (intNo : Byte) : Option Handler := t.handlers intNo

/-- The common ISR stub calls `isr_handler`, which panics below 32. -/
def isrHandler (t : Tables) (intNo : Byte) : Option Handler :=
  if intNo ≥ 32 ∧ t.handlers intNo ≠ none then t.handlers intNo else none

def Stub.call (t : Tables) : Stub → Option Handler
  | .irq n => irqHandler t (Stub.irq n).number
  | stub => isrHandler t stub.number

/-- The address the CPU jumps to. -/
def IdtEntry.base (e : IdtEntry) : Word := e.baseLow.setWidth 32 ||| e.baseHigh.setWidth 32 <<< 16

def stubAt (link : LinkMap) (a : Word) : Option Stub := stubs.find? fun stub => link.addr stub = a

/-- The registered handler that interrupt `v` ends up in, if any. -/
def deliver (link : LinkMap) (t : Tables) (v : Byte) : Option Handler :=
  (stubAt link (t.idt v).base).bind (Stub.call t)

/-! The init routines. -/

def timerInit (t : Tables) : Tables := registerInterruptHandler t 32 .timerCallback

def keyboardInit (t : Tables) : Tables := registerInterruptHandler t 33 .keyboardCallback

def syscallInit (t : Tables) : Tables :=
  registerInterruptHandler (idtSetGate t 0x80 0 0x08 0xEE) 0x80 .syscallHandler

structure PciDevice where
  vendorId : BitVec 16
  deviceId : BitVec 16
  classCode : Byte
  subclass : Byte
  irqLine : Byte
  bar0 : Word
  deriving DecidableEq, Repr

def pciFind (devices : List PciDevice) (vendor device : BitVec 16) : Option PciDevice :=
  devices.find? fun d => d.vendorId = vendor ∧ d.deviceId = device

def rtl8139Init (devices : List PciDevice) (t : Tables) : Tables × Int :=
  match pciFind devices 0x10EC 0x8139 with
  | none => (t,-1)
  | some dev => (registerInterruptHandler t (32 + dev.irqLine) .rtl8139IrqHandler,0)

/-- What an E1000 answers when asked for its MAC address. -/
structure E1000Registers where
  eeprom : Byte → BitVec 16
  ral : Word
  rah : Word

def e1000ReadMac (nic : E1000Registers) : Int :=
  if nic.eeprom 0 ≠ 0 ∧ nic.eeprom 0 ≠ 0xFFFF then 0
  else if nic.ral ≠ 0 ∧ nic.ral ≠ 0xFFFFFFFF then 0
  else -1

def e1000DeviceIds : List (BitVec 16) :=
  [0x100E,0x100F,0x10D3,0x153A,0x153B,0x155A,0x1559,0x156F,0x1570,0x15B7,0x15B8,0x15BB,0x15BC,
    0x0D4E,0x0D4F,0x0D53,0x0D55,0x15F3,0x125C]

/-- The first known device, else any Intel Ethernet controller. -/
def e1000Find (devices : List PciDevice) : Option PciDevice :=
  match e1000DeviceIds.findSome? (pciFind devices 0x8086) with
  | some dev => some dev
  | none => devices.find? fun d => d.vendorId = 0x8086 ∧ d.classCode = 0x02 ∧ d.subclass = 0x00

def e1000Init (devices : List PciDevice) (nic : E1000Registers) (t : Tables) : Tables × Int :=
  match e1000Find devices with
  | none => (t,-1)
  | some dev =>
    if dev.bar0 &&& 1 ≠ 0 then (t,-2)
    else if e1000ReadMac nic < 0 then (t,-3)
    else
      let t :=
        if dev.irqLine > 0 ∧ dev.irqLine < 24 then
          registerInterruptHandler t (32 + dev.irqLine) .e1000IrqHandler
        else t
      (t,0)

def netInit (devices : List PciDevice) (nic : E1000Registers) (t : Tables) : Tables :=
  let rtl := rtl8139Init devices t
  if rtl.2 = 0 then rtl.1 else (e1000Init devices nic rtl.1).1

/-- The init order of `kernel_main`. -/
def kernelMain (link : LinkMap) (devices : List PciDevice) (nic : E1000Registers) : Tables :=
  netInit devices nic (syscallInit (keyboardInit (timerInit (irqInstall link cleared))))

/-! What the routines leave in the tables. -/

section Gates

variable {t : Tables} {num v : Byte} {base : Word} {sel : BitVec 16} {flags : Byte}

theorem lowMask_bit : ∀ i < 32, (0xFFFF#32).getLsbD i = decide (i < 16) := by decide

theorem base_setGate : ((idtSetGate t num base sel flags).idt num).base = base := by
  simp only [idtSetGate,IdtEntry.base,if_true]
  apply BitVec.eq_of_getLsbD_eq
  intro i inside
  have mask := lowMask_bit i inside
  have high := lowMask_bit (i - 16) (by omega)
  by_cases low : i < 16
  · simp [-BitVec.getLsbD_eq_getElem,mask,low,inside]
  · have lands : i - 16 < 16 := by omega
    have short : i - 16 < 32 := by omega
    have whole : 16 + (i - 16) = i := by omega
    simp [-BitVec.getLsbD_eq_getElem,high,low,inside,lands,short,whole]

theorem setGate_other (other : v ≠ num) :
    (idtSetGate t num base sel flags).idt v = t.idt v := by
  simp [idtSetGate,other]

variable {xs : List α} {nums : α → Byte} {bases : α → Word}

theorem setGates_handlers : (setGates xs nums bases sel flags t).handlers = t.handlers := by
  induction xs generalizing t with
  | nil => rfl
  | cons x xs ih => exact ih

theorem setGates_other (other : ∀ x ∈ xs, v ≠ nums x) :
    (setGates xs nums bases sel flags t).idt v = t.idt v := by
  induction xs generalizing t with
  | nil => rfl
  | cons x xs ih =>
    obtain ⟨first,rest⟩ := List.forall_mem_cons.mp other
    exact (ih rest).trans (setGate_other first)

theorem base_setGates {x : α} (distinct : Function.Injective nums) (once : xs.Nodup)
    (member : x ∈ xs) :
    ((setGates xs nums bases sel flags t).idt (nums x)).base = bases x := by
  induction xs generalizing t with
  | nil => simp at member
  | cons y xs ih =>
    obtain ⟨new,once⟩ := List.nodup_cons.mp once
    rcases List.mem_cons.mp member with rfl | member
    · have later : ∀ z ∈ xs, nums x ≠ nums z := by
        intro z inside same
        exact new (distinct same ▸ inside)
      exact (congrArg _ (setGates_other later)).trans base_setGate
    · exact ih once member

end Gates

/-! The stubs and their vectors. -/

theorem number_injective : Function.Injective Stub.number := by
  intro a b same
  rw [← BitVec.toNat_inj] at same
  cases a with
  | isr n => cases b <;> simp only [Stub.number,BitVec.toNat_ofNat] at same <;> grind
  | irq n => cases b <;> simp only [Stub.number,BitVec.toNat_ofNat] at same <;> grind
  | isr128 => cases b <;> simp only [Stub.number,BitVec.toNat_ofNat] at same <;> grind

theorem mem_stubs (stub : Stub) : stub ∈ stubs := by
  cases stub <;> simp [stubs]

theorem stubAt_addr (link : LinkMap) (stub : Stub) : stubAt link (link.addr stub) = some stub := by
  have found : (stubAt link (link.addr stub)).isSome := by
    simpa [stubAt] using ⟨stub,mem_stubs stub,rfl⟩
  obtain ⟨other,held⟩ := Option.isSome_iff_exists.mp found
  have same : link.addr other = link.addr stub := by simpa using List.find?_some held
  rw [held,link.distinct same]

theorem isrInstall_handlers (link : LinkMap) (t : Tables) :
    (isrInstall link t).handlers = t.handlers :=
  Eq.trans setGates_handlers setGates_handlers

theorem isrInstall_base (link : LinkMap) (t : Tables) (stub : Stub) :
    ((isrInstall link t).idt stub.number).base = link.addr stub := by
  cases stub with
  | isr n =>
    have notSyscall := number_injective.ne (show Stub.isr n ≠ .isr128 from nofun)
    have notIrq : ∀ m ∈ List.finRange 16, (Stub.isr n).number ≠ (Stub.irq m).number :=
      fun m _ => number_injective.ne nofun
    have inner : Function.Injective fun m : Fin 32 => (Stub.isr m).number :=
      fun a b same => Stub.isr.inj (number_injective same)
    calc ((isrInstall link t).idt (Stub.isr n).number).base
        = _ := congrArg _ (setGate_other notSyscall)
      _ = _ := congrArg _ (setGates_other notIrq)
      _ = link.addr (.isr n) :=
        base_setGates inner (List.nodup_finRange 32) (List.mem_finRange n)
  | irq n =>
    have notSyscall := number_injective.ne (show Stub.irq n ≠ .isr128 from nofun)
    have inner : Function.Injective fun m : Fin 16 => (Stub.irq m).number :=
      fun a b same => Stub.irq.inj (number_injective same)
    exact (congrArg _ (setGate_other notSyscall)).trans
      (base_setGates inner (List.nodup_finRange 16) (List.mem_finRange n))
  | isr128 => exact base_setGate

/-- The common part of a stub finds the handler of the stub's own vector. -/
theorem call_of_registered {t : Tables} {stub : Stub} {h : Handler}
    (registered : t.handlers stub.number = some h) (hardware : 32 ≤ stub.number) :
    stub.call t = some h := by
  cases stub with
  | irq n => exact registered
  | isr n => exact (if_pos ⟨hardware,by simp [registered]⟩).trans registered
  | isr128 => exact (if_pos ⟨hardware,by simp [registered]⟩).trans registered

/-! The tables after `kernel_main`. -/

/-- The cards that the drivers look for have an interrupt line from 2 to 15. -/
def Wired (devices : List PciDevice) : Prop :=
  ∀ dev, pciFind devices 0x10EC 0x8139 = some dev ∨ e1000Find devices = some dev →
    2 ≤ dev.irqLine ∧ dev.irqLine ≤ 15

section Boot

variable {link : LinkMap} {devices : List PciDevice} {nic : E1000Registers} {t : Tables}
variable {v : Byte} {h : Handler}

theorem e1000Init_cases (devices : List PciDevice) (nic : E1000Registers) (t : Tables) :
    (e1000Init devices nic t).1 = t ∨ ∃ dev, e1000Find devices = some dev ∧
      (e1000Init devices nic t).1 =
        registerInterruptHandler t (32 + dev.irqLine) .e1000IrqHandler := by
  unfold e1000Init
  cases found : e1000Find devices with
  | none => exact .inl rfl
  | some dev =>
    dsimp only
    split
    · exact .inl rfl
    split
    · exact .inl rfl
    by_cases line : dev.irqLine > 0 ∧ dev.irqLine < 24
    · exact .inr ⟨dev,rfl,if_pos line⟩
    · exact .inl (if_neg line)

/-- At most one card registers a handler. -/
theorem netInit_cases (devices : List PciDevice) (nic : E1000Registers) (t : Tables) :
    netInit devices nic t = t ∨ ∃ dev handler,
    (pciFind devices 0x10EC 0x8139 = some dev ∨ e1000Find devices = some dev) ∧
      netInit devices nic t = registerInterruptHandler t (32 + dev.irqLine) handler := by
  unfold netInit rtl8139Init
  cases pciFind devices 0x10EC 0x8139 with
  | some dev => exact .inr ⟨dev,.rtl8139IrqHandler,.inl rfl,rfl⟩
  | none =>
    rcases e1000Init_cases devices nic t with same | ⟨dev,found,same⟩
    · exact .inl same
    · exact .inr ⟨dev,.e1000IrqHandler,.inr found,same⟩

theorem netInit_idt (devices : List PciDevice) (nic : E1000Registers) (t : Tables) :
    (netInit devices nic t).idt = t.idt := by
  rcases netInit_cases devices nic t with same | ⟨dev,handler,-,same⟩
  · rw [same]
  · rw [same]
    rfl

theorem register_cases {n : Byte} {handler : Handler}
    (registered : (registerInterruptHandler t n handler).handlers v = some h) :
    v = n ∨ t.handlers v = some h := by
  by_cases here : v = n
  · exact .inl here
  · exact .inr (by simpa [registerInterruptHandler,here] using registered)

/-- A handler is registered for the timer, the keyboard, system calls or the card. -/
theorem kernelMain_cases (registered : (kernelMain link devices nic).handlers v = some h) :
    v = 32 ∨ v = 33 ∨ v = 0x80 ∨ ∃ dev,
      (pciFind devices 0x10EC 0x8139 = some dev ∨ e1000Find devices = some dev) ∧
        v = 32 + dev.irqLine := by
  have base : (syscallInit (keyboardInit (timerInit (irqInstall link cleared)))).handlers v =
      some h → v = 32 ∨ v = 33 ∨ v = 0x80 := by
    intro registered
    rcases register_cases registered with rfl | registered
    · simp
    rcases register_cases registered with rfl | registered
    · simp
    rcases register_cases registered with rfl | registered
    · simp
    · rw [irqInstall,isrInstall_handlers] at registered
      simp [cleared] at registered
  rcases netInit_cases devices nic
      (syscallInit (keyboardInit (timerInit (irqInstall link cleared)))) with same | ⟨dev,handler,found,same⟩
  · rw [kernelMain,same] at registered
    have := base registered
    tauto
  · rw [kernelMain,same] at registered
    rcases register_cases registered with rfl | registered
    · exact .inr (.inr (.inr ⟨dev,found,rfl⟩))
    · have := base registered
      tauto

/-- Every registered vector has an entry stub. -/
theorem stub_of_registered (wired : Wired devices)
    (registered : (kernelMain link devices nic).handlers v = some h) :
    ∃ stub : Stub, stub.number = v ∧ 32 ≤ v := by
  rcases kernelMain_cases registered with rfl | rfl | rfl | ⟨dev,found,rfl⟩
  · exact ⟨.irq 0,rfl,by decide⟩
  · exact ⟨.irq 1,rfl,by decide⟩
  · exact ⟨.isr128,rfl,by decide⟩
  · obtain ⟨-,low⟩ := wired dev found
    have small : dev.irqLine.toNat ≤ 15 := low
    refine ⟨.irq ⟨dev.irqLine.toNat,by omega⟩,?_,?_⟩
    · simp [Stub.number,← BitVec.toNat_inj]
    · simp only [BitVec.le_def,BitVec.toNat_add]
      simp
      omega

/-- `syscall_init` clears the base of the gate that `isr_install` wrote. -/
theorem kernelMain_base (link : LinkMap) (devices : List PciDevice) (nic : E1000Registers)
    (stub : Stub) :
    (((kernelMain link devices nic).idt stub.number).base = link.addr stub) ↔
      stub.number ≠ 0x80 := by
  rw [kernelMain,netInit_idt]
  change ((idtSetGate (irqInstall link cleared) 0x80 0 0x08 0xEE).idt stub.number).base = _ ↔ _
  by_cases syscall : stub.number = 0x80
  · rw [syscall,base_setGate]
    simpa using (link.nonzero stub).symm
  · rw [setGate_other syscall]
    exact iff_of_true (isrInstall_base link cleared stub) syscall

/-- The vector's gate leads to its own entry stub, and from there to its handler. -/
def ReachesHandler (link : LinkMap) (t : Tables) (v : Byte) : Prop :=
  (∃ stub : Stub, stub.number = v ∧ (t.idt v).base = link.addr stub) ∧
    deliver link t v = t.handlers v

/-- Of the registered vectors just the system call one is cut off. -/
theorem registered_reaches_iff (link : LinkMap) (devices : List PciDevice) (nic : E1000Registers)
    (wired : Wired devices) (v : Byte)
    (registered : (kernelMain link devices nic).handlers v ≠ none) :
    ReachesHandler link (kernelMain link devices nic) v ↔ v ≠ 0x80 := by
  obtain ⟨h,registered⟩ := Option.ne_none_iff_exists'.mp registered
  obtain ⟨stub,rfl,hardware⟩ := stub_of_registered wired registered
  constructor
  · rintro ⟨⟨other,same,base⟩,-⟩
    obtain rfl := number_injective same
    exact (kernelMain_base link devices nic other).mp base
  · intro ordinary
    have base := (kernelMain_base link devices nic stub).mpr ordinary
    refine ⟨⟨stub,rfl,base⟩,?_⟩
    rw [deliver,base,stubAt_addr,registered]
    exact call_of_registered registered hardware

/-- The stubs one after the other from 1 MB on. -/
def linkedInOrder : LinkMap where
  addr stub := 0x100000#32 + stub.number.setWidth 32
  distinct a b same := by
    apply number_injective
    have := a.number.isLt
    have := b.number.isLt
    simp only [← BitVec.toNat_inj,BitVec.toNat_add,BitVec.toNat_setWidth,BitVec.toNat_ofNat] at same ⊢
    omega
  nonzero stub := by
    have := stub.number.isLt
    have zero : (0 : Word).toNat = 0 := rfl
    simp only [ne_eq,← BitVec.toNat_inj,BitVec.toNat_add,BitVec.toNat_setWidth,BitVec.toNat_ofNat]
    omega

/-- An RTL8139 on line 11. -/
def qemuCard : PciDevice where
  vendorId := 0x10EC
  deviceId := 0x8139
  classCode := 0x02
  subclass := 0x00
  irqLine := 11
  bar0 := 0xC001

def silentNic : E1000Registers := ⟨fun _ => 0,0,0⟩

theorem qemuCard_reaches :
    ReachesHandler linkedInOrder (kernelMain linkedInOrder [qemuCard] silentNic) 43 ↔
      (43 : Byte) ≠ 0x80 := by
  refine registered_reaches_iff linkedInOrder [qemuCard] silentNic ?_ 43 (by decide)
  rintro dev (found | found)
  · obtain rfl : qemuCard = dev := Option.some.inj found
    decide
  · exact nomatch found

/-- `int 0x80` jumps to address zero, also on a machine without any card. -/
theorem syscall_unreached : ¬∀ (link : LinkMap) (devices : List PciDevice) (nic : E1000Registers),
    Wired devices → ∀ v, (kernelMain link devices nic).handlers v ≠ none →
      ReachesHandler link (kernelMain link devices nic) v := by
  intro claim
  have wired : Wired [] := by rintro dev (found | found) <;> cases found
  obtain ⟨⟨stub,number,base⟩,-⟩ := claim linkedInOrder [] silentNic wired 0x80 (by decide)
  rw [← number] at base
  exact (kernelMain_base _ _ _ stub).mp base number

end Boot

end NimrodOS.Interrupts
