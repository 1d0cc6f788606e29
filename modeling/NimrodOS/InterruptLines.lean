import NimrodOS.Interrupts
import NimrodOS.Lib.I8259
import NimrodOS.Lib.Run

/-! From an interrupt line to its entry stub: `idt_init` programs the two controllers, and
`irq_handler` ends each interrupt before it calls the handler. Devices raise their lines at
any time, in between those commands as well. -/
namespace NimrodOS.Interrupts.Irq

open Wire I8259 Transition

/-- The bytes that `idt_init` writes to ports. -/
def idtInit : List (Half × Byte) :=
  [(0x20,0x11),(0xA0,0x11),(0x21,0x20),(0xA1,0x28),(0x21,0x04),(0xA1,0x02),(0x21,0x01),(0xA1,0x01),
   (0x21,0x0),(0xA1,0x0)]

/-- Those that `irq_handler` writes before it calls. -/
def irqCommands (intNo : Byte) : List (Half × Byte) :=
  (if intNo ≥ 40 then [(0xA0,0x20)] else []) ++ [(0x20,0x20)]

/-- The controllers, and what `irq_handler` has still to write to them. -/
structure Lines where
  chips : Pair
  commands : List (Half × Byte)

inductive Event where
  | edge (n : Fin 16)
  | interrupt (v : Byte)
  | command
  deriving DecidableEq

/-- The gates clear the interrupt flag, and nothing sets it before `irq_handler` calls. -/
inductive Step : Lines → Event → Lines → Prop
  | edge {s : Lines} (n : Fin 16) : Step s (.edge n) {s with chips := s.chips.edge n}
  | interrupt {s : Lines} {v : Byte} {chips : Pair} (ready : s.commands = [])
      (given : s.chips.acknowledge = some (v,chips)) : Step s (.interrupt v) ⟨chips,irqCommands v⟩
  | command {s : Lines} {w : Half × Byte} {rest : List (Half × Byte)} (next : s.commands = w :: rest) :
      Step s .command ⟨s.chips.output w.1 w.2,rest⟩

def lineVector (n : Fin 16) : Byte := BitVec.ofNat 8 (32 + n)

/-- What `idt_init` leaves of the setup. -/
structure Programmed (p : Pair) : Prop extends Cascaded p where
  masterOffset : p.master.offset = 0x20
  slaveOffset : p.slave.offset = 0x28

/-- What is in service, by what `irq_handler` has still to write. -/
inductive Serving (p : Pair) : List (Half × Byte) → Prop
  | nothing (master : p.master.Serves none) (slave : p.slave.Serves none) : Serving p []
  | master (i : Fin 8) (master : p.master.Serves (some i)) (slave : p.slave.Serves none) :
      Serving p [(0x20,0x20)]
  | slave (j : Fin 8) (master : p.master.Serves (some 2)) (slave : p.slave.Serves (some j)) :
      Serving p [(0xA0,0x20),(0x20,0x20)]

structure Invariant (s : Lines) : Prop where
  programmed : Programmed s.chips
  serving : Serving s.chips s.commands

variable {s t start last : Lines} {e : Event} {p q : Pair} {n m : Fin 16} {v : Byte}

theorem vector_onMaster (programmed : Programmed p) (i : Fin 8) :
    p.master.vector i = lineVector (onMaster i) := by
  rw [Chip.vector,programmed.masterOffset]
  revert i
  decide

theorem vector_onSlave (programmed : Programmed p) (j : Fin 8) :
    p.slave.vector j = lineVector (onSlave j) := by
  rw [Chip.vector,programmed.slaveOffset]
  revert j
  decide

theorem lineVector_injective : Function.Injective lineVector := by
  intro a b
  revert a b
  decide

/-- What the setup leaves of whatever the controllers were doing: their registers alone. -/
theorem outputs_idtInit (p : Pair) : p.outputs idtInit =
    ⟨⟨0x20,0x04,0x01,0,fun _ => false,fun _ => false,[]⟩,
      ⟨0x28,0x02,0x01,0,fun _ => false,fun _ => false,[]⟩⟩ := rfl

theorem idtInit_invariant (p : Pair) : Invariant ⟨p.outputs idtInit,[]⟩ := by
  rw [outputs_idtInit]
  refine ⟨⟨⟨⟨rfl,rfl,rfl⟩,⟨rfl,rfl,rfl⟩,rfl,rfl⟩,rfl,rfl⟩,.nothing ?_ ?_⟩
  · funext j
    simp
  · funext j
    simp

theorem Serving.of_inService {commands : List (Half × Byte)} (serving : Serving p commands)
    (master : q.master.inService = p.master.inService)
    (slave : q.slave.inService = p.slave.inService) : Serving q commands := by
  cases serving with
  | nothing m s => exact .nothing (master.trans m) (slave.trans s)
  | master i m s => exact .master i (master.trans m) (slave.trans s)
  | slave j m s => exact .slave j (master.trans m) (slave.trans s)

theorem Invariant.edge (inv : Invariant s) (n : Fin 16) :
    Invariant {s with chips := s.chips.edge n} := by
  obtain ⟨⟨⟨master,slave,line,number⟩,masterOffset,slaveOffset⟩,serving⟩ := inv
  rcases line_cases n with ⟨i,rfl⟩ | ⟨j,rfl⟩
  · rw [edge_onMaster]
    split_ifs with third
    · exact ⟨⟨⟨master,slave,line,number⟩,masterOffset,slaveOffset⟩,serving⟩
    · exact ⟨⟨⟨⟨master.mask,master.mode,master.awaiting⟩,slave,line,number⟩,masterOffset,slaveOffset⟩,
        serving.of_inService rfl rfl⟩
  · rw [edge_onSlave]
    exact ⟨⟨⟨master,⟨slave.mask,slave.mode,slave.awaiting⟩,line,number⟩,masterOffset,slaveOffset⟩,
      serving.of_inService rfl rfl⟩

theorem irqCommands_onMaster (i : Fin 8) : irqCommands (lineVector (onMaster i)) = [(0x20,0x20)] := by
  revert i
  decide

theorem irqCommands_onSlave (j : Fin 8) :
    irqCommands (lineVector (onSlave j)) = [(0xA0,0x20),(0x20,0x20)] := by
  revert j
  decide

/-- What the processor is given between two interrupts. -/
theorem acknowledged (programmed : Programmed p) (idle : Serving p []) {chips : Pair}
    (given : p.acknowledge = some (v,chips)) :
    ∃ n, v = lineVector n ∧ Highest p n ∧ Invariant ⟨chips,irqCommands v⟩ ∧
      ∀ m, chips.pending m = (p.pending m && m != n) := by
  have cascaded := programmed.toCascaded
  cases idle with
  | nothing master slave =>
    rcases acknowledge_idle cascaded master slave with ⟨-,nobody⟩ | ⟨i,other,highest,got⟩ | ⟨j,highest,got⟩
    · rw [nobody] at given
      cases given
    · obtain ⟨rfl,rfl⟩ := Prod.mk.inj (Option.some.inj (given.symm.trans got))
      rw [vector_onMaster programmed]
      refine ⟨_,rfl,highest,⟨⟨⟨?_,cascaded.slave,cascaded.line,cascaded.number⟩,programmed.masterOffset,
        programmed.slaveOffset⟩,?_⟩,fun m => pending_take_master⟩
      · exact ⟨cascaded.master.mask,cascaded.master.mode,cascaded.master.awaiting⟩
      · rw [irqCommands_onMaster]
        exact .master i (Chip.take_serves cascaded.master master i) slave
    · obtain ⟨rfl,rfl⟩ := Prod.mk.inj (Option.some.inj (given.symm.trans got))
      rw [vector_onSlave programmed]
      refine ⟨_,rfl,highest,⟨⟨⟨?_,?_,cascaded.line,cascaded.number⟩,programmed.masterOffset,
        programmed.slaveOffset⟩,?_⟩,fun m => pending_take_slave⟩
      · exact ⟨cascaded.master.mask,cascaded.master.mode,cascaded.master.awaiting⟩
      · exact ⟨cascaded.slave.mask,cascaded.slave.mode,cascaded.slave.awaiting⟩
      · rw [irqCommands_onSlave]
        exact .slave j (Chip.take_serves cascaded.master master 2) (Chip.take_serves cascaded.slave slave j)

/-- A command ends the one interrupt that it is meant for. -/
theorem Invariant.command (inv : Invariant s) {w : Half × Byte} {rest : List (Half × Byte)}
    (next : s.commands = w :: rest) : Invariant ⟨s.chips.output w.1 w.2,rest⟩ ∧
      ∀ n, (s.chips.output w.1 w.2).pending n = s.chips.pending n := by
  obtain ⟨chips,commands⟩ := s
  obtain rfl : commands = w :: rest := next
  obtain ⟨⟨⟨master,slave,line,number⟩,masterOffset,slaveOffset⟩,serving⟩ := inv
  cases serving with
  | master i masterServes slaveServes =>
    have ended : chips.output 0x20 0x20 =
        {chips with master := {chips.master with inService := fun _ => false}} :=
      congrArg (fun c => {chips with master := c}) (Chip.command_end masterServes)
    rw [ended]
    refine ⟨⟨⟨⟨⟨master.mask,master.mode,master.awaiting⟩,slave,line,number⟩,masterOffset,slaveOffset⟩,
      .nothing ?_ slaveServes⟩,fun n => pending_congr rfl rfl⟩
    funext j
    simp
  | slave j masterServes slaveServes =>
    have ended : chips.output 0xA0 0x20 =
        {chips with slave := {chips.slave with inService := fun _ => false}} :=
      congrArg (fun c => {chips with slave := c}) (Chip.command_end slaveServes)
    rw [ended]
    refine ⟨⟨⟨⟨master,⟨slave.mask,slave.mode,slave.awaiting⟩,line,number⟩,masterOffset,slaveOffset⟩,
      .master 2 masterServes ?_⟩,fun n => pending_congr rfl rfl⟩
    funext j
    simp

theorem Invariant.step (inv : Invariant s) (moved : Step s e t) : Invariant t := by
  cases moved with
  | edge n => exact inv.edge n
  | interrupt ready given =>
    obtain ⟨-,-,-,next,-⟩ := acknowledged inv.programmed (ready ▸ inv.serving) given
    exact next
  | command next => exact (inv.command next).1

/-- A fresh request on the line. -/
def raises (n : Fin 16) (entry : Lines × Event) : Bool :=
  entry.2 = .edge n ∧ entry.1.chips.pending n = false

def delivers (n : Fin 16) (entry : Lines × Event) : Bool := entry.2 = .interrupt (lineVector n)

theorem step_balance (inv : Invariant s) (moved : Step s e t) (real : n ≠ 2) :
    (t.chips.pending n).toNat + (delivers n (s,e)).toNat =
      (s.chips.pending n).toNat + (raises n (s,e)).toNat := by
  cases moved with
  | edge m =>
    rw [pending_edge]
    by_cases here : m = n
    · subst here
      cases held : s.chips.pending m <;> simp [delivers,raises,held,real]
    · have apart : (n == m) = false := beq_false_of_ne (Ne.symm here)
      simp [delivers,raises,here,apart]
  | interrupt ready given =>
    obtain ⟨m,rfl,highest,-,others⟩ := acknowledged inv.programmed (ready ▸ inv.serving) given
    rw [others]
    by_cases here : m = n
    · subst here
      simp [delivers,raises,highest.pending]
    · have other : lineVector m ≠ lineVector n := fun same => here (lineVector_injective same)
      have apart : (n != m) = true := bne_iff_ne.mpr (Ne.symm here)
      simp [delivers,raises,other,apart]
  | command next =>
    rw [(inv.command next).2]
    simp [delivers,raises]

/-- Between two interrupts nothing keeps a pending line from the processor. -/
theorem interrupt_possible (inv : Invariant s) (ready : s.commands = [])
    (waits : s.chips.pending n) : ∃ v next, Step s (.interrupt v) next := by
  have serving := inv.serving
  rw [ready] at serving
  cases serving with
  | nothing master slave =>
    rcases acknowledge_idle inv.programmed.toCascaded master slave with
      ⟨nobody,-⟩ | ⟨i,-,-,given⟩ | ⟨j,-,given⟩
    · simp [nobody n] at waits
    · exact ⟨_,_,.interrupt ready given⟩
    · exact ⟨_,_,.interrupt ready given⟩

/-- Whatever the controllers did before `idt_init`, and whenever the devices raise their
lines after it: the vector the processor is given is that of the pending line of highest
rank, whose gate leads to its own entry stub; no request is lost or served twice; and when
`irq_handler` calls, nothing is in service any more and any pending line can interrupt. -/
theorem irq_lines (link : LinkMap) (devices : List PciDevice) (nic : E1000Registers) (chips : Pair)
    {past : List (Lines × Event)} (run : Run Step ⟨chips.outputs idtInit,[]⟩ past last) :
    (∀ s v, (s,Event.interrupt v) ∈ past → ∃ n, Highest s.chips n ∧ v = (Stub.irq n).number ∧
      ((kernelMain link devices nic).idt v).base = link.addr (.irq n)) ∧
    (∀ n, n ≠ 2 → past.countP (delivers n) + (last.chips.pending n).toNat = past.countP (raises n)) ∧
    (last.commands = [] → (∀ i, last.chips.master.inService i = false ∧
      last.chips.slave.inService i = false) ∧
      ∀ n, last.chips.pending n → ∃ v next, Step last (.interrupt v) next) := by
  have initial := idtInit_invariant chips
  have kept := fun s e t (inv : Invariant s) (moved : Step s e t) => inv.step moved
  refine ⟨fun s v taken => ?_,fun n real => ?_,fun ready => ⟨?_,fun n waits => ?_⟩⟩
  · obtain ⟨before,behind,rfl⟩ := List.append_of_mem taken
    obtain ⟨prior,next,moved,-⟩ := run.split
    have inv := prior.invariant initial kept
    cases moved with
    | interrupt ready given =>
      obtain ⟨n,rfl,highest,-,-⟩ := acknowledged inv.programmed (ready ▸ inv.serving) given
      have ordinary : (Stub.irq n).number ≠ 0x80 := number_injective.ne (show Stub.irq n ≠ .isr128 from nofun)
      exact ⟨n,highest,rfl,(kernelMain_base link devices nic (.irq n)).mpr ordinary⟩
  · have balance := run.balance initial kept fun s e t inv moved => step_balance inv moved real
    have quiet : (chips.outputs idtInit).pending n = false := by
      rw [outputs_idtInit]
      rcases line_cases n with ⟨i,rfl⟩ | ⟨j,rfl⟩ <;> simp
    rw [quiet] at balance
    simp only [Bool.toNat_false] at balance
    omega
  · have serving := (run.invariant initial kept).serving
    rw [ready] at serving
    cases serving with
    | nothing master slave => exact fun i => ⟨by simp [congrFun master i],by simp [congrFun slave i]⟩
  · exact interrupt_possible (run.invariant initial kept) ready waits

def unset : Chip := ⟨0,0,0,0,fun _ => false,fun _ => false,[]⟩

def programmed : Pair := (Pair.mk unset unset).outputs idtInit

/-- The network card raises the slave's fourth line. -/
theorem irq_lines_card : ∃ past last, Run Step ⟨programmed,[]⟩ past last ∧
    past.map Prod.snd = [.edge 11,.interrupt 43] ∧
    past.countP (delivers 11) + (last.chips.pending 11).toNat = past.countP (raises 11) := by
  have given : (programmed.edge 11).acknowledge.map Prod.fst = some 43 := by decide +kernel
  obtain ⟨⟨v,chips⟩,acknowledged,same⟩ := Option.map_eq_some_iff.mp given
  obtain rfl : v = 43 := same
  have raised : Step ⟨programmed,[]⟩ (.edge 11) ⟨programmed.edge 11,[]⟩ := .edge 11
  have delivered : Step ⟨programmed.edge 11,[]⟩ (.interrupt 43) ⟨chips,irqCommands 43⟩ :=
    .interrupt rfl acknowledged
  have run := Run.cons raised (Run.single delivered)
  obtain ⟨-,balanced,-⟩ := irq_lines linkedInOrder [qemuCard] silentNic ⟨unset,unset⟩ run
  exact ⟨_,_,run,rfl,balanced 11 (by decide)⟩

end NimrodOS.Interrupts.Irq
