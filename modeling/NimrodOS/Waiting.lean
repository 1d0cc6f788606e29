import NimrodOS.ShellWaits
import NimrodOS.Lib.Run

/-! Handlers run with the interrupts off, so one that comes to a wait never leaves it. -/
namespace NimrodOS.Shell

open Libc Calc Wire Interrupts Transition

variable {out : Outside} {iflag : Bool}

/-! Keys. -/

/-- Enter, outside of the editor, behind such a line. -/
def KeyBlocks (overruns : Overruns) (m : Machine) (scancode : Byte) (sc : Option Byte) : Prop :=
  scancode = 0x1C ∧ m.shell.editorMode = false ∧ LineBlocks overruns m.shell m.keyboard.keyBuffer sc

/-- An echo request that fits into its answer, from a sender whose next hop is not known,
while no Ctrl+C is pending. -/
def FrameBlocks (s : State) (f : Frame) : Prop :=
  Net.Answered f.data f.len ∧ (Net.payloadLen f.data).toNat ≤ 1480 ∧
    Net.Unresolved s.net (Net.source f.data) s.ctrlCPressed

/-- The frames that the driver hands on. -/
def Taken : Net.Nic → Half → Prop
  | .none, _ => False
  | .rtl8139, len => len > 0 ∧ len < 1600
  | .e1000, len => len > 0 ∧ len ≤ 2048

section Gates

variable {link : LinkMap} {devices : List PciDevice} {nic : E1000Registers} {t : Tables}
  {base : Word} {sel : BitVec 16} {flags : Byte}

end Gates

/-! Interrupts. -/

variable (link : LinkMap) (t : Tables) (out)

def HandlerBlocks (overruns : Overruns) (m : Machine) (devices : Devices) : Handler → Prop
  | .keyboardCallback => KeyBlocks overruns m devices.scancode devices.next
  | .rtl8139IrqHandler => ∃ before f after u, devices.frames = before ++ f :: after ∧
      before.foldlM (rtl8139Frame out false) m = .ok u ∧
      Taken .rtl8139 f.len ∧ FrameBlocks u.shell f
  | .e1000IrqHandler => ∃ before f after u, devices.frames = before ++ f :: after ∧
      before.foldlM (e1000Frame out false) m = .ok u ∧
      Taken .e1000 f.len ∧ FrameBlocks u.shell f
  | .timerCallback | .syscallHandler => False

/-- The vector leads to the keyboard's handler with such a key, or to a card's with such a
frame behind others that are handled to their end. -/
def InterruptBlocks (overruns : Overruns) (s : Except Stop Machine) (i : Interrupt) : Prop :=
  ∃ m handler, s = .ok m ∧ deliver link t i.vector = some handler ∧
    HandlerBlocks out overruns m i.devices handler

variable {link t} in
theorem InterruptBlocks.mono {overruns overruns' : Overruns} (more : ∀ s name, overruns s name → overruns' s name)
    {s : Except Stop Machine} {i : Interrupt} (blocks : InterruptBlocks out link t overruns s i) :
    InterruptBlocks out link t overruns' s i := by
  obtain ⟨m,handler,here,delivered,held⟩ := blocks
  refine ⟨m,handler,here,delivered,?_⟩
  cases handler with
  | keyboardCallback => exact ⟨held.1,held.2.1,held.2.2.mono more⟩
  | _ => exact held

variable {link} {t}

variable (link)

def press (scancode : Byte) : Interrupt := ⟨33,⟨scancode,none,[]⟩⟩

/-- No card sends, and a query that runs over ends in a fault. -/
def silent : Outside := ⟨fun _ _ => -1,fun _ _ _ => .error (.fault .outOfBounds)⟩

/-- The machine when a line is typed but not entered. -/
def typed (line : List Byte) : Machine :=
  {boot .e1000 Net.broadcast with keyboard := ⟨line,[],none,[],false,false,0⟩}

end NimrodOS.Shell
