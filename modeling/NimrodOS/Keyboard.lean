import NimrodOS.Interrupts
import NimrodOS.Shell

/-! The handlers of `drivers/keyboard.c`, `drivers/rtl8139.c` and `drivers/e1000.c`, and
the interrupts that call them. What the devices answer is an input, and what is printed
is left out. -/
namespace NimrodOS.Shell

open Libc Wire Interrupts

/-! The keyboard. -/

/-- The number of the bytes in use stands for `key_buffer_len`, and no position in the
history for -1. -/
structure Keyboard where
  keyBuffer : List Byte
  history : List (List Byte)
  historyPos : Option Nat
  savedInput : List Byte
  shiftHeld : Bool
  ctrlHeld : Bool
  elen : Nat

structure Machine where
  keyboard : Keyboard
  shell : State

def scancodeAscii : List Byte :=
  [0,27] ++ text "1234567890-=" ++ [8] ++ [9] ++ text "qwertyuiop[]" ++ [10] ++
    [0] ++ text "asdfghjkl;" ++ [39,96] ++ [0,92] ++ text "zxcvbnm,./" ++ [0] ++ [42,0,32]

def scancodeAsciiShift : List Byte :=
  [0,27] ++ text "!@#$%^&*()_+" ++ [8] ++ [9] ++ text "QWERTYUIOP" ++ [123,125] ++ [10] ++
    [0] ++ text "ASDFGHJKL:" ++ [34,126] ++ [0,124] ++ text "ZXCVBNM<>?" ++ [0] ++ [42,0,32]

def Keyboard.char (k : Keyboard) (scancode : Byte) : Byte :=
  (if k.shiftHeld then scancodeAsciiShift else scancodeAscii).getD scancode.toNat 0

theorem scancodeAscii_length : scancodeAscii.length = 58 := by decide

/-- Both tables have their line feed at the scancode of Enter. -/
theorem char_enter (k : Keyboard) {scancode : Byte} (inside : scancode.toNat < 58) :
    k.char scancode = 10 ↔ scancode = 0x1C := by
  have plain : ∀ i : Fin 58, scancodeAscii.getD i 0 = 10 ↔ i.val = 28 := by decide
  have shifted : ∀ i : Fin 58, scancodeAsciiShift.getD i 0 = 10 ↔ i.val = 28 := by decide
  have place : scancode = 0x1C ↔ scancode.toNat = 28 := BitVec.toNat_inj.symm
  rw [place,Keyboard.char]
  split_ifs
  · exact shifted ⟨scancode.toNat,inside⟩
  · exact plain ⟨scancode.toNat,inside⟩

def historyPush (history : List (List Byte)) (cmd : List Byte) : List (List Byte) :=
  if cmd.length = 0 then history
  else if history.head?.any fun last => strcmp last cmd = 0 then history
  else (cmd :: history).take 16

def Keyboard.replaceInput (k : Keyboard) (newText : List Byte) : Keyboard :=
  {k with keyBuffer := newText.take 255}

def released (k : Keyboard) (scancode : Byte) : Keyboard :=
  let key := scancode &&& 0x7F
  if key = 0x2A ∨ key = 0x36 then {k with shiftHeld := false}
  else if key = 0x1D then {k with ctrlHeld := false}
  else k

/-- A character in editor mode. -/
def editorKey (m : Machine) (c : Byte) : Machine :=
  let line := m.shell.editorLineBuf.take m.keyboard.elen
  if c = 8 then
    if m.keyboard.elen > 0 then
      {m with
        keyboard := {m.keyboard with elen := m.keyboard.elen - 1}
        shell := {m.shell with editorLineBuf := line.dropLast}}
    else m
  else if c = 10 then
    {m with
      keyboard := {m.keyboard with elen := 0}
      shell := {m.shell with editorLineBuf := line,editorLineReady := true}}
  else if c ≠ 0 ∧ m.keyboard.elen < 254 then
    {m with
      keyboard := {m.keyboard with elen := m.keyboard.elen + 1}
      shell := {m.shell with editorLineBuf := line ++ [c]}}
  else m

def upArrow (k : Keyboard) : Keyboard :=
  if k.history.length = 0 then k
  else
    match k.historyPos with
    | none => {k with historyPos := some 0,savedInput := k.keyBuffer}.replaceInput
        (k.history.getD 0 [])
    | some pos =>
      if pos + 1 < k.history.length then
        {k with historyPos := some (pos + 1)}.replaceInput (k.history.getD (pos + 1) [])
      else k

def downArrow (k : Keyboard) : Keyboard :=
  match k.historyPos with
  | none => k
  | some 0 => {k with historyPos := none}.replaceInput k.savedInput
  | some (pos + 1) => {k with historyPos := some pos}.replaceInput (k.history.getD pos [])

section

variable (out : Outside) (iflag : Bool)

/-- Enter runs the line. -/
def enterKey (m : Machine) (sc : Option Byte) : Except Stop Machine := do
  let line := m.keyboard.keyBuffer
  let pushed := {m.keyboard with
    history := historyPush m.keyboard.history line,historyPos := none}
  let shell ← shellExecute out iflag m.shell line sc
  return ⟨{pushed with keyBuffer := []},shell⟩

def typedKey (m : Machine) (c : Byte) (sc : Option Byte) : Except Stop Machine :=
  if c = 8 then .ok {m with keyboard := {m.keyboard with keyBuffer := m.keyboard.keyBuffer.dropLast}}
  else if c = 10 then enterKey out iflag m sc
  else if c ≠ 0 ∧ m.keyboard.keyBuffer.length < 255 then
    .ok {m with keyboard := {m.keyboard with keyBuffer := m.keyboard.keyBuffer ++ [c]}}
  else .ok m

def keyboardCallback (m : Machine) (scancode : Byte) (sc : Option Byte) : Except Stop Machine :=
  let k := m.keyboard
  if scancode &&& 0x80 ≠ 0 then .ok {m with keyboard := released k scancode}
  else if scancode = 0x1D then .ok {m with keyboard := {k with ctrlHeld := true}}
  else if scancode = 0x2A ∨ scancode = 0x36 then .ok {m with keyboard := {k with shiftHeld := true}}
  else if k.ctrlHeld ∧ scancode = 0x2E then
    .ok ⟨{k with keyBuffer := [],historyPos := none},{m.shell with ctrlCPressed := true}⟩
  else if m.shell.editorMode ∧ scancode.toNat < scancodeAscii.length then
    .ok (editorKey m (k.char scancode))
  else if k.ctrlHeld ∧ scancode = 0x26 then .ok m
  else if scancode = 0x48 then .ok {m with keyboard := upArrow k}
  else if scancode = 0x50 then .ok {m with keyboard := downArrow k}
  else if scancode.toNat < scancodeAscii.length then
    typedKey out iflag m (k.char scancode) sc
  else .ok m

/-! The network cards. -/

structure Frame where
  data : Nat → Byte
  len : Half

def receive (m : Machine) (f : Frame) : Except Stop Machine := do
  let env := maskedEnv out m.shell m.shell.net (Net.source f.data)
  let net ← (Net.netHandlePacket env m.shell.net f.data f.len).result.mapError (.ofHalt iflag)
  return {m with shell := {m.shell with net := net}}

def rtl8139Frame (m : Machine) (f : Frame) : Except Stop Machine :=
  if f.len > 0 ∧ f.len < 1600 then receive out iflag m f else .ok m

def e1000Frame (m : Machine) (f : Frame) : Except Stop Machine :=
  if f.len > 0 ∧ f.len ≤ 2048 then receive out iflag m f else .ok m

end

/-! Interrupts. -/

/-- What the devices hold when an interrupt arrives: the scancode, the one after it and the
frames received. -/
structure Devices where
  scancode : Byte
  next : Option Byte
  frames : List Frame

structure Interrupt where
  vector : Byte
  devices : Devices

/-- An interrupt that arrives finds the flag set; an interrupt gate clears it, a trap gate
does not. -/
def iflagBehind (gate : IdtEntry) : Bool := gate.flags &&& 0x0F = 0x0F

variable (link : LinkMap) (t : Tables) (out : Outside)

/-- The timer's switch to another task is left out. -/
def runHandler (iflag : Bool) (m : Machine) (devices : Devices) : Handler → Except Stop Machine
  | .timerCallback =>
    .ok {m with shell := {m.shell with tickCount := m.shell.tickCount + 1}}
  | .keyboardCallback => keyboardCallback out iflag m devices.scancode devices.next
  | .rtl8139IrqHandler => devices.frames.foldlM (rtl8139Frame out iflag) m
  | .e1000IrqHandler => devices.frames.foldlM (e1000Frame out iflag) m
  | .syscallHandler => .ok m

/-- A handler that does not return leaves no machine that takes another interrupt. -/
def interrupt (s : Except Stop Machine) (i : Interrupt) : Except Stop Machine := do
  let m ← s
  match deliver link t i.vector with
  | some handler => runHandler out (iflagBehind (t.idt i.vector)) m i.devices handler
  | none => return m

/-- The machine behind `kernel_main`. -/
def boot (nic : Net.Nic) (mac : Net.Mac) : Machine where
  keyboard := ⟨[],[],none,[],false,false,0⟩
  shell := ⟨0,false,false,false,[],[],Net.netInit nic mac⟩

end NimrodOS.Shell
