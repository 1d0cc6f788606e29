import NimrodOS.Keyboard
import NimrodOS.Lib.Checked

/-! The line editor of `drivers/keyboard.c` on its arrays, where every access is checked.
What is printed is left out, and so is what `shell_execute` does. -/
namespace NimrodOS.KeyBuffers

open Libc Checked
open Shell (scancodeAscii scancodeAsciiShift)

/-- What belongs to the input of the editor. -/
structure Editor where
  elen : Int
  editorMode : Bool
  editorLineReady : Bool
  editorLineBuf : Fin 256 → Byte

structure Buffers where
  keyBuffer : Fin 256 → Byte
  keyBufferLen : Int
  ctrlCPressed : Bool
  history : Fin 16 → Fin 256 → Byte
  historyCount : Int
  historyPos : Int
  savedInput : Fin 256 → Byte
  savedLen : Int
  shiftHeld : Bool
  ctrlHeld : Bool
  editor : Editor

section Strings

variable {n : Nat}

/-- The bytes up to the terminator, which has to be found inside the array. -/
def readString (buf : Fin n → Byte) : Except OutOfRange CString :=
  if (contents buf).length < n then .ok ⟨contents buf,contents_noNul buf⟩ else .error ⟨n,n⟩

def copyString (dest : Fin n → Byte) (src : CString) : Except OutOfRange (Fin n → Byte) :=
  if src.val.length < n then .ok (strcpy dest src) else .error ⟨n,src.val.length⟩

def copyBounded (dest : Fin n → Byte) (src : CString) (count : Int) :
    Except OutOfRange (Fin n → Byte) :=
  if count ≤ n then .ok (strncpy dest src count.toNat) else .error ⟨n,n⟩

end Strings

/-- The loop of `history_push`, from row `i` down. -/
def shiftRows (history : Fin 16 → Fin 256 → Byte) :
    Nat → Except OutOfRange (Fin 16 → Fin 256 → Byte)
  | 0 => .ok history
  | i + 1 => do
    let above ← get history i
    let src ← readString above
    let row ← get history (i + 1 : Nat)
    let copied ← copyString row src
    let history ← Checked.set history (i + 1 : Nat) copied
    shiftRows history i

/-- Whether the last entry is the same line. -/
def repeated (b : Buffers) (line : CString) : Except OutOfRange Bool :=
  if b.historyCount > 0 then do
    let first ← get b.history 0
    let last ← readString first
    return strcmp last.val line.val = 0
  else return false

/-- Moves the entries down and puts the line in front. -/
def pushLine (b : Buffers) (line : CString) : Except OutOfRange Buffers := do
  let max := if b.historyCount < 16 - 1 then b.historyCount else 16 - 1
  let shifted ← shiftRows b.history max.toNat
  let row ← get shifted 0
  let copied ← copyBounded row line (256 - 1)
  let ended ← Checked.set copied (256 - 1) 0
  let history ← Checked.set shifted 0 ended
  return {b with
    history := history
    historyCount := if b.historyCount < 16 then b.historyCount + 1 else b.historyCount}

def historyPush (b : Buffers) (cmd : Fin 256 → Byte) : Except OutOfRange Buffers := do
  let line ← readString cmd
  if line.val.length = 0 then return b
  else
    let same ← repeated b line
    if same then return b else pushLine b line

def replaceInput (b : Buffers) (newText : Fin 256 → Byte) : Except OutOfRange Buffers := do
  let line ← readString newText
  let len : Int := line.val.length
  let len := if len ≥ 256 then 256 - 1 else len
  let copied ← copyBounded b.keyBuffer line len
  let ended ← Checked.set copied len 0
  let _ ← readString ended
  return {b with keyBuffer := ended,keyBufferLen := len}

def released (b : Buffers) (key : Byte) : Buffers :=
  if key = 0x2A ∨ key = 0x36 then {b with shiftHeld := false}
  else if key = 0x1D then {b with ctrlHeld := false}
  else b

def clearLine (b : Buffers) : Except OutOfRange Buffers := do
  let cleared ← Checked.set b.keyBuffer 0 0
  return {b with keyBuffer := cleared,keyBufferLen := 0}

def ctrlC (b : Buffers) : Except OutOfRange Buffers := do
  let cleared ← clearLine {b with ctrlCPressed := true}
  return {cleared with historyPos := -1}

def char (b : Buffers) (scancode : Byte) : Except OutOfRange Byte :=
  if b.shiftHeld then get scancodeAsciiShift.get scancode.toNat
  else get scancodeAscii.get scancode.toNat

/-- A character in editor mode. -/
def editorKey (e : Editor) (c : Byte) : Except OutOfRange Editor :=
  if c = 8 then
    if e.elen > 0 then do
      let line ← Checked.set e.editorLineBuf (e.elen - 1) 0
      return {e with elen := e.elen - 1,editorLineBuf := line}
    else return e
  else if c = 10 then do
    let line ← Checked.set e.editorLineBuf e.elen 0
    return {e with editorLineBuf := line,editorLineReady := true,elen := 0}
  else if c ≠ 0 ∧ e.elen < 254 then do
    let stored ← Checked.set e.editorLineBuf e.elen c
    let line ← Checked.set stored (e.elen + 1) 0
    return {e with editorLineBuf := line,elen := e.elen + 1}
  else return e

def saveInput (b : Buffers) : Except OutOfRange Buffers := do
  let line ← readString b.keyBuffer
  let copied ← copyBounded b.savedInput line b.keyBufferLen
  let ended ← Checked.set copied b.keyBufferLen 0
  return {b with savedInput := ended,savedLen := b.keyBufferLen,historyPos := 0}

def showEntry (b : Buffers) : Except OutOfRange Buffers := do
  let row ← get b.history b.historyPos
  replaceInput b row

def upArrow (b : Buffers) : Except OutOfRange Buffers :=
  if b.historyCount = 0 then return b
  else if b.historyPos = -1 then do
    let saved ← saveInput b
    showEntry saved
  else if b.historyPos < b.historyCount - 1 then showEntry {b with historyPos := b.historyPos + 1}
  else return b

def downArrow (b : Buffers) : Except OutOfRange Buffers :=
  if b.historyPos < 0 then return b
  else if b.historyPos - 1 < 0 then
    replaceInput {b with historyPos := b.historyPos - 1} b.savedInput
  else showEntry {b with historyPos := b.historyPos - 1}

/-- `shell_execute` is passed over. -/
def enterKey (b : Buffers) : Except OutOfRange Buffers := do
  let ended ← Checked.set b.keyBuffer b.keyBufferLen 0
  let pushed ← historyPush {b with keyBuffer := ended} ended
  clearLine {pushed with historyPos := -1}

def typedKey (b : Buffers) (c : Byte) : Except OutOfRange Buffers :=
  if c = 8 then
    if b.keyBufferLen > 0 then do
      let line ← Checked.set b.keyBuffer (b.keyBufferLen - 1) 0
      return {b with keyBuffer := line,keyBufferLen := b.keyBufferLen - 1}
    else return b
  else if c = 10 then enterKey b
  else if c ≠ 0 ∧ b.keyBufferLen < 256 - 1 then do
    let stored ← Checked.set b.keyBuffer b.keyBufferLen c
    let line ← Checked.set stored (b.keyBufferLen + 1) 0
    return {b with keyBuffer := line,keyBufferLen := b.keyBufferLen + 1}
  else return b

/-- `vga_print` reads the line again. -/
def redraw (b : Buffers) : Except OutOfRange Buffers := do
  let _ ← readString b.keyBuffer
  return b

def keyboardCallback (b : Buffers) (scancode : Byte) : Except OutOfRange Buffers :=
  if scancode &&& 0x80 ≠ 0 then return released b (scancode &&& 0x7F)
  else if scancode = 0x1D then return {b with ctrlHeld := true}
  else if scancode = 0x2A ∨ scancode = 0x36 then return {b with shiftHeld := true}
  else if b.ctrlHeld ∧ scancode = 0x2E then ctrlC b
  else if b.editor.editorMode ∧ scancode.toNat < scancodeAscii.length then do
    let c ← char b scancode
    let editor ← editorKey b.editor c
    return {b with editor := editor}
  else if b.ctrlHeld ∧ scancode = 0x26 then redraw b
  else if scancode = 0x48 then upArrow b
  else if scancode = 0x50 then downArrow b
  else if scancode.toNat < scancodeAscii.length then do
    let c ← char b scancode
    typedKey b c
  else return b

/-- The memory of the kernel before anything runs. -/
def zeroed : Buffers where
  keyBuffer := fun _ => 0
  keyBufferLen := 0
  ctrlCPressed := false
  history := fun _ _ => 0
  historyCount := 0
  historyPos := -1
  savedInput := fun _ => 0
  savedLen := 0
  shiftHeld := false
  ctrlHeld := false
  editor := ⟨0,false,false,fun _ => 0⟩

def keyboardInit (b : Buffers) : Except OutOfRange Buffers := do
  let cleared ← clearLine b
  return {cleared with historyCount := 0,historyPos := -1}

end NimrodOS.KeyBuffers
