import NimrodOS.Ramfs
import NimrodOS.RamfsMap

/-! The system calls of `kernel/syscall.c` that open, read and write. -/
namespace NimrodOS.Syscall

open Libc Ramfs

structure OpenTable where
  openFiles : Fin 16 → Fin 32 → Byte
  openUsed : Fin 16 → Byte

/-- `key_buffer` with `key_buffer_len`, which the keyboard handler keeps inside of it. -/
structure KeyInput where
  keyBuffer : Fin 256 → Byte
  keyBufferLen : Int
  bounds : 0 ≤ keyBufferLen ∧ keyBufferLen < 256

structure System where
  table : OpenTable
  files : Files
  keys : KeyInput
  /-- The byte that waits in the receiver of COM1. -/
  received : Option Byte
  /-- What went to `vga_putchar`. -/
  screen : List Byte
  /-- What went to `serial_putchar`. -/
  sent : List Byte

def OpenTable.set (t : OpenTable) (i : Fin 16) (name : Fin 32 → Byte) (used : Byte) : OpenTable :=
  ⟨fun j => if j = i then name else t.openFiles j,fun j => if j = i then used else t.openUsed j⟩

@[irreducible] def firstUnused (t : OpenTable) : Option (Fin 16) := Fin.find? fun i => t.openUsed i = 0

def allocFd (t : OpenTable) (name : CString) : OpenTable × Int :=
  match firstUnused t with
  | none => (t,-1)
  | some i =>
    let copied := strncpy (t.openFiles i) name 31
    let ended : Fin 32 → Byte := fun j => if j = 31 then 0 else copied j
    (t.set i ended 1,i.val + 4)

/-- The index of a descriptor, when it is one of the table. -/
def slotOf (fd : Word) : Option (Fin 16) :=
  let idx := (fd - 4).toInt
  if inside : 0 ≤ idx ∧ idx < 16 then some ⟨idx.toNat,by omega⟩ else none

def freeFd (t : OpenTable) (fd : Word) : OpenTable :=
  match slotOf fd with
  | none => t
  | some i => t.set i (fun j => if j = 0 then 0 else t.openFiles i j) 0

/-- The name in a slot, when it is in use. -/
def slotName (t : OpenTable) (i : Fin 16) : Option CString :=
  if t.openUsed i ≠ 0 then some ⟨contents (t.openFiles i),contents_noNul _⟩ else none

def fdToName (t : OpenTable) (fd : Word) : Option CString :=
  match slotOf fd with
  | none => none
  | some i => slotName t i

def sysWriteHandler (s : System) (fd : Word) (str : Nat → Byte) (len : Word) :
    Except Fault (System × Int) :=
  if fd = 1 ∨ fd = 2 then .ok ({s with screen := s.screen ++ bytesAt str len.toNat},len.toInt)
  else if fd = 3 then .ok ({s with sent := s.sent ++ bytesAt str len.toNat},len.toInt)
  else
    match fdToName s.table fd with
    | none => .ok (s,-1)
    | some name =>
      (ramfsWrite s.files name str len).map fun (files,r) => ({s with files := files},r)

/-- The branch for `FD_STDIN`. The length is compared as an `int` and copied as a
`uint32_t`. -/
def readKeys (keys : KeyInput) (dst : Nat → Byte) (len : Word) :
    Except Fault (Int × (Nat → Byte)) := do
  let avail := if keys.keyBufferLen < len.toInt then keys.keyBufferLen else len.toInt
  let dst ← memcpyOut dst keys.keyBuffer (BitVec.ofInt 32 avail).toNat
  return (avail,dst)

/-- The branch for `FD_SERIAL`, with what then waits in the receiver. -/
def readSerial (received : Option Byte) (dst : Nat → Byte) (len : Word) :
    Option Byte × Int × (Nat → Byte) :=
  match received with
  | some b => if 0 < len then (none,1,fun i => if i = 0 then b else dst i) else (received,0,dst)
  | none => (received,0,dst)

/-- The result and the caller's buffer. -/
def sysReadHandler (s : System) (fd : Word) (dst : Nat → Byte) (len : Word) :
    Except Fault (System × Int × (Nat → Byte)) :=
  if fd = 0 then (readKeys s.keys dst len).map fun (r,dst) => (s,r,dst)
  else if fd = 3 then
    let (received,r,dst) := readSerial s.received dst len
    .ok ({s with received := received},r,dst)
  else
    match fdToName s.table fd with
    | none => .ok (s,-1,dst)
    | some name => (ramfsRead s.files name dst len).map fun (r,dst) => (s,r,dst)

def sysOpenHandler (s : System) (name : CString) : System × Int :=
  if ramfsExists s.files name = 0 then (s,-1)
  else
    let (table,fd) := allocFd s.table name
    ({s with table := table},fd)

def sysCloseHandler (s : System) (fd : Word) : System × Int :=
  if fd < 4 then (s,-1) else ({s with table := freeFd s.table fd},0)

def sysCreateHandler (s : System) (name : CString) : System × Int :=
  let (files,r) := ramfsCreate s.files name
  ({s with files := files},r)

def sysDeleteHandler (s : System) (name : CString) : System × Int :=
  let (files,r) := ramfsDelete s.files name
  ({s with files := files},r)

/-- The part of `syscall_init` that clears the table. -/
def syscallInit (t : OpenTable) : OpenTable := {t with openUsed := fun _ => 0}

/-! Calls and what they return. -/

inductive Call where
  | open (name : CString)
  | close (fd : Word)
  | create (name : CString)
  | delete (name : CString)
  | read (fd : Word) (dst : Nat → Byte) (len : Word)
  | write (fd : Word) (str : Nat → Byte) (len : Word)

/-- The result, which goes to `eax`, and the buffer of a read. -/
inductive Reply where
  | code (r : Int)
  | buffer (r : Int) (dst : Nat → Byte)

/-- The cases of `syscall_handler` for these calls. -/
def syscallHandler (s : System) : Call → Except Fault (System × Reply)
  | .open name => let (s,r) := sysOpenHandler s name; .ok (s,.code r)
  | .close fd => let (s,r) := sysCloseHandler s fd; .ok (s,.code r)
  | .create name => let (s,r) := sysCreateHandler s name; .ok (s,.code r)
  | .delete name => let (s,r) := sysDeleteHandler s name; .ok (s,.code r)
  | .read fd dst len => (sysReadHandler s fd dst len).map fun (s,r,dst) => (s,.buffer r dst)
  | .write fd str len => (sysWriteHandler s fd str len).map fun (s,r) => (s,.code r)

end NimrodOS.Syscall
