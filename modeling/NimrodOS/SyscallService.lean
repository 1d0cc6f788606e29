import Mathlib.Data.Nat.Digits.Defs
import NimrodOS.Elf
import NimrodOS.Lib.ByteRanges
import NimrodOS.ShellStore
import NimrodOS.SyscallRead

/-! The dispatcher of `kernel/syscall.c` between the registers and the memory of its caller, and
what the calls on files, keys and the serial port are for. The handler is entered directly: the
gate of `int 0x80` has base 0, so the instruction does not lead here. -/
namespace NimrodOS.SyscallService

open ByteMemory Libc Ramfs Transition
open Shell (text)
open Syscall

/-! Strings in memory. -/

def stringFrom (f : Nat → Byte) : Nat → Nat → List Byte
  | 0, _ => []
  | n + 1, i => if f i = 0 then [] else f i :: stringFrom f n (i + 1)

theorem stringFrom_noNul (f : Nat → Byte) (n i : Nat) : 0 ∉ stringFrom f n i := by
  induction n generalizing i with
  | zero => simp [stringFrom]
  | succ n ih =>
    rw [stringFrom]
    split
    · simp
    · rename_i other
      rw [List.mem_cons,not_or]
      exact ⟨Ne.symm other,ih (i + 1)⟩

/-- A string without a terminator goes once round memory. -/
def stringAt (mem : Memory) (a : Word) : CString := ⟨stringFrom (pointee mem a) (2^32) 0,stringFrom_noNul _ _ _⟩

/-! The log. -/

def serialPrint (s : List Byte) : List Byte := s.flatMap fun c => if c = 10 then [13,10] else [c]

def serialPrintDec (value : Word) : List Byte :=
  if value = 0 then [48] else (Nat.digits 10 value.toNat).reverse.map fun digit => 48 + BitVec.ofNat 8 digit

def klogWarn (msg : List Byte) : List Byte :=
  serialPrint (text "[ WARN ] ") ++ serialPrint msg ++ serialPrint (text "\n")

/-! The dispatcher. -/

def sysFstatHandler (s : System) (name : CString) : Int :=
  if ramfsExists s.files name = 0 then -1 else (ramfsSize s.files name).toInt

/-- The registers of a system call, and memory. -/
structure Invocation where
  num : Word
  arg1 : Word
  arg2 : Word
  arg3 : Word
  mem : Memory

/-- What the program gets back: `eax`, and memory. -/
structure Result where
  eax : Word
  mem : Memory

def Invocation.returns (i : Invocation) (r : Int) : Result := ⟨BitVec.ofInt 32 r,i.mem⟩

/-- `syscall_handler`, but for the calls that are no concern of files, keys and the serial port. -/
def syscallHandler (s : System) (i : Invocation) : Option (Except Fault (System × Result)) :=
  match i.num.toNat with
  | 1 => some ((sysWriteHandler s i.arg1 (pointee i.mem i.arg2) i.arg3).map fun (s,r) => (s,i.returns r))
  | 2 => some ((sysReadHandler s i.arg1 (pointee i.mem i.arg2) i.arg3).map fun (s,r,dst) =>
      (s,⟨BitVec.ofInt 32 r,fun x => dst (x - i.arg2).toNat⟩))
  | 3 => let (s,r) := sysOpenHandler s (stringAt i.mem i.arg1); some (.ok (s,i.returns r))
  | 4 => let (s,r) := sysCloseHandler s i.arg1; some (.ok (s,i.returns r))
  | 10 => some (.ok (s,i.returns (sysFstatHandler s (stringAt i.mem i.arg1))))
  | 11 => let (s,r) := sysCreateHandler s (stringAt i.mem i.arg1); some (.ok (s,i.returns r))
  | 12 => let (s,r) := sysDeleteHandler s (stringAt i.mem i.arg1); some (.ok (s,i.returns r))
  | 0 | 5 | 6 | 7 | 8 | 9 | 13 => none
  | _ =>
    let log := klogWarn (text "Unknown syscall") ++ serialPrintDec i.num ++ serialPrint (text "\n")
    some (.ok ({s with sent := s.sent ++ log},i.returns (-1)))

/-- Where a call reads or writes memory, and how many bytes it may come to there: those of a buffer, or a
string with its terminator. -/
def Invocation.touches (i : Invocation) : Word × Nat :=
  match i.num.toNat with
  | 1 => (i.arg2,if i.arg1 = 1 ∨ i.arg1 = 2 ∨ i.arg1 = 3 then i.arg3.toNat else min i.arg3.toNat 4096)
  | 2 => (i.arg2,min i.arg3.toNat 4096)
  | 3 | 10 | 11 | 12 => (i.arg1,(stringAt i.mem i.arg1).val.length + 1)
  | _ => (0,0)

/-! What the calls are for. -/

/-- What was typed and not read. -/
def waiting (keys : KeyInput) : List Byte := (List.ofFn keys.keyBuffer).take keys.keyBufferLen.toNat

/-- Files by name, descriptors by number, and the devices. -/
structure Service where
  files : FileMap
  opened : Descriptors
  keys : List Byte
  received : Option Byte
  screen : List Byte
  sent : List Byte

/-- Nothing is stored, opened or printed. -/
def Service.boot (keys : KeyInput) : Service := ⟨FileMap.empty,fun _ => none,waiting keys,none,[],[]⟩

inductive Request where
  | write (fd : Word) (bytes : List Byte)
  | read (fd : Word) (room : Nat)
  | open (name : CString)
  | close (fd : Word)
  | fstat (name : CString)
  | create (name : CString)
  | delete (name : CString)
  | unknown (num : Word)

/-- What a program asks for. -/
def Invocation.request (i : Invocation) : Option Request :=
  match i.num.toNat with
  | 1 => some (.write i.arg1 (bytesAt (pointee i.mem i.arg2) i.arg3.toNat))
  | 2 => some (.read i.arg1 i.arg3.toNat)
  | 3 => some (.open (stringAt i.mem i.arg1))
  | 4 => some (.close i.arg1)
  | 10 => some (.fstat (stringAt i.mem i.arg1))
  | 11 => some (.create (stringAt i.mem i.arg1))
  | 12 => some (.delete (stringAt i.mem i.arg1))
  | 0 | 5 | 6 | 7 | 8 | 9 | 13 => none
  | _ => some (.unknown i.num)

/-- What stands behind a descriptor. -/
def Service.source (v : Service) (fd : Word) : Option (List Byte) :=
  if fd = 0 then some v.keys
  else if fd = 3 then some v.received.toList
  else (v.opened fd).bind fun name => (v.files.files.lookup name).map Subtype.val

/-- The answer to a request: a number, the bytes that are handed over, and the service afterwards. A write
puts new contents under the name that was opened, whether or not there still is a file. -/
def Meets (v : Service) : Request → Int → List Byte → Service → Prop
  | .write fd bytes,r,given,v' => given = [] ∧
    if fd = 1 ∨ fd = 2 then r = bytes.length ∧ v' = {v with screen := v.screen ++ bytes}
    else if fd = 3 then r = bytes.length ∧ v' = {v with sent := v.sent ++ bytes}
    else match v.opened fd with
      | none => r = -1 ∧ v' = v
      | some name =>
        if name ∉ v.files.files ∧ v.files.files.keys.card = 64 then r = -1 ∧ v' = v
        else r = min bytes.length 4096 ∧ ∃ files : FileMap,
          files.files = v.files.files.insert name (clip bytes) ∧ v' = {v with files := files}
  | .read fd room,r,given,v' =>
    match v.source fd with
    | none => r = -1 ∧ given = [] ∧ v' = v
    | some bytes => r = (bytes.take room).length ∧ given = bytes.take room ∧
        v' = if fd = 3 ∧ 0 < room then {v with received := none} else v
  | .open name,r,given,v' => given = [] ∧
    if name ∉ v.files.files ∨ v.opened.openSet.ncard = 16 then r = -1 ∧ v' = v
    else ∃ fd : Word, v.opened fd = none ∧ 4 ≤ fd.toNat ∧ fd.toNat < 20 ∧ r = fd.toNat ∧
      v' = {v with opened := Function.update v.opened fd (some name)}
  | .close fd,r,given,v' => given = [] ∧
    if fd < 4 then r = -1 ∧ v' = v else r = 0 ∧ v' = {v with opened := Function.update v.opened fd none}
  | .fstat name,r,given,v' => given = [] ∧ v' = v ∧
    r = (v.files.files.lookup name).elim (-1) fun held => (held.val.length : Int)
  | .create name,r,given,v' => given = [] ∧
    if name ∈ v.files.files then r = -1 ∧ v' = v
    else if v.files.files.keys.card = 64 then r = -2 ∧ v' = v
    else r = 0 ∧ ∃ files : FileMap, files.files = v.files.files.insert name (clip []) ∧
      v' = {v with files := files}
  | .delete name,r,given,v' => given = [] ∧
    if name ∈ v.files.files then r = 0 ∧ ∃ files : FileMap, files.files = v.files.files.erase name ∧
      v' = {v with files := files}
    else r = -1 ∧ v' = v
  | .unknown num,r,given,v' => given = [] ∧ r = -1 ∧
    v' = {v with sent := v.sent ++ (text "[ WARN ] Unknown syscall\r\n" ++ (serialPrintDec num ++ [13,10]))}

/-- The same for the program: the bytes that are handed over are put where it said. -/
def Invocation.answered (i : Invocation) (r : Int) (given : List Byte) : Result :=
  ⟨BitVec.ofInt 32 r,fun x => given.getD (x - i.arg2).toNat (i.mem x)⟩

/-! Both levels with the world around them. -/

/-- Programs call, and keys and bytes arrive. -/
inductive Stimulus where
  | call (i : Invocation)
  | devices (keys : KeyInput) (received : Option Byte)

def Executes (s : System) : Stimulus × Option Result → System → Prop
  | (.call i,some result),s' => syscallHandler s i = some (.ok (s',result))
  | (.devices keys received,none),s' => s' = {s with keys := keys,received := received}
  | _,_ => False

def Serves (v : Service) : Stimulus × Option Result → Service → Prop
  | (.call i,some result),v' => ∃ q r given, i.request = some q ∧ Meets v q r given v' ∧
      given.length ≤ i.touches.2 ∧ result = i.answered r given
  | (.devices keys received,none),v' => v' = {v with keys := waiting keys,received := received}
  | _,_ => False

/-- Names that are created fit in a slot, and a read of the keys asks for a length that is not negative as
an `int`. -/
def Request.Allowed : Request → Prop
  | .create name => Short name
  | .read fd room => fd = 0 → room < 2^31
  | _ => True

/-- The bytes there are mapped, and none of them is the kernel's own: of its image, its heap, its stacks, its
page tables or the screen. -/
structure Usable (own : Word → Prop) (a : Word) (n : Nat) : Prop where
  mapped : Elf.InRam a n
  apart : ∀ k < n, ¬own (a + BitVec.ofNat 32 k)

def Stimulus.Allowed (own : Word → Prop) : Stimulus → Prop
  | .call i => Usable own i.touches.1 i.touches.2 ∧ ∃ q, i.request = some q ∧ q.Allowed
  | .devices _ _ => True

structure Related (s : System) (v : Service) : Prop where
  sound : Sound v.opened s
  files : Refines s.files v.files
  keys : v.keys = waiting s.keys
  received : v.received = s.received
  screen : v.screen = s.screen
  sent : v.sent = s.sent

variable {s s' : System} {v : Service} {i : Invocation} {q : Request} {fd len : Word} {name : CString}
  {d : Descriptors} {r : Int} {dst dst' : Nat → Byte}

theorem takes (sound : Sound d s) (small : fd = 0 → len.toNat < 2^31) : TakesAll s fd dst len := by
  by_cases keyboard : fd = 0
  · subst keyboard
    have bound := small rfl
    apply takes_keys
    rw [BitVec.toInt_eq_toNat_cond,if_pos (by omega)]
    omega
  · by_cases serial : fd = 3
    · exact serial ▸ takes_serial
    · exact takes_file sound keyboard serial

theorem Related.source (related : Related s v) : v.source fd = available s fd := by
  simp only [Service.source,available,related.keys,related.received,waiting]
  split_ifs
  · rfl
  · rfl
  · rw [← related.sound.resolves]
    cases fdToName s.table fd with
    | none => rfl
    | some name =>
      cases at' : findFile s.files name with
      | none => simp [related.files.missing at',at']
      | some slot => simp [related.files.found at',at']

theorem placed (mem : Memory) (a : Word) (given : List Byte) :
    (fun x => overlay (pointee mem a) given (x - a).toNat) = fun x => given.getD (x - a).toNat (mem x) := by
  funext x
  rw [overlay,pointee,offset_distance]

end NimrodOS.SyscallService
