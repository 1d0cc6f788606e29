import NimrodOS.Lib.ByteRanges
import NimrodOS.Lib.Logged
import NimrodOS.Memory
import NimrodOS.Ramfs
import NimrodOS.Task

/-! The loader of programs: `kernel/elf.c` with the layouts of `elf.h`, over the heap, the
file system, the task table and the bytes of memory. `vmm_init` maps the 16 MB of RAM onto
themselves and nothing else; beyond them every access is a page fault, which does not
return. A write below the program area would go to the kernel and its heap, and a call
that makes one has no result here. The lines that are logged are left out. -/
namespace NimrodOS.Elf

open ByteMemory Wire Logged

abbrev CString := Libc.CString

/-! Files. -/

/-- `ELF_MAGIC`, the characters "\x7FELF". -/
def elfMagic : Word := 0x464C457F
def etExec : Half := 2
def em386 : Half := 3
def ptLoad : Word := 1

/-- `sizeof(elf32_header_t)`. -/
def headerSize : Word := 52

/-- `sizeof(elf32_phdr_t)`. -/
def phdrSize : Nat := 32

/-! The fields of the `elf32_header_t` at the front of some bytes. -/

def identMagic (f : Nat → Byte) : Word := load32 f 0
def identClass (f : Nat → Byte) : Byte := f 4
def identData (f : Nat → Byte) : Byte := f 5
def eType (f : Nat → Byte) : Half := load16 f 16
def eMachine (f : Nat → Byte) : Half := load16 f 18
def eEntry (f : Nat → Byte) : Word := load32 f 24
def ePhoff (f : Nat → Byte) : Word := load32 f 28
def ePhentsize (f : Nat → Byte) : Half := load16 f 42
def ePhnum (f : Nat → Byte) : Half := load16 f 44

def elfValidate (data : Nat → Byte) (size : Word) : Int :=
  if size < headerSize then -1
  else if identMagic data ≠ elfMagic then -1
  else if identClass data ≠ 1 then -2
  else if identData data ≠ 1 then -3
  else if eType data ≠ etExec then -4
  else if eMachine data ≠ em386 then -5
  else 0

/-! Memory. -/

/-- Where program memory begins, and where RAM ends. -/
def programStart : Nat := 0x600000
def ramEnd : Nat := 0x1000000

inductive Halt where
  | pageFault
  | strayWrite
  | endlessList
  | fileFault (fault : Libc.Fault)
  deriving DecidableEq, Repr

/-- What a load does to memory: it looks at a program header, given by where that stands in
the file, or writes a range of memory with bytes of the file or with zeros. -/
inductive Access where
  | header (offset : Nat)
  | copy (vaddr : Word) (offset size : Nat)
  | fill (start : Word) (size : Nat)
  deriving DecidableEq, Repr

def InRam (a : Word) (n : Nat) : Prop := n = 0 ∨ a.toNat + n ≤ ramEnd

def InProgram (a : Word) (n : Nat) : Prop := n = 0 ∨ (programStart ≤ a.toNat ∧ a.toNat + n ≤ ramEnd)

instance (a : Word) (n : Nat) : Decidable (InRam a n) := by
  unfold InRam
  infer_instance

instance (a : Word) (n : Nat) : Decidable (InProgram a n) := by
  unfold InProgram
  infer_instance

/-- A write that begins in program memory only leaves it at the end of RAM. -/
def checkWrite (a : Word) (n : Nat) : Except Halt Unit :=
  if InProgram a n then .ok ()
  else if programStart ≤ a.toNat then .error .pageFault
  else .error .strayWrite

def memcpy (m : Memory) (dest src : Word) (size : Nat) : Except Halt Memory := do
  checkWrite dest size
  if InRam src size then .ok (copyBytes size m dest src) else .error .pageFault

def memset (m : Memory) (dest : Word) (value : Byte) (size : Nat) : Except Halt Memory := do
  checkWrite dest size
  return fillBytes value size m dest

/-! Segments. -/

/-- The field of a program header that is `k` bytes into it. -/
def phdrField (m : Memory) (phdr : Word) (k : Nat) : Except Halt Word :=
  if phdr.toNat + k + 4 ≤ ramEnd then .ok (load32 (pointee m phdr) k) else .error .pageFault

/-- Where program header `i` stands in the file. -/
def phdrOffset (f : Nat → Byte) (i : Nat) : Nat := (ePhoff f).toNat + i * (ePhentsize f).toNat

/-- Where the loader finds it, in 32-bit arithmetic. -/
def phdrAddr (m : Memory) (buf : Word) (i : Nat) : Word :=
  buf + ePhoff (pointee m buf) + BitVec.ofNat 32 i * (ePhentsize (pointee m buf)).zeroExtend 32

inductive Progress where
  | loaded (m : Memory)
  /-- The segment overlaps kernel or heap space. -/
  | overlaps (m : Memory)

def copySegment (m : Memory) (buf phdr : Word) : Logged Access Halt Memory := do
  let vaddr ← lift (phdrField m phdr 8)
  let offset ← lift (phdrField m phdr 4)
  let filesz ← lift (phdrField m phdr 16)
  note (.copy vaddr offset.toNat filesz.toNat)
  lift (memcpy m vaddr (buf + offset) filesz.toNat)

/-- The header is read anew after the copy. -/
def zeroFill (m : Memory) (phdr : Word) : Logged Access Halt Memory := do
  let memsz ← lift (phdrField m phdr 20)
  let filesz ← lift (phdrField m phdr 16)
  if memsz > filesz then do
    let vaddr ← lift (phdrField m phdr 8)
    note (.fill (vaddr + filesz) (memsz - filesz).toNat)
    lift (memset m (vaddr + filesz) 0 (memsz - filesz).toNat)
  else pure m

def placeSegment (m : Memory) (buf phdr : Word) : Logged Access Halt Progress := do
  let m ← copySegment m buf phdr
  let m ← zeroFill m phdr
  pure (.loaded m)

/-- One round of the loop over the program headers. -/
def loadSegment (m : Memory) (buf : Word) (i : Nat) : Logged Access Halt Progress := do
  let phdr := phdrAddr m buf i
  note (.header (phdrOffset (pointee m buf) i))
  let type ← lift (phdrField m phdr 0)
  if type ≠ ptLoad then pure (.loaded m)
  else do
    let vaddr ← lift (phdrField m phdr 8)
    if vaddr.toNat < programStart then pure (.overlaps m) else placeSegment m buf phdr

/-- `e_phnum` has 16 bits, so the loop ends after at most 65535 rounds. -/
def segmentsLoop (buf : Word) : Nat → Nat → Memory → Logged Access Halt Progress
  | 0, _, m => pure (.loaded m)
  | rounds + 1, i, m =>
    if i < (ePhnum (pointee m buf)).toNat then do
      match ← loadSegment m buf i with
      | .overlaps m => pure (.overlaps m)
      | .loaded m => segmentsLoop buf rounds (i + 1) m
    else pure (.loaded m)

/-! The call. -/

/-- The linked kernel; its static data leaves the 2 MB below program memory to spare. -/
structure ElfImage extends Memory.KernelImage where
  below : (Memory.heapAddr toKernelImage).toNat + Memory.heapSize.toNat ≤ programStart

structure ElfSymbols extends Tasks.Symbols where
  elfRunner : Fin 8 → Word
  runnersApart : Function.Injective elfRunner

instance : Inhabited ElfImage := ⟨⟨default,by decide⟩⟩

instance : Inhabited ElfSymbols where
  default :=
    { toSymbols := default
      elfRunner := fun i => BitVec.ofNat 32 i
      runnersApart := by
        unfold Function.Injective
        decide }

structure Kernel where
  heap : Memory.Heap
  files : Ramfs.Files
  sched : Tasks.State
  elfEntries : Fin 8 → Word
  nextElfSlot : Word

inductive Opened where
  | failed (heap : Memory.Heap) (r : Int)
  /-- The file was copied to `buf`. -/
  | ready (heap : Memory.Heap) (buf : Word)

def release (heap : Memory.Heap) (buf : Word) : Except Halt Memory.Heap :=
  match Memory.kfree heap buf with
  | none => .error .endlessList
  | some heap => .ok heap

/-- `ramfs_read` into the buffer. -/
def readInto (files : Ramfs.Files) (filename : CString) (heap : Memory.Heap) (buf size : Word) :
    Except Halt (Memory.Heap × Int) :=
  match Ramfs.ramfsRead files filename (pointee heap.mem buf) size with
  | .error fault => .error (.fileFault fault)
  | .ok (read,bytes) => .ok ({heap with mem := fun x => bytes (x - buf).toNat},read)

/-- What `elf_load_and_run` does before it loads segments. -/
def openFile (image : Memory.KernelImage) (k : Kernel) (filename : CString) : Except Halt Opened :=
  if Ramfs.ramfsExists k.files filename = 0 then .ok (.failed k.heap (-1))
  else
    let fsize := Ramfs.ramfsSize k.files filename
    if fsize < headerSize then .ok (.failed k.heap (-2))
    else
      match Memory.kmalloc image k.heap fsize with
      | none => .error .endlessList
      | some (heap,buf) =>
        if buf = 0 then .ok (.failed heap (-3))
        else do
          let (heap,read) ← readInto k.files filename heap buf fsize
          if read < headerSize.toInt then (release heap buf).map (.failed · (-4))
          else if elfValidate (pointee heap.mem buf) fsize ≠ 0 then
            (release heap buf).map (.failed · (-5))
          else .ok (.ready heap buf)

/-- `next_elf_slot % MAX_ELF_SLOTS`; a negative remainder is no slot. -/
def entrySlot (nextElfSlot : Word) : Option (Fin 8) :=
  let r := nextElfSlot.toInt.tmod 8
  if inside : 0 ≤ r ∧ r < 8 then some ⟨r.toNat,by omega⟩ else none

/-- What it does after it has loaded them. -/
def startTask (sym : ElfSymbols) (k : Kernel) (filename : CString) (buf : Word) :
    Except Halt (Kernel × Int) :=
  match entrySlot k.nextElfSlot with
  | none => .error .strayWrite
  | some slot =>
    let entry := eEntry (pointee k.heap.mem buf)
    let elfEntries : Fin 8 → Word := fun j => if j = slot then entry else k.elfEntries j
    let (sched,tid) := Tasks.taskCreate sym.toSymbols k.sched filename (sym.elfRunner slot)
    (release k.heap buf).map fun heap =>
      (⟨heap,k.files,sched,elfEntries,k.nextElfSlot + 1⟩,if tid < 0 then -7 else tid)

def elfLoadAndRun (image : ElfImage) (sym : ElfSymbols) (k : Kernel) (filename : CString) :
    Logged Access Halt (Kernel × Int) := do
  match ← lift (openFile image.toKernelImage k filename) with
  | .failed heap r => pure ({k with heap := heap},r)
  | .ready heap buf =>
    match ← segmentsLoop buf 65535 0 heap.mem with
    | .overlaps m =>
      let heap ← lift (release {heap with mem := m} buf)
      pure ({k with heap := heap},-6)
    | .loaded m => lift (startTask sym {k with heap := {heap with mem := m}} filename buf)

end NimrodOS.Elf
