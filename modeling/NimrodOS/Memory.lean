import NimrodOS.Lib.ByteMemory

/-! `kernel/memory.c`: the block-based kernel heap, over the bytes of memory. Headers
are read and written field by field at their addresses; a `while` loop that has not
come to its end after `maxBlocks` rounds has no result here. -/
namespace NimrodOS.Memory

open ByteMemory

/-- `HEAP_SIZE`, 4 MB. -/
def heapSize : Word := 0x400000

/-- `sizeof(block_header_t)` on i686. -/
def headerSize : Word := 12

/-- The linked kernel. `linker.ld` places it from 1 MB on, and the heap behind it has
to end below the top of the 32-bit address space. -/
structure KernelImage where
  kernelEnd : Word
  base : 0x100000 ≤ kernelEnd.toNat
  room : kernelEnd.toNat + 0xFFF + heapSize.toNat < 2^32

instance : Inhabited KernelImage := ⟨⟨0x140000,by decide,by decide⟩⟩

/-! The fields of the `block_header_t` at an address. -/

def size (m : Memory) (a : Word) : Word := load32 m a
def isFree (m : Memory) (a : Word) : Byte := m (a + 4)
def next (m : Memory) (a : Word) : Word := load32 m (a + 8)
def setSize (m : Memory) (a v : Word) : Memory := store32 m a v
def setIsFree (m : Memory) (a : Word) (v : Byte) : Memory := store8 m (a + 4) v
def setNext (m : Memory) (a v : Word) : Memory := store32 m (a + 8) v

structure Heap where
  mem : Memory
  heapStart : Word
  initialized : Bool

/-- The first 4 KB boundary at or behind the kernel. -/
def heapAddr (image : KernelImage) : Word := (image.kernelEnd + 0xFFF) &&& ~~~0xFFF

def memoryInit (image : KernelImage) (h : Heap) : Heap :=
  let a := heapAddr image
  let m := setSize h.mem a (heapSize - headerSize)
  let m := setIsFree m a 1
  let m := setNext m a 0
  ⟨m,a,true⟩

/-- Blocks are at least a header long, so no heap has more of them. -/
def maxBlocks : Nat := heapSize.toNat / headerSize.toNat + 1

/-- Align to 4 bytes, in 32-bit arithmetic. -/
def align4 (size : Word) : Word := (size + 3) &&& ~~~3

/-- Split a block when the rest has room for a header and more than 16 bytes. -/
def split (m : Memory) (current n : Word) : Memory :=
  if size m current > n + headerSize + 16 then
    let newBlock := current + headerSize + n
    let m := setSize m newBlock (size m current - n - headerSize)
    let m := setIsFree m newBlock 1
    let m := setNext m newBlock (next m current)
    let m := setNext m current newBlock
    setSize m current n
  else m

def kmallocLoop (n : Word) : Nat → Memory → Word → Option (Memory × Word)
  | 0, _, _ => none
  | fuel + 1, m, current =>
    if current = 0 then some (m,0)
    else if isFree m current ≠ 0 ∧ size m current ≥ n then
      some (setIsFree (split m current n) current 0,current + headerSize)
    else kmallocLoop n fuel m (next m current)

/-- The new heap and the returned pointer, 0 where nothing fits. -/
def kmalloc (image : KernelImage) (h : Heap) (size : Word) : Option (Heap × Word) :=
  let h := if h.initialized then h else memoryInit image h
  (kmallocLoop (align4 size) maxBlocks h.mem h.heapStart).map fun r => ({h with mem := r.1},r.2)

/-- Coalesce adjacent free blocks. A merge stays at the same block. -/
def coalesceLoop : Nat → Memory → Word → Option Memory
  | 0, _, _ => none
  | fuel + 1, m, current =>
    if current = 0 then some m
    else if isFree m current ≠ 0 ∧ next m current ≠ 0 ∧ isFree m (next m current) ≠ 0 then
      let m := setSize m current (size m current + (headerSize + size m (next m current)))
      let m := setNext m current (next m (next m current))
      coalesceLoop fuel m current
    else coalesceLoop fuel m (next m current)

def kfree (h : Heap) (ptr : Word) : Option Heap :=
  if ptr = 0 then some h
  else
    let m := setIsFree h.mem (ptr - headerSize) 1
    (coalesceLoop maxBlocks m h.heapStart).map fun m => {h with mem := m}

def sumLoop (counts : Byte → Bool) : Nat → Memory → Word → Word → Option Word
  | 0, _, _, _ => none
  | fuel + 1, m, current, sum =>
    if current = 0 then some sum
    else
      let sum := if counts (isFree m current) then sum + size m current else sum
      sumLoop counts fuel m (next m current) sum

def memoryUsed (h : Heap) : Option Word := sumLoop (fun f => f = 0) maxBlocks h.mem h.heapStart 0

def memoryFree (h : Heap) : Option Word := sumLoop (fun f => f ≠ 0) maxBlocks h.mem h.heapStart 0

/-- The system call hands the program's size on as it is. -/
def sysMallocHandler (image : KernelImage) (h : Heap) (size : Word) : Option (Heap × Word) :=
  kmalloc image h size

end NimrodOS.Memory
