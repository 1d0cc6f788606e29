import NimrodOS.Elf

/-! Frames and page tables: `kernel/pmm.c` and `kernel/vmm.c`. A table is reached under its
physical address. The registers that paging is switched on with are left out. -/
namespace NimrodOS.Paging

open ByteMemory

def pageSize : Word := 4096

/-- `TOTAL_FRAMES`, 16 MB in frames of 4 KB. -/
def totalFrames : Nat := 4096

structure Frames where
  frameBitmap : Fin 512 → Byte
  firstFreeFrame : Word

def bitmapSet (frameBitmap : Fin 512 → Byte) (frame : Nat) : Fin 512 → Byte := fun j =>
  if j.val = frame / 8 then frameBitmap j ||| (1 : Byte) <<< (frame % 8) else frameBitmap j

def bitmapClear (frameBitmap : Fin 512 → Byte) (frame : Nat) : Fin 512 → Byte := fun j =>
  if j.val = frame / 8 then frameBitmap j &&& ~~~((1 : Byte) <<< (frame % 8)) else frameBitmap j

def bitmapTest (frameBitmap : Fin 512 → Byte) (frame : Fin totalFrames) : Bool :=
  (frameBitmap ⟨frame / 8,by have := frame.isLt; unfold totalFrames at this; omega⟩ &&&
    (1 : Byte) <<< (frame.val % 8)) != 0

/-- The frames up to `kernelEnd` are reserved. -/
def pmmInit (kernelEnd : Word) : Frames :=
  let reservedFrames := (kernelEnd + pageSize - 1) / pageSize
  { frameBitmap := (List.range reservedFrames.toNat).foldl bitmapSet fun _ => 0
    firstFreeFrame := reservedFrames }

/-- The first frame that is not taken. -/
@[irreducible] def freeFrame (f : Frames) : Option (Fin totalFrames) :=
  Fin.find? fun i => decide (f.firstFreeFrame.toNat ≤ i) && !bitmapTest f.frameBitmap i

/-- Its address, 0 where there is none. -/
def pmmAllocFrame (f : Frames) : Frames × Word :=
  match freeFrame f with
  | some i => ({f with frameBitmap := bitmapSet f.frameBitmap i},BitVec.ofNat 32 (i * 4096))
  | none => (f,0)

def pmmFreeFrame (f : Frames) (frame : Word) : Frames :=
  let index := frame / pageSize
  { frameBitmap := bitmapClear f.frameBitmap index.toNat
    firstFreeFrame := if index < f.firstFreeFrame then index else f.firstFreeFrame }

@[irreducible] def pmmFramesUsed (f : Frames) : Word :=
  (List.finRange totalFrames).foldl
    (fun count i => if bitmapTest f.frameBitmap i then count + 1 else count) 0

def ptePresent : Word := 1
def pteWritable : Word := 2
def pteUser : Word := 4

/-- The tables for the first 16 MB are part of the kernel. -/
structure PagingImage extends Elf.ElfImage where
  identityTables : Word
  aligned : 4096 ∣ identityTables.toNat
  static : identityTables.toNat + 4 * 4096 ≤ kernelEnd.toNat

instance : Inhabited PagingImage := ⟨⟨default,0x110000,by decide,by decide⟩⟩

structure Tables where
  pageDirectory : Fin 1024 → Word
  frames : Frames

/-- Entry `n` of the identity map. -/
def identityEntry (image : PagingImage) (m : Memory) (n : Nat) : Memory :=
  store32 m (image.identityTables + BitVec.ofNat 32 (4 * n))
    (BitVec.ofNat 32 n * pageSize ||| ptePresent ||| pteWritable)

@[irreducible] def identityMap (image : PagingImage) (m : Memory) : Memory :=
  (List.range 4096).foldl (identityEntry image) m

def vmmInit (image : PagingImage) (m : Memory) : Memory × (Fin 1024 → Word) :=
  (identityMap image m,fun t =>
    if t.val < 4 then
      (image.identityTables + BitVec.ofNat 32 (4096 * t)) ||| ptePresent ||| pteWritable
    else 0)

def dirIndex (virtualAddr : Word) : Fin 1024 := Fin.ofNat 1024 (virtualAddr >>> 22).toNat

def tableIndex (virtualAddr : Word) : Word := (virtualAddr >>> 12) &&& 0x3FF

/-- `memset` of a frame. -/
def clearFrame (m : Memory) (frame : Word) : Memory := fillBytes 0 pageSize.toNat m frame

def tableEntry (tableFrame flags : Word) : Word :=
  tableFrame ||| ptePresent ||| pteWritable ||| (flags &&& pteUser)

def setEntry (p : Tables) (frames : Frames) (dir : Fin 1024) (entry : Word) : Tables where
  pageDirectory := fun j => if j = dir then entry else p.pageDirectory j
  frames := frames

/-- The page table of a directory entry, a new one if it has none yet. -/
def pageTable (p : Tables) (m : Memory) (dir : Fin 1024) (flags : Word) : Option (Tables × Memory) :=
  if p.pageDirectory dir &&& ptePresent ≠ 0 then some (p,m)
  else
    let (frames,tableFrame) := pmmAllocFrame p.frames
    if tableFrame = 0 then none
    else some (setEntry p frames dir (tableEntry tableFrame flags),clearFrame m tableFrame)

def vmmMapPage (p : Tables) (m : Memory) (virtualAddr physicalAddr flags : Word) : Tables × Memory :=
  let dir := dirIndex virtualAddr
  match pageTable p m dir flags with
  | none => (p,m)
  | some (p,m) =>
    let table := p.pageDirectory dir &&& 0xFFFFF000
    (p,store32 m (table + 4 * tableIndex virtualAddr)
      ((physicalAddr &&& 0xFFFFF000) ||| (flags ||| ptePresent)))

/-- Where the entry of a page lies in the table that a directory entry points to. -/
def entryAddr (entry virtualAddr : Word) : Word := (entry &&& 0xFFFFF000) + 4 * tableIndex virtualAddr

def vmmUnmapPage (p : Tables) (m : Memory) (virtualAddr : Word) : Memory :=
  let entry := p.pageDirectory (dirIndex virtualAddr)
  if entry &&& ptePresent = 0 then m else store32 m (entryAddr entry virtualAddr) 0

def vmmGetPhysical (p : Tables) (m : Memory) (virtualAddr : Word) : Word :=
  let entry := p.pageDirectory (dirIndex virtualAddr)
  if entry &&& ptePresent = 0 then 0
  else
    let page := load32 m (entryAddr entry virtualAddr)
    if page &&& ptePresent = 0 then 0 else (page &&& 0xFFFFF000) ||| (virtualAddr &&& 0xFFF)

end NimrodOS.Paging
