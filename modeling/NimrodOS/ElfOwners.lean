import NimrodOS.ElfRanges
import NimrodOS.ElfRuns
import NimrodOS.PagingFrames
import NimrodOS.TaskKill

/-! Who owns the memory behind the heap. The loader writes where a file says, while page
tables get the frames from the end of the heap on and other programs stay where they were
loaded. -/
namespace NimrodOS.Elf

open ByteMemory FirstFit Memory Ramfs Transition Logged Paging

/-- The kernel with its page tables. Nothing follows a load that does not return. -/
structure Machine where
  kernel : Kernel
  tables : Tables
  halted : Bool

inductive Action where
  | call (c : Call)
  | mapPage (virtualAddr physicalAddr flags : Word)

def Kernel.setMem (k : Kernel) (m : Memory) : Kernel := {k with heap := {k.heap with mem := m}}

/-- Pages of RAM are only mapped to themselves, as `vmm_map_mmio` does. -/
inductive Machine.Step (image : PagingImage) (sym : ElfSymbols) : Machine → Action → Machine → Prop where
  | call {k k' : Kernel} {t : Tables} {c : Call} (moved : Elf.Step image.toElfImage sym k c k') :
      Step image sym ⟨k,t,false⟩ (.call c) ⟨k',t,false⟩
  | halt {k : Kernel} {t : Tables} {name : CString} {e : Halt}
      (inside : SegmentsInside image.toKernelImage k name)
      (result : (elfLoadAndRun image.toElfImage sym k name).result = .error e) :
      Step image sym ⟨k,t,false⟩ (.call (.load name)) ⟨k,t,true⟩
  | mapPage {k : Kernel} {t t' : Tables} {m : Memory} {virtualAddr physicalAddr flags : Word}
      (identity : virtualAddr.toNat < ramEnd → physicalAddr &&& 0xFFFFF000 = virtualAddr &&& 0xFFFFF000)
      (result : vmmMapPage t k.heap.mem virtualAddr physicalAddr flags = (t',m)) :
      Step image sym ⟨k,t,false⟩ (.mapPage virtualAddr physicalAddr flags) ⟨k.setMem m,t',false⟩

/-- `pmm_init` and `vmm_init`, on a kernel whose heap is there. -/
def bootMachine (image : PagingImage) (k : Kernel) : Machine :=
  let mapped := vmmInit image k.heap.mem
  ⟨k.setMem mapped.1,⟨mapped.2,pmmInit (heapAddr image.toKernelImage + heapSize)⟩,false⟩

/-- A load whose task has not ended yet. -/
structure LiveLoad (image : PagingImage) (sym : ElfSymbols) (past : List (Machine × Action)) (k : Kernel)
    (made : Kernel) (name : CString) : Prop where
  within : ∃ machine, machine.kernel = made ∧ (machine,.call (.load name)) ∈ past
  live : ∃ (i : Fin 16) (k' : Kernel), (elfLoadAndRun image.toElfImage sym made name).result =
    .ok (k',(i.val : Int)) ∧ Tasks.Live (k.sched.status i)

/-- A byte of a frame that is a page table, or of the image that such a load has written. -/
def Owned (image : PagingImage) (sym : ElfSymbols) (past : List (Machine × Action)) (s : Machine)
    (x : Word) : Prop :=
  TableByte s.tables x ∨ ∃ made name, LiveLoad image sym past s.kernel made name ∧
    ∃ access ∈ (elfLoadAndRun image.toElfImage sym made name).log, access.Touches x

/-- A load neither writes to bytes that are owned nor changes them. -/
structure Spares (image : PagingImage) (sym : ElfSymbols) (past : List (Machine × Action)) (s : Machine)
    (name : CString) : Prop where
  untouched : (elfLoadAndRun image.toElfImage sym s.kernel name).All fun access =>
    ∀ x, access.Touches x → ¬Owned image sym past s x
  unchanged : ∀ k r, (elfLoadAndRun image.toElfImage sym s.kernel name).result = .ok (k,r) →
    ∀ x, Owned image sym past s x → k.heap.mem x = s.kernel.heap.mem x

/-- Its segments lie behind all page tables made so far, and apart from those of live tasks. -/
structure Apart (image : PagingImage) (sym : ElfSymbols) (past : List (Machine × Action)) (s : Machine)
    (name : CString) : Prop where
  tables : ∀ a n, Segment image.toKernelImage s.kernel name a n → 0 < n →
    heapEnd image.toKernelImage + 4096 * tableCount s.tables ≤ a.toNat
  images : ∀ made other, LiveLoad image sym past s.kernel made other → ∀ a n b l,
    Segment image.toKernelImage s.kernel name a n → Segment image.toKernelImage made other b l →
    0 < n → 0 < l → a.toNat + n ≤ b.toNat ∨ b.toNat + l ≤ a.toNat

section Machines

variable {image : PagingImage} {sym : ElfSymbols} {start : Kernel} {s s' : Machine} {action : Action}
  {past : List (Machine × Action)} {k made : Kernel} {name other : CString} {x a b : Word} {n l : Nat}

theorem setMem_sound (sound : Sound image.toKernelImage k) {m : Memory}
    (same : Agree k.heap.mem m (heapAddr image.toKernelImage).toNat (heapEnd image.toKernelImage)) :
    Sound image.toKernelImage (k.setMem m) := by
  obtain ⟨arena,held⟩ := sound.heap
  exact ⟨⟨arena,held.frame same⟩,sound.files,sound.current⟩

/-- The kernel is sound and all page tables have frames of their own. -/
def Machine.Sound (image : PagingImage) (s : Machine) : Prop :=
  Elf.Sound image.toKernelImage s.kernel ∧ ∃ owners, Mapped image s.tables owners

/-- The tables of the kernel lie in front of the heap. -/
theorem identityMap_agree (image : PagingImage) (m : Memory) : Agree m (identityMap image m)
    (heapAddr image.toKernelImage).toNat (heapEnd image.toKernelImage) :=
  (identityMap_outside image m).agree (.inr (Nat.le_trans image.static (kernelEnd_le image.toKernelImage)))

theorem bootMachine_mapped (image : PagingImage) (start : Kernel) :
    Mapped image (bootMachine image start).tables [] := by
  have high := (heapAddr_bounds image.toKernelImage).2
  apply vmmInit_mapped
  rw [BitVec.toNat_add,Nat.mod_eq_of_lt high,heapEnd]

theorem bootMachine_sound (sound : Elf.Sound image.toKernelImage start) :
    (bootMachine image start).Sound image :=
  ⟨setMem_sound sound (identityMap_agree image start.heap.mem),[],bootMachine_mapped image start⟩

theorem Machine.step_sound (sound : s.Sound image) (moved : Machine.Step image sym s action s') :
    s'.Sound image := by
  obtain ⟨kernel,owners,mapped⟩ := sound
  cases moved with
  | call moved => exact ⟨Elf.step_sound kernel moved,owners,mapped⟩
  | halt => exact ⟨kernel,owners,mapped⟩
  | @mapPage k t _ _ virtualAddr physicalAddr flags _ result =>
    obtain ⟨owners',mapped',-,same⟩ := vmmMapPage_mapped mapped k.heap.mem virtualAddr physicalAddr flags
    rw [result] at mapped' same
    exact ⟨setMem_sound kernel same,owners',mapped'⟩

theorem Machine.run_sound (sound : Elf.Sound image.toKernelImage start)
    (run : Run (Machine.Step image sym) (bootMachine image start) past s) : s.Sound image :=
  run.invariant (bootMachine_sound sound) fun _ _ _ before moved => Machine.step_sound before moved

/-- What is known of the loads of a run. -/
theorem LiveLoad.sound (live : LiveLoad image sym past k made name)
    (run : Run (Machine.Step image sym) (bootMachine image start) past s)
    (sound : Elf.Sound image.toKernelImage start) :
    Elf.Sound image.toKernelImage made ∧ SegmentsInside image.toKernelImage made name := by
  obtain ⟨machine,rfl,member⟩ := live.within
  obtain ⟨i,k',result,-⟩ := live.live
  obtain ⟨before,after,rfl⟩ := List.append_of_mem member
  have here : Elf.Sound image.toKernelImage machine.kernel := (Machine.run_sound sound run.split.1).1
  exact ⟨here,segmentsInside_of_ok here result⟩

end Machines

section Runs

variable {files : Files} {n : Nat} {k : Kernel} {m : Memory} {name : CString}

theorem Waiting.setMem (waiting : Waiting files n k) (same : Agree k.heap.mem m
    (heapAddr (default : ElfImage).toKernelImage).toNat (heapEnd (default : ElfImage).toKernelImage)) :
    Waiting files n (k.setMem m) where
  held := waiting.held.frame same
  files := waiting.files
  next := waiting.next
  current := waiting.current

theorem Waiting.sound (waiting : Waiting files n k) (fit : SizesFit files)
    (current : k.sched.status 0 ≠ .unused) : Elf.Sound (default : ElfImage).toKernelImage k where
  heap := ⟨freshArena,waiting.held⟩
  files := waiting.files ▸ fit
  current := waiting.current ▸ current

theorem Machine.loads {sym : ElfSymbols} {s : Machine} {k' : Kernel} {r : Int} {image : PagingImage}
    (running : s.halted = false)
    (result : (elfLoadAndRun image.toElfImage sym s.kernel name).result = .ok (k',r)) :
    Machine.Step image sym s (.call (.load name)) ⟨k',s.tables,false⟩ := by
  obtain ⟨k,t,halted⟩ := s
  obtain rfl := running
  exact .call (.load result)

end Runs

/-- A file with one segment, its byte at `offset`, for 8 MB. -/
def oneByte (offset : Byte) : List Byte :=
  [0x7F,0x45,0x4C,0x46,0x01,0x01,0x01,0x00,0x00,0x00,0x00,0x00,0x00,0x00,0x00,0x00,
   0x02,0x00,0x03,0x00,0x01,0x00,0x00,0x00,0x00,0x00,0x80,0x00,0x34,0x00,0x00,0x00,
   0x00,0x00,0x00,0x00,0x00,0x00,0x00,0x00,0x34,0x00,0x20,0x00,0x01,0x00,0x00,0x00,
   0x00,0x00,0x00,0x00,
   -- program header
   0x01,0x00,0x00,0x00,offset,0x00,0x00,0x00,0x00,0x00,0x80,0x00,0x00,0x00,0x80,0x00,
   0x01,0x00,0x00,0x00,0x01,0x00,0x00,0x00,0x05,0x00,0x00,0x00,0x00,0x10,0x00,0x00]

section Bytes

variable {files : Files} {n : Nat} {k k' : Kernel} {name : CString} {offset : Byte} {r : Int}
  {image : ElfImage} {sym : ElfSymbols}

end Bytes

end NimrodOS.Elf
