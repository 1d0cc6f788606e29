import NimrodOS.ElfFiles
import NimrodOS.RamfsRuns
import NimrodOS.TaskInvariant

/-! The programs that come with the kernel, `kernel/program.c`, and the kernel as it is
before the shell starts. -/
namespace NimrodOS.Elf

open Memory Ramfs Libc

def progHello : List Byte :=
  [0x7F,0x45,0x4C,0x46,0x01,0x01,0x01,0x00,0x00,0x00,0x00,0x00,0x00,0x00,0x00,0x00,
   0x02,0x00,0x03,0x00,0x01,0x00,0x00,0x00,0x54,0x00,0x80,0x00,0x34,0x00,0x00,0x00,
   0x00,0x00,0x00,0x00,0x00,0x00,0x00,0x00,0x34,0x00,0x20,0x00,0x01,0x00,0x00,0x00,
   0x00,0x00,0x00,0x00,
   -- program header
   0x01,0x00,0x00,0x00,0x00,0x00,0x00,0x00,0x00,0x00,0x80,0x00,0x00,0x00,0x80,0x00,
   0x90,0x00,0x00,0x00,0x90,0x00,0x00,0x00,0x07,0x00,0x00,0x00,0x00,0x10,0x00,0x00,
   -- code
   0xB8,0x01,0x00,0x00,0x00,0xBB,0x01,0x00,0x00,0x00,0xB9,0x78,0x00,0x80,0x00,
   0xBA,0x10,0x00,0x00,0x00,0xCD,0x80,0xB8,0x00,0x00,0x00,0x00,0xCD,0x80,0xF4,
   -- "Hello from ELF!\n"
   0x48,0x65,0x6C,0x6C,0x6F,0x20,0x66,0x72,0x6F,0x6D,0x20,0x45,0x4C,0x46,0x21,0x0A,
   0x00,0x00,0x00,0x00,0x00,0x00,0x00,0x00]

def progCount : List Byte :=
  [0x7F,0x45,0x4C,0x46,0x01,0x01,0x01,0x00,0x00,0x00,0x00,0x00,0x00,0x00,0x00,0x00,
   0x02,0x00,0x03,0x00,0x01,0x00,0x00,0x00,0x54,0x00,0x81,0x00,0x34,0x00,0x00,0x00,
   0x00,0x00,0x00,0x00,0x00,0x00,0x00,0x00,0x34,0x00,0x20,0x00,0x01,0x00,0x00,0x00,
   0x00,0x00,0x00,0x00,
   -- program header
   0x01,0x00,0x00,0x00,0x00,0x00,0x00,0x00,0x00,0x00,0x81,0x00,0x00,0x00,0x81,0x00,
   0xA0,0x00,0x00,0x00,0xA0,0x00,0x00,0x00,0x07,0x00,0x00,0x00,0x00,0x10,0x00,0x00,
   -- code
   0xC6,0x05,0x98,0x00,0x81,0x00,0x31,0xB8,0x01,0x00,0x00,0x00,0xBB,0x03,0x00,0x00,0x00,
   0xB9,0x90,0x00,0x81,0x00,0xBA,0x09,0x00,0x00,0x00,0xCD,0x80,0xB8,0x05,0x00,0x00,0x00,
   0xBB,0x01,0x00,0x00,0x00,0xCD,0x80,0xFE,0x05,0x98,0x00,0x81,0x00,0x80,0x3D,0x98,0x00,
   0x81,0x00,0x36,0x75,0xCC,0xB8,0x00,0x00,0x00,0x00,0xCD,0x80,0xF4,0x00,0x00,0x00,
   -- "count:  \n"
   0x63,0x6F,0x75,0x6E,0x74,0x3A,0x20,0x20,0x0A]

set_option maxRecDepth 1024 in
theorem progHello_length : progHello.length = 138 := rfl

set_option maxRecDepth 1024 in
theorem progCount_length : progCount.length = 160 := rfl

/-- The only program header of `progHello`. -/
theorem progHello_header : (ePhnum (progHello.getD · 0)).toNat = 1 ∧
    filePhdr (progHello.getD · 0) 0 = ⟨ptLoad,0,0x800000,0x90,0x90⟩ := by decide

theorem progHello_valid : elfValidate (progHello.getD · 0) 138 = 0 := by decide

/-- The characters of "hello.elf" and of "count.elf". -/
def helloElf : CString := ⟨[0x68,0x65,0x6C,0x6C,0x6F,0x2E,0x65,0x6C,0x66],by decide⟩
def countElf : CString := ⟨[0x63,0x6F,0x75,0x6E,0x74,0x2E,0x65,0x6C,0x66],by decide⟩

def writeBytes (files : Files) (name : CString) (bytes : List Byte) : Except Fault Files :=
  (ramfsWrite files name (bytes.getD · 0) (BitVec.ofNat 32 bytes.length)).map Prod.fst

def programsInstall (files : Files) : Except Fault Files := do
  let files ← writeBytes files helloElf progHello
  writeBytes files countElf progCount

/-- The file with that name holds those bytes. -/
structure Contains (files : Files) (name : CString) (bytes : List Byte) : Prop where
  found : ramfsExists files name ≠ 0
  bytes : fileBytes files name = bytes

/-- The kernel once its parts are initialised, with the given files. -/
def bootKernel (image : KernelImage) (heap : Heap) (sched : Tasks.State) (files : Files) : Kernel where
  heap := memoryInit image heap
  files := files
  sched := Tasks.taskInit sched
  elfEntries := fun _ => 0
  nextElfSlot := 0

/-- One such kernel, in cleared memory. -/
def clearBoot (files : Files) : Kernel :=
  bootKernel (default : ElfImage).toKernelImage ⟨fun _ => 0,0,false⟩ default files

section

variable {image : KernelImage} {files : Files} {m : FileMap} {name : CString} {bytes : List Byte}

theorem bootKernel_sound (image : KernelImage) (heap : Heap) (sched : Tasks.State) (fit : SizesFit files) :
    Sound image (bootKernel image heap sched files) where
  heap := ⟨freshArena,memoryInit_represents image heap⟩
  files := fit
  current := by
    have running : (Tasks.taskInit sched).status 0 = .running := Tasks.taskInit_status sched 0
    exact fun unused => by cases running.symm.trans unused

/-- A heap of one free block has room for every file. -/
theorem fresh_serves {heap : Heap} (held : Represents image heap freshArena) {n : Word}
    (small : n.toNat ≤ 4096) : ∃ heap' buf, kmalloc image heap n = some (heap',buf) ∧ buf ≠ 0 := by
  have tracks : Tracks image ⟨heap,[]⟩ freshArena := ⟨held,.nil⟩
  rcases kmalloc_cases tracks n with ⟨-,none⟩ | ⟨heap',buf,-,-,-,-,ran,nonzero,-⟩
  · have block := FirstFit.allocate_eq_none_iff.mp none ⟨4194304 - 12,true⟩ List.mem_cons_self
    have aligned := align4_toNat n
    exact absurd ⟨rfl,by simp only; omega⟩ block
  · exact ⟨heap',buf,ran,nonzero⟩

/-- So a valid file is loaded. -/
theorem fresh_enters {k : Kernel} (held : Represents image k.heap freshArena) (fit : SizesFit k.files)
    (found : ramfsExists k.files name ≠ 0) (long : headerSize.toNat ≤ (fileBytes k.files name).length)
    (valid : elfValidate (fileAt k.files name) (BitVec.ofNat 32 (fileBytes k.files name).length) = 0) :
    Enters image k name := by
  have length := fileBytes_length fit name
  have room := fileBytes_room k name
  have size : BitVec.ofNat 32 (fileBytes k.files name).length = ramfsSize k.files name := by
    apply BitVec.eq_of_toNat_eq
    rw [BitVec.toNat_ofNat,Nat.mod_eq_of_lt (by omega),length]
  rw [length] at room
  exact ⟨found,long,size ▸ valid,fresh_serves held room⟩

theorem clearBoot_files (files : Files) : (clearBoot files).files = files := rfl

theorem clearBoot_sound (fit : SizesFit files) :
    Sound (default : ElfImage).toKernelImage (clearBoot files) :=
  bootKernel_sound _ _ _ fit

theorem clearBoot_enters (fit : SizesFit files) (found : ramfsExists files name ≠ 0)
    (long : headerSize.toNat ≤ (fileBytes files name).length)
    (valid : elfValidate (fileAt files name) (BitVec.ofNat 32 (fileBytes files name).length) = 0) :
    Enters (default : ElfImage).toKernelImage (clearBoot files) name :=
  fresh_enters (memoryInit_represents _ _) fit found long valid

theorem bytesAt_getD (bytes : List Byte) : bytesAt (bytes.getD · 0) bytes.length = bytes := by
  apply List.ext_getElem
  · exact bytesAt_length
  · intro i left right
    simp [bytesAt,right]

/-- A file that the map knows. -/
theorem contains_lookup (ref : Refines files m) {c : Contents} (known : m.files.lookup name = some c) :
    Contains files name c.val := by
  cases at' : findFile files name with
  | none => cases (ref.missing at').symm.trans known
  | some i =>
    obtain rfl := Option.some.inj ((ref.found at').symm.trans known)
    constructor
    · simp [ramfsExists,at']
    · simp [fileBytes,at']

theorem Contains.fileAt_eq (contains : Contains files name bytes) : fileAt files name = (bytes.getD · 0) := by
  funext i
  simp only [fileAt,contains.bytes]

/-- With room for one more file, what is written is there. -/
theorem writeBytes_refines (ref : Refines files m) (short : Short name) (small : bytes.length ≤ 4096)
    (room : m.files.keys.card < 64) : ∃ files' m', writeBytes files name bytes = .ok files' ∧
      Refines files' m' ∧ m'.files = m.files.insert name ⟨bytes,small⟩ := by
  obtain ⟨files',r,m',written,answer,ref'⟩ :=
    write_refines ref short (bytes.getD · 0) (BitVec.ofNat 32 bytes.length)
  have length : (BitVec.ofNat 32 bytes.length).toNat = bytes.length := by
    rw [BitVec.toNat_ofNat,Nat.mod_eq_of_lt (by omega)]
  have whole : clip bytes = ⟨bytes,small⟩ := Subtype.ext (List.take_of_length_le small)
  rw [Answers,if_neg fun full => by omega,length,bytesAt_getD,whole] at answer
  exact ⟨files',m',by simp only [writeBytes,written,Except.map],ref',answer.2⟩

/-- The fresh kernel with one file, which it loads when that is valid. -/
theorem written_enters (short : Short name) (small : bytes.length ≤ 4096)
    (long : headerSize.toNat ≤ bytes.length)
    (valid : elfValidate (bytes.getD · 0) (BitVec.ofNat 32 bytes.length) = 0) :
    ∃ files, writeBytes ramfsInit name bytes = .ok files ∧ SizesFit files ∧
      Contains (clearBoot files).files name bytes ∧
      Enters (default : ElfImage).toKernelImage (clearBoot files) name := by
  obtain ⟨files,m,written,ref,stored⟩ := writeBytes_refines refines_init short small (by decide)
  have known : m.files.lookup name = some ⟨bytes,small⟩ := by
    rw [stored,Finmap.lookup_insert]
  have contains : Contains files name bytes := contains_lookup ref known
  refine ⟨files,written,ref.fit,contains,clearBoot_enters ref.fit contains.found ?_ ?_⟩
  · rwa [contains.bytes]
  · rwa [contains.bytes,contains.fileAt_eq]

/-- With room for two more, both are there. -/
theorem writeTwo_refines (ref : Refines files m) (room : m.files.keys.card < 63) {name' : CString}
    {bytes' : List Byte} (other : name ≠ name') (short : Short name) (short' : Short name')
    (small : bytes.length ≤ 4096) (small' : bytes'.length ≤ 4096) :
    ∃ files₁ files₂ m₂, writeBytes files name bytes = .ok files₁ ∧
      writeBytes files₁ name' bytes' = .ok files₂ ∧ Refines files₂ m₂ ∧
      Contains files₂ name bytes ∧ Contains files₂ name' bytes' := by
  obtain ⟨files₁,m₁,first,ref₁,stored₁⟩ := writeBytes_refines ref short small (by omega)
  have grown : m₁.files.keys.card ≤ m.files.keys.card + 1 := by
    apply Nat.le_trans (Finset.card_le_card (t := insert name m.files.keys) ?_)
      (Finset.card_insert_le _ _)
    intro found member
    rw [Finmap.mem_keys,stored₁,Finmap.mem_insert] at member
    rwa [Finset.mem_insert,Finmap.mem_keys]
  obtain ⟨files₂,m₂,second,ref₂,stored₂⟩ := writeBytes_refines ref₁ short' small' (by omega)
  refine ⟨files₁,files₂,m₂,first,second,ref₂,?_,?_⟩
  · apply contains_lookup ref₂ (c := ⟨bytes,small⟩)
    rw [stored₂,Finmap.lookup_insert_of_ne _ other,stored₁,Finmap.lookup_insert]
  · apply contains_lookup ref₂ (c := ⟨bytes',small'⟩)
    rw [stored₂,Finmap.lookup_insert]

/-- After the installation both programs can be read. -/
theorem programsInstall_refines (ref : Refines files m) (room : m.files.keys.card < 63) :
    ∃ files' m', programsInstall files = .ok files' ∧ Refines files' m' ∧
      Contains files' helloElf progHello ∧ Contains files' countElf progCount := by
  obtain ⟨files₁,files₂,m₂,first,second,ref₂,hello,count⟩ := writeTwo_refines ref room
    (show helloElf ≠ countElf by decide) (show Short helloElf by decide) (show Short countElf by decide)
    (show progHello.length ≤ 4096 by simp [progHello_length])
    (show progCount.length ≤ 4096 by simp [progCount_length])
  refine ⟨files₂,m₂,?_,ref₂,hello,count⟩
  simp only [programsInstall,first,second,bind,Except.bind]

end

end NimrodOS.Elf
