import NimrodOS.Programs

/-! Whether the loader stays inside the file that it reads. -/
namespace NimrodOS.Elf

open ByteMemory Memory Ramfs Logged

/-- What is read of the file lies inside of it, counted without bounds. An empty copy reads nothing. -/
def Access.InFile (size : Nat) : Access → Prop
  | .header offset => offset + phdrSize ≤ size
  | .copy _ offset n => n = 0 ∨ offset + n ≤ size
  | .fill _ _ => True

/-- All program headers lie inside the file, and so do the bytes of the segments to load. -/
def WellFormed (f : Nat → Byte) (size : Nat) : Prop :=
  ∀ i < (ePhnum f).toNat, HeaderInside f size i ∧
    ((filePhdr f i).type = ptLoad → (filePhdr f i).Inside size)

def Rejected (image : ElfImage) (sym : ElfSymbols) (k : Kernel) (name : CString) : Prop :=
  ∃ k' r, (elfLoadAndRun image sym k name).result = .ok (k',r) ∧ r < 0

structure ReadsInside (image : ElfImage) (sym : ElfSymbols) (k : Kernel) (name : CString) : Prop where
  inside : (elfLoadAndRun image sym k name).All (Access.InFile (fileBytes k.files name).length)
  rejected : ¬WellFormed (fileAt k.files name) (fileBytes k.files name).length →
    Rejected image sym k name

/-- A segment overlaps the kernel, and all that comes before it is inside the file and fits. -/
structure OverlapsFirst (f : Nat → Byte) (size j : Nat) : Prop where
  listed : j < (ePhnum f).toNat
  headers : ∀ i ≤ j, HeaderInside f size i
  overlaps : (filePhdr f j).Overlaps
  earlier : ∀ i < j, (filePhdr f i).type = ptLoad →
    ¬(filePhdr f i).Overlaps ∧ (filePhdr f i).Inside size ∧ (filePhdr f i).Fits

section Calls

variable {image : ElfImage} {sym : ElfSymbols} {k : Kernel} {name : CString} {heap : Heap}
  {buf : Word} {f : Nat → Byte} {size i j : Nat}

theorem Buffered.copy {arena : HeapArena} (held : Buffered image.toKernelImage k name arena heap buf)
    (enters : Enters image.toKernelImage k name) :
    Copy heap.mem buf (fileAt k.files name) (fileBytes k.files name).length :=
  ⟨held.bytes,enters.long,held.small⟩

/-- The same for a file whose contents are known. -/
theorem Contains.copy {arena : HeapArena} {bytes : List Byte} (contains : Contains k.files name bytes)
    (held : Buffered image.toKernelImage k name arena heap buf) (enters : Enters image.toKernelImage k name) :
    Copy heap.mem buf (bytes.getD · 0) bytes.length := by
  have file := held.copy enters
  rwa [contains.fileAt_eq,contains.bytes] at file

/-- What is known of a call that comes to the segments. -/
theorem enters_opens (sound : Sound image.toKernelImage k) (enters : Enters image.toKernelImage k name) :
    ∃ arena heap buf, Represents image.toKernelImage k.heap arena ∧
      openFile image.toKernelImage k name = .ok (.ready heap buf) ∧
      Buffered image.toKernelImage k name arena heap buf := by
  obtain ⟨arena,held⟩ := sound.heap
  rcases openFile_cases held sound.files name with ⟨-,-,-,-,shut,-⟩ | ⟨heap,buf,opened,-,file⟩
  · exact absurd enters shut
  · exact ⟨arena,heap,buf,held,opened,file⟩

theorem shut_rejected (sound : Sound image.toKernelImage k) (shut : ¬Enters image.toKernelImage k name) :
    Rejected image sym k name := by
  obtain ⟨arena,held⟩ := sound.heap
  rcases openFile_cases held sound.files name with ⟨heap,r,refused,negative,-⟩ | ⟨-,-,-,enters,-⟩
  · refine ⟨{k with heap := heap},r,?_,negative⟩
    simp only [elfLoadAndRun,refused]
    rfl
  · exact absurd enters shut

/-- What is read at a header that the loop comes to. -/
theorem Copy.all_inFile (file : Copy heap.mem buf f size) (reached : Reaches heap.mem buf i) :
    AllAt (Access.InFile size) (before heap.mem buf i) buf (phdrAddr heap.mem buf i)
        (phdrOffset (pointee heap.mem buf) i) ↔
      HeaderInside f size i ∧ ((filePhdr f i).type = ptLoad → ¬(filePhdr f i).Overlaps →
        (filePhdr f i).Inside size) := by
  have same := before_keep reached.earlier
  simp only [AllAt,Access.InFile,implies_true,and_true,file.offset_eq i]
  apply and_congr_right
  intro inside
  have seen := file.seen inside
  have here : phdrSize = 32 := rfl
  have first : (phdrAddr heap.mem buf i).toNat + 20 ≤ ramEnd := by omega
  rw [file.comes_iff inside same,file.phdr_eq inside same]
  simp only [first,true_imp_iff,and_imp]
  rfl

theorem Copy.passesAt_iff (file : Copy heap.mem buf f size) (inside : HeaderInside f size i)
    (earlier : ∀ j < i, PassesAt heap.mem buf j)
    (source : (filePhdr f i).type = ptLoad → (filePhdr f i).Inside size) :
    PassesAt heap.mem buf i ↔
      ((filePhdr f i).type = ptLoad → ¬(filePhdr f i).Overlaps ∧ (filePhdr f i).Fits) :=
  file.passes_iff inside (before_keep earlier) fun load => file.source (source load)

theorem Copy.stopsAt_iff (file : Copy heap.mem buf f size) (inside : HeaderInside f size i)
    (earlier : ∀ j < i, PassesAt heap.mem buf j) :
    StopsAt heap.mem buf i ↔ (filePhdr f i).Overlaps :=
  file.stops_iff inside (before_keep earlier)

/-- The loop gets to the segment that overlaps the kernel. -/
theorem OverlapsFirst.stops (first : OverlapsFirst f size j) (file : Copy heap.mem buf f size) :
    Reaches heap.mem buf j ∧ StopsAt heap.mem buf j := by
  have passes (i : Nat) : i < j → PassesAt heap.mem buf i := by
    induction i using Nat.strong_induction_on with
    | h i ih =>
      intro below
      have earlier : ∀ l < i, PassesAt heap.mem buf l := fun l less => ih l less (by omega)
      have header := first.headers i (by omega)
      rw [file.passesAt_iff header earlier fun load => (first.earlier i below load).2.1]
      intro load
      obtain ⟨apart,-,fits⟩ := first.earlier i below load
      exact ⟨apart,fits⟩
  have listed : j < (ePhnum (pointee heap.mem buf)).toNat := by
    rw [file.header.1]
    exact first.listed
  refine ⟨⟨listed,passes⟩,?_⟩
  rw [file.stopsAt_iff (first.headers j (Nat.le_refl j)) passes]
  exact first.overlaps

theorem rejected_of_stops (sound : Sound image.toKernelImage k)
    (opened : openFile image.toKernelImage k name = .ok (.ready heap buf))
    (reached : Reaches heap.mem buf j) (stops : StopsAt heap.mem buf j) :
    Rejected image sym k name := by
  obtain ⟨arena,held⟩ := sound.heap
  obtain ⟨heap',result,-⟩ := load_stops held sound.files sym opened reached stops
  exact ⟨_,-6,result,by omega⟩

/-- The loop comes to all headers or to a segment that overlaps the kernel, and looks at
nothing outside of the file on its way. -/
theorem formed_of_reads (sound : Sound image.toKernelImage k) (reads : ReadsInside image sym k name)
    (enters : Enters image.toKernelImage k name) :
    WellFormed (fileAt k.files name) (fileBytes k.files name).length ∨
      ∃ j, OverlapsFirst (fileAt k.files name) (fileBytes k.files name).length j := by
  obtain ⟨arena,heap,buf,held,opened,file⟩ := enters_opens sound enters
  have copy := file.copy enters
  have all := (all_load opened file enters).mp reads.inside
  have visited (j : Nat) (reached : Reaches heap.mem buf j) := (copy.all_inFile reached).mp (all j reached)
  by_cases formed : WellFormed (fileAt k.files name) (fileBytes k.files name).length
  · exact .inl formed
  obtain ⟨k',r,result,negative⟩ := reads.rejected formed
  have ends := load_ends held sound.files sym name
  rw [result] at ends
  cases ends with
  | refused _ shut => exact absurd enters shut
  | @overlaps _ _ _ j opened' reached stops =>
    cases opened.symm.trans opened'
    have before (i : Nat) (le : i ≤ j) : Reaches heap.mem buf i :=
      ⟨Nat.lt_of_le_of_lt le reached.listed,fun l less => reached.earlier l (by omega)⟩
    refine .inr ⟨j,?_,?_,?_,?_⟩
    · exact copy.header.1 ▸ reached.listed
    · exact fun i le => (visited i (before i le)).1
    · exact (copy.stopsAt_iff (visited j reached).1 reached.earlier).mp stops
    · intro i below load
      have here := before i (Nat.le_of_lt below)
      obtain ⟨header,source⟩ := visited i here
      have passes := reached.earlier i below
      have apart : ¬(filePhdr (fileAt k.files name) i).Overlaps :=
        mt (copy.stopsAt_iff header here.earlier).mpr passes.not_stopsAt
      have inside := source load apart
      exact ⟨apart,inside,((copy.passesAt_iff header here.earlier fun _ => inside).mp passes load).2⟩
  | stored opened' all' =>
    cases opened.symm.trans opened'
    refine absurd (fun i listed => ?_) formed
    have reached : Reaches heap.mem buf i := by
      rw [← copy.header.1] at listed
      exact ⟨listed,fun l less => all' l (Nat.lt_trans less listed)⟩
    obtain ⟨header,source⟩ := visited i reached
    refine ⟨header,fun load => source load ?_⟩
    exact mt (copy.stopsAt_iff header reached.earlier).mpr (all' i reached.listed).not_stopsAt

theorem reads_of_formed (sound : Sound image.toKernelImage k)
    (enters : Enters image.toKernelImage k name)
    (formed : WellFormed (fileAt k.files name) (fileBytes k.files name).length) :
    ReadsInside image sym k name := by
  obtain ⟨arena,heap,buf,held,opened,file⟩ := enters_opens sound enters
  have copy := file.copy enters
  refine ⟨(all_load opened file enters).mpr fun i reached => ?_,absurd formed⟩
  have listed := reached.listed
  rw [copy.header.1] at listed
  exact (copy.all_inFile reached).mpr ⟨(formed i listed).1,fun load _ => (formed i listed).2 load⟩

theorem reads_of_first (sound : Sound image.toKernelImage k)
    (enters : Enters image.toKernelImage k name)
    (first : OverlapsFirst (fileAt k.files name) (fileBytes k.files name).length j) :
    ReadsInside image sym k name := by
  obtain ⟨arena,heap,buf,held,opened,file⟩ := enters_opens sound enters
  have copy := file.copy enters
  obtain ⟨reached,stops⟩ := first.stops copy
  have stuck : ¬PassesAt heap.mem buf j := fun passes => passes.not_stopsAt stops
  refine ⟨(all_load opened file enters).mpr fun i here => ?_,fun _ =>
    rejected_of_stops sound opened reached stops⟩
  have le : i ≤ j := Nat.le_of_not_lt fun beyond => stuck (here.earlier j beyond)
  refine (copy.all_inFile here).mpr ⟨first.headers i le,fun load apart => ?_⟩
  rcases Nat.eq_or_lt_of_le le with rfl | below
  · exact absurd first.overlaps apart
  · exact (first.earlier i below load).2.1

end Calls

variable (image : ElfImage) (sym : ElfSymbols) (k : SoundKernel image.toKernelImage) (name : CString)

/-- The loader reads inside the file just when the file never gets to its segments, is well
formed, or is given up at a segment that overlaps the kernel before anything else is wrong. -/
theorem reads_inside_iff : ReadsInside image sym k.val name ↔
    (Enters image.toKernelImage k.val name →
      WellFormed (fileAt k.val.files name) (fileBytes k.val.files name).length ∨
      ∃ j, OverlapsFirst (fileAt k.val.files name) (fileBytes k.val.files name).length j) := by
  constructor
  · intro reads enters
    exact formed_of_reads k.property reads enters
  · intro safe
    by_cases enters : Enters image.toKernelImage k.val name
    · rcases safe enters with formed | ⟨j,first⟩
      · exact reads_of_formed k.property enters formed
      · exact reads_of_first k.property enters first
    · obtain ⟨arena,held⟩ := k.property.heap
      exact ⟨all_load_refused enters held k.property.files,fun _ => shut_rejected k.property enters⟩

/-- "hello.elf" has 138 bytes, and its segment 144. -/
theorem hello_reads_outside : ∃ files, programsInstall ramfsInit = .ok files ∧
    Sound (default : ElfImage).toKernelImage (clearBoot files) ∧
    ¬ReadsInside default default (clearBoot files) helloElf := by
  obtain ⟨files,m,installed,ref,hello,-⟩ := programsInstall_refines refines_init (by decide)
  refine ⟨files,installed,clearBoot_sound ref.fit,fun reads => ?_⟩
  have enters : Enters (default : ElfImage).toKernelImage (clearBoot files) helloElf := by
    apply clearBoot_enters ref.fit hello.found
    · rw [hello.bytes,progHello_length]
      decide
    · rw [hello.bytes,hello.fileAt_eq,progHello_length]
      exact progHello_valid
  have safe := formed_of_reads (clearBoot_sound ref.fit) reads enters
  rw [clearBoot_files,hello.fileAt_eq,hello.bytes,progHello_length] at safe
  obtain ⟨phnum,phdr⟩ := progHello_header
  rcases safe with formed | ⟨j,first⟩
  · have source := (formed 0 (by omega)).2 (by rw [phdr])
    rw [phdr] at source
    exact absurd source (by decide)
  · have listed := first.listed
    obtain rfl : j = 0 := by omega
    have low := first.overlaps
    rw [phdr] at low
    exact absurd low (by decide)

end NimrodOS.Elf
