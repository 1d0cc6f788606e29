import NimrodOS.ElfReads

/-! Whether the loader writes to program memory only. Of a segment it checks where that
begins. -/
namespace NimrodOS.Elf

open ByteMemory Memory Ramfs Logged

/-- An address between the kernel and the end of RAM. -/
def ProgramAddr (a : Word) : Prop := programStart ≤ a.toNat ∧ a.toNat < ramEnd

def Access.WritesProgram : Access → Prop
  | .header _ => True
  | .copy start _ n | .fill start n => ∀ k < n, ProgramAddr (start + BitVec.ofNat 32 k)

/-- A segment of the file does not lie in program memory. -/
def Unfit (f : Nat → Byte) (size : Nat) : Prop :=
  ∃ i < (ePhnum f).toNat, HeaderInside f size i ∧ (filePhdr f i).type = ptLoad ∧ ¬(filePhdr f i).Fits

structure WritesInside (image : ElfImage) (sym : ElfSymbols) (k : Kernel) (name : CString) : Prop where
  inside : (elfLoadAndRun image sym k name).All Access.WritesProgram
  rejected : Unfit (fileAt k.files name) (fileBytes k.files name).length → Rejected image sym k name

/-- The segment of a header ends in program memory too, and so do the zeros behind it, for
which the header is read again. -/
structure EndsInside (m : Memory) (buf phdr : Word) : Prop where
  file : Comes m phdr → phdr.toNat + 20 ≤ ramEnd →
    InProgram (phdrIn m phdr).vaddr (phdrIn m phdr).filesz.toNat
  zeros : Comes m phdr → CanCopy m buf phdr → phdr.toNat + 24 ≤ ramEnd →
    let q := phdrIn (copied m buf (phdrIn m phdr)) phdr
    q.memsz > q.filesz → InProgram (q.vaddr + q.filesz) (q.memsz - q.filesz).toNat

/-- What is read of the header and of the segment lies in RAM. -/
structure Readable (m : Memory) (buf phdr : Word) : Prop where
  type : phdr.toNat + 4 ≤ ramEnd
  vaddr : (phdrIn m phdr).type = ptLoad → phdr.toNat + 12 ≤ ramEnd
  rest : Comes m phdr → phdr.toNat + 24 ≤ ramEnd ∧
    InRam (buf + (phdrIn m phdr).offset) (phdrIn m phdr).filesz.toNat

section Headers

variable {m : Memory} {buf phdr a : Word} {i n offset : Nat}

theorem inProgram_iff : (∀ k < n, ProgramAddr (a + BitVec.ofNat 32 k)) ↔ InProgram a n := by
  have low : programStart = 0x600000 := rfl
  have high : ramEnd = 0x1000000 := rfl
  unfold ProgramAddr InProgram
  constructor
  · intro all
    rcases Nat.eq_zero_or_pos n with none | some
    · exact .inl none
    · have front := all 0 some
      rw [offset_toNat (by omega)] at front
      refine .inr ⟨front.1,not_lt.mp fun beyond => ?_⟩
      -- the first address behind RAM would be written
      have edge := all (ramEnd - a.toNat) (by omega)
      rw [offset_toNat (by omega)] at edge
      omega
  · intro range k less
    rw [offset_toNat (by omega)]
    omega

theorem allAt_writesProgram : AllAt Access.WritesProgram m buf phdr offset ↔ EndsInside m buf phdr := by
  simp only [AllAt,Access.WritesProgram,inProgram_iff,true_and]
  constructor
  · intro all
    exact ⟨fun comes seen => (all comes seen).1,fun comes can => (all comes can.seen).2 can⟩
  · intro ends comes seen
    exact ⟨ends.file comes seen,fun can => ends.zeros comes can⟩

theorem EndsInside.goes_on_iff (ends : EndsInside m buf phdr) :
    Passes m buf phdr ∨ Stops m phdr ↔ Readable m buf phdr := by
  constructor
  · rintro ((skips | ⟨comes,copy,fill⟩) | stops)
    · exact ⟨skips.1,fun load => absurd load skips.2,fun comes => absurd comes.1.2 skips.2⟩
    · exact ⟨Nat.le_trans (by omega) comes.1.1,fun _ => comes.1.1,fun _ => ⟨fill.seen,copy.src⟩⟩
    · refine ⟨Nat.le_trans (by omega) stops.1.1,fun _ => stops.1.1,fun comes => ?_⟩
      exact absurd stops.2 (Nat.not_lt.mpr comes.2)
  · intro read
    rcases header_cases m phdr with ⟨skips,loads⟩ | skips | stops | comes
    · by_cases load : (phdrIn m phdr).type = ptLoad
      · exact absurd ⟨read.vaddr load,load⟩ loads
      · exact absurd ⟨read.type,load⟩ skips
    · exact .inl (.inl skips)
    · exact .inr stops
    · obtain ⟨seen,src⟩ := read.rest comes
      have copy : CanCopy m buf phdr := ⟨by omega,ends.file comes (by omega),src⟩
      exact .inl (.inr ⟨comes,copy,seen,ends.zeros comes copy seen⟩)

end Headers

section Calls

variable {image : ElfImage} {sym : ElfSymbols} {k : Kernel} {name : CString} {heap : Heap}
  {buf : Word} {f : Nat → Byte} {size i j : Nat}

/-- A header inside the file that passes is for a segment that fits. -/
theorem Copy.fits_of_passes (file : Copy heap.mem buf f size) (inside : HeaderInside f size i)
    (earlier : ∀ j < i, PassesAt heap.mem buf j) (passes : PassesAt heap.mem buf i)
    (load : (filePhdr f i).type = ptLoad) : (filePhdr f i).Fits := by
  have same := before_keep earlier
  have found := file.phdr_eq inside same
  rcases passes with skips | ⟨comes,copy,fill⟩
  · exact absurd (found.symm ▸ load) skips.2
  · have above : programStart ≤ (filePhdr f i).vaddr.toNat := found ▸ comes.2
    have dest := copy.dest
    have zeros := (file.canFill_iff inside (same.trans (copyBytes_program dest))).mp fill
    rw [Phdr.fits_iff above]
    exact ⟨found ▸ dest,zeros⟩

/-- The segment of a header inside the file, when its bytes are there as well. -/
theorem Copy.endsInside_iff (file : Copy heap.mem buf f size) (inside : HeaderInside f size i)
    (earlier : ∀ j < i, PassesAt heap.mem buf j)
    (source : (filePhdr f i).type = ptLoad → (filePhdr f i).Inside size) :
    EndsInside (before heap.mem buf i) buf (phdrAddr heap.mem buf i) ↔
      ((filePhdr f i).type = ptLoad → ¬(filePhdr f i).Overlaps → (filePhdr f i).Fits) := by
  have same := before_keep earlier
  have found := file.phdr_eq inside same
  have comes := file.comes_iff inside same
  have seen := file.seen inside
  have here : phdrSize = 32 := rfl
  have again (dest : InProgram (filePhdr f i).vaddr (filePhdr f i).filesz.toNat) :
      phdrIn (copied (before heap.mem buf i) buf (filePhdr f i)) (phdrAddr heap.mem buf i) =
        filePhdr f i :=
    file.phdr_eq inside (same.trans (copyBytes_program dest))
  constructor
  · intro ends load apart
    have above : programStart ≤ (filePhdr f i).vaddr.toNat := not_lt.mp fun low => apart ⟨load,low⟩
    have dest := ends.file (comes.mpr ⟨load,apart⟩) (by omega)
    rw [found] at dest
    have zeros := ends.zeros (comes.mpr ⟨load,apart⟩)
      ((file.canCopy_iff inside same (file.source (source load))).mpr dest) (by omega)
    simp only [found,again dest] at zeros
    exact (Phdr.fits_iff above).mpr ⟨dest,zeros⟩
  · intro fits
    have both (reached : Comes (before heap.mem buf i) (phdrAddr heap.mem buf i)) := by
      obtain ⟨load,apart⟩ := comes.mp reached
      have above : programStart ≤ (filePhdr f i).vaddr.toNat := not_lt.mp fun low => apart ⟨load,low⟩
      exact (Phdr.fits_iff above).mp (fits load apart)
    constructor
    · intro reached _
      rw [found]
      exact (both reached).1
    · intro reached _ _
      simp only [found,again (both reached).1]
      exact (both reached).2

/-- When a loop whose headers all pass or stop meets a segment that does not fit, it stops
at one that overlaps the kernel. -/
theorem Copy.stops_of_unfit (file : Copy heap.mem buf f size) (unfit : Unfit f size)
    (goes : ∀ i, Reaches heap.mem buf i → PassesAt heap.mem buf i ∨ StopsAt heap.mem buf i) :
    ∃ j, Reaches heap.mem buf j ∧ StopsAt heap.mem buf j := by
  obtain ⟨i,listed,inside,load,large⟩ := unfit
  rw [← file.header.1] at listed
  by_contra none
  have passes (j : Nat) : j ≤ i → PassesAt heap.mem buf j := by
    induction j using Nat.strong_induction_on with
    | h j ih =>
      intro le
      have reached : Reaches heap.mem buf j := ⟨by omega,fun l less => ih l less (by omega)⟩
      rcases goes j reached with passes | stops
      · exact passes
      · exact absurd ⟨j,reached,stops⟩ none
  exact large (file.fits_of_passes inside (fun l less => passes l (by omega)) (passes i (Nat.le_refl i)) load)

/-- A rejected file with a segment that does not fit is given up at one that overlaps. -/
theorem stops_of_rejected (sound : Sound image.toKernelImage k)
    (opened : openFile image.toKernelImage k name = .ok (.ready heap buf))
    (file : Copy heap.mem buf (fileAt k.files name) (fileBytes k.files name).length)
    (unfit : Unfit (fileAt k.files name) (fileBytes k.files name).length)
    (rejected : Rejected image sym k name) : ∃ j, Reaches heap.mem buf j ∧ StopsAt heap.mem buf j := by
  obtain ⟨arena,held⟩ := sound.heap
  obtain ⟨k',r,result,-⟩ := rejected
  have ends := load_ends held sound.files sym name
  rw [result] at ends
  cases ends with
  | refused _ shut => exact absurd (opened_enters held sound.files opened).1 shut
  | overlaps opened' reached stops =>
    cases opened.symm.trans opened'
    exact ⟨_,reached,stops⟩
  | stored opened' all =>
    cases opened.symm.trans opened'
    obtain ⟨i,listed,inside,load,large⟩ := unfit
    rw [← file.header.1] at listed
    refine absurd (file.fits_of_passes inside (fun l less => all l ?_) (all i listed) load) large
    exact Nat.lt_trans less listed

end Calls

variable (image : ElfImage) (sym : ElfSymbols) (k : SoundKernel image.toKernelImage) (name : CString)

/-- The loader keeps to program memory just when each segment that it comes to ends there,
and a file with another segment is read without a page fault up to one it is given up at. -/
theorem writes_inside_iff : WritesInside image sym k.val name ↔
    ∀ heap buf, openFile image.toKernelImage k.val name = .ok (.ready heap buf) →
      (∀ i, Reaches heap.mem buf i → EndsInside (before heap.mem buf i) buf (phdrAddr heap.mem buf i)) ∧
      (Unfit (fileAt k.val.files name) (fileBytes k.val.files name).length →
        ∀ i, Reaches heap.mem buf i → Readable (before heap.mem buf i) buf (phdrAddr heap.mem buf i)) := by
  have sound := k.property
  constructor
  · intro writes heap buf opened
    obtain ⟨arena,held⟩ := sound.heap
    obtain ⟨enters,file⟩ := opened_enters held sound.files opened
    have all := (all_load opened file enters).mp writes.inside
    have ends (i : Nat) (reached : Reaches heap.mem buf i) := allAt_writesProgram.mp (all i reached)
    refine ⟨ends,fun unfit i reached => ?_⟩
    obtain ⟨j,last,stops⟩ := stops_of_rejected sound opened (file.copy enters) unfit (writes.rejected unfit)
    rw [← (ends i reached).goes_on_iff]
    by_cases passes : PassesAt heap.mem buf i
    · exact .inl passes
    · obtain rfl := reached.last_unique passes last fun passes => passes.not_stopsAt stops
      exact .inr stops
  · intro safe
    by_cases enters : Enters image.toKernelImage k.val name
    · obtain ⟨arena,heap,buf,held,opened,file⟩ := enters_opens sound enters
      obtain ⟨ends,reads⟩ := safe heap buf opened
      refine ⟨(all_load opened file enters).mpr fun i reached => ?_,fun unfit => ?_⟩
      · exact allAt_writesProgram.mpr (ends i reached)
      · obtain ⟨j,reached,stops⟩ := (file.copy enters).stops_of_unfit unfit fun i reached =>
          (ends i reached).goes_on_iff.mpr (reads unfit i reached)
        exact rejected_of_stops sound opened reached stops
    · obtain ⟨arena,held⟩ := sound.heap
      exact ⟨all_load_refused enters held sound.files,fun _ => shut_rejected sound enters⟩

/-- A file with one segment of 8192 zeros, the second half of them behind the end of RAM. -/
def zerosBeyond : List Byte :=
  [0x7F,0x45,0x4C,0x46,0x01,0x01,0x01,0x00,0x00,0x00,0x00,0x00,0x00,0x00,0x00,0x00,
   0x02,0x00,0x03,0x00,0x01,0x00,0x00,0x00,0x00,0xF0,0xFF,0x00,0x34,0x00,0x00,0x00,
   0x00,0x00,0x00,0x00,0x00,0x00,0x00,0x00,0x34,0x00,0x20,0x00,0x01,0x00,0x00,0x00,
   0x00,0x00,0x00,0x00,
   -- program header
   0x01,0x00,0x00,0x00,0x00,0x00,0x00,0x00,0x00,0xF0,0xFF,0x00,0x00,0xF0,0xFF,0x00,
   0x00,0x00,0x00,0x00,0x00,0x20,0x00,0x00,0x06,0x00,0x00,0x00,0x00,0x10,0x00,0x00]

theorem zerosBeyond_header : (ePhnum (zerosBeyond.getD · 0)).toNat = 1 ∧
    HeaderInside (zerosBeyond.getD · 0) zerosBeyond.length 0 ∧
    filePhdr (zerosBeyond.getD · 0) 0 = ⟨ptLoad,0,0xFFF000,0,0x2000⟩ := by decide

theorem zeros_written_beyond : ∃ files, writeBytes ramfsInit helloElf zerosBeyond = .ok files ∧
    Sound (default : ElfImage).toKernelImage (clearBoot files) ∧
    ¬WritesInside default default (clearBoot files) helloElf := by
  obtain ⟨files,written,fit,contains,enters⟩ := written_enters (show Ramfs.Short helloElf by decide)
    (show zerosBeyond.length ≤ 4096 by decide) (by decide) (by decide)
  refine ⟨files,written,clearBoot_sound fit,fun writes => ?_⟩
  obtain ⟨arena,heap,buf,held,opened,file⟩ := enters_opens (clearBoot_sound fit) enters
  have copy := contains.copy file enters
  obtain ⟨phnum,inside,phdr⟩ := zerosBeyond_header
  have reached : Reaches heap.mem buf 0 := by
    apply reaches_first
    rw [copy.header.1,phnum]
    exact Nat.one_pos
  have ends := allAt_writesProgram.mp ((all_load opened file enters).mp writes.inside 0 reached)
  rw [copy.endsInside_iff inside reached.earlier (by rw [phdr]; decide),phdr] at ends
  exact absurd (ends rfl (by decide)) (by decide)

end NimrodOS.Elf
