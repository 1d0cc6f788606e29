import NimrodOS.ElfEntries
import NimrodOS.ElfRanges
import NimrodOS.Lib.Layers

/-! What a load puts into memory, byte by byte, and what a loaded task finds there when it
begins. -/
namespace NimrodOS.Elf

open ByteMemory FirstFit Memory Ramfs Transition Layers

/-- The bytes of a segment and the zeros behind them. Where the file is too short, it says
nothing. -/
def Phdr.layer (bytes : List Byte) (p : Phdr) : Layer Word (Option Byte) := fun x =>
  let k := (x - p.vaddr).toNat
  if p.type ≠ ptLoad then none
  else if k < p.filesz.toNat then some bytes[p.offset.toNat + k]?
  else if k < p.memsz.toNat then some (some 0)
  else none

def headerLayer (bytes : List Byte) (i : Nat) : Layer Word (Option Byte) :=
  (filePhdr (bytes.getD · 0) i).layer bytes

/-- A program as its file describes it: where segments overlap, the later one is seen. -/
def programImage (bytes : List Byte) : List (Layer Word (Option Byte)) :=
  (List.range (ePhnum (bytes.getD · 0)).toNat).map (headerLayer bytes)

/-- A byte of memory is the one that is asked for, if one is. -/
def Shows (m : Memory) (known : Word → Option Byte) (x : Word) : Prop := ∀ b, known x = some b → m x = b

/-- A step does not write a byte. -/
def LeavesByte (image : KernelImage) (x : Word) : Kernel × Call → Prop
  | (k,.load name) => ∀ a n, Segment image k name a n → ¬(x - a).toNat < n
  | (_,.task _) => True
  | (k,.other heap _) => heap.mem x = k.heap.mem x

section Segments

variable {m m' : Memory} {buf x : Word} {bytes : List Byte} {i n : Nat} {p : Phdr}
  {known : Word → Option Byte}

theorem copied_byte (dest : InProgram p.vaddr p.filesz.toNat) (above : programStart ≤ p.vaddr.toNat)
    (zeros : p.memsz > p.filesz → InProgram (p.vaddr + p.filesz) (p.memsz - p.filesz).toNat)
    (inside : (x - p.vaddr).toNat < p.filesz.toNat)
    (source : (buf + p.offset).toNat + (x - p.vaddr).toNat < programStart) :
    filled (copied m buf p) p x = m (buf + p.offset + (x - p.vaddr)) := by
  have noWrap : p.vaddr.toNat + p.filesz.toNat ≤ 2^32 := by
    have top : ramEnd = 0x1000000 := rfl
    rcases dest with none | ⟨-,high⟩ <;> omega
  have byte := copyBytes_inside m noWrap (Nat.lt_of_lt_of_le source above) inside
  rw [offset_distance,BitVec.ofNat_toNat,BitVec.setWidth_eq] at byte
  rw [← byte,filled]
  split
  · rename_i larger
    exact fillBytes_apart (zeros larger) (by bv_omega)
  · rfl

theorem filled_byte (dest : InProgram p.vaddr p.filesz.toNat)
    (zeros : p.memsz > p.filesz → InProgram (p.vaddr + p.filesz) (p.memsz - p.filesz).toNat)
    (behind : ¬(x - p.vaddr).toNat < p.filesz.toNat) :
    filled (copied m buf p) p x = if (x - p.vaddr).toNat < p.memsz.toNat then 0 else m x := by
  have kept : copied m buf p x = m x := copyBytes_apart dest behind
  rw [← kept,filled]
  by_cases larger : p.memsz > p.filesz
  · rw [if_pos larger]
    by_cases inside : (x - p.vaddr).toNat < p.memsz.toNat
    · rw [if_pos inside]
      rcases zeros larger with none | ⟨low,high⟩
      · bv_omega
      · have top : ramEnd = 0x1000000 := rfl
        exact fillBytes_inside 0 _ (by omega) (by bv_omega) (by bv_omega)
    · rw [if_neg inside]
      exact fillBytes_apart (zeros larger) (by bv_omega)
  · rw [if_neg larger,if_neg (by bv_omega)]

/-- A header that passes covers memory with its segment. -/
theorem Copy.header_covers (file : Copy m buf (bytes.getD · 0) bytes.length)
    (inside : HeaderInside (bytes.getD · 0) bytes.length i) (same : AgreeOutside m m' programStart ramEnd)
    (passes : Passes m' buf (phdrAddr m buf i)) (shows : Shows m' known x) :
    Shows (afterHeader m' buf (phdrAddr m buf i)) (cover known (headerLayer bytes i)) x := by
  have found := file.phdr_eq inside same
  intro b wanted
  rw [cover,headerLayer,Phdr.layer] at wanted
  rw [afterHeader,found]
  rcases passes with skips | ⟨comes,copy,fill⟩
  · have other : (filePhdr (bytes.getD · 0) i).type ≠ ptLoad := found ▸ skips.2
    rw [if_pos other] at wanted
    rw [if_neg other]
    exact shows b wanted
  · have load : (filePhdr (bytes.getD · 0) i).type = ptLoad := found ▸ comes.1.2
    have above : programStart ≤ (filePhdr (bytes.getD · 0) i).vaddr.toNat := found ▸ comes.2
    have dest := copy.dest
    have zeros := (file.canFill_iff inside (same.trans (copyBytes_program dest))).mp fill
    rw [found] at dest
    have again : phdrIn (copied m' buf (filePhdr (bytes.getD · 0) i)) (phdrAddr m buf i) = _ :=
      file.phdr_eq inside (same.trans (copyBytes_program dest))
    rw [if_neg (not_not.mpr load)] at wanted
    rw [if_pos load]
    simp only [again]
    generalize filePhdr (bytes.getD · 0) i = p at *
    by_cases byte : (x - p.vaddr).toNat < p.filesz.toNat
    · rw [if_pos byte,Option.getD_some] at wanted
      obtain ⟨within,rfl⟩ := List.getElem?_eq_some_iff.mp wanted
      obtain ⟨low,held⟩ := file.source_byte same within
      rw [copied_byte dest above zeros byte low,held,List.getD_eq_getElem _ _ within]
    · rw [if_neg byte] at wanted
      rw [filled_byte dest zeros byte]
      split_ifs at wanted ⊢ with zero
      · exact Option.some.inj wanted
      · exact shows b wanted

theorem Copy.before_shows (file : Copy m buf (bytes.getD · 0) bytes.length)
    (inside : ∀ j < i, HeaderInside (bytes.getD · 0) bytes.length j) (passes : ∀ j < i, PassesAt m buf j)
    (shows : Shows m known x) :
    Shows (before m buf i) (paint known ((List.range i).map (headerLayer bytes))) x := by
  induction i with
  | zero => exact shows
  | succ i ih =>
    have here := Nat.lt_succ_self i
    have earlier (j : Nat) (less : j < i) : PassesAt m buf j := passes j (Nat.lt_succ_of_lt less)
    have before := ih (fun j less => inside j (Nat.lt_succ_of_lt less)) earlier
    rw [List.range_succ,List.map_append,List.map_singleton,paint_snoc]
    exact file.header_covers (inside i here) (before_keep earlier) (passes i here) before

end Segments

section Loads

variable {image : ElfImage} {sym : ElfSymbols} {k k' start last : Kernel} {name : CString} {x : Word}
  {past : List (Kernel × Call)} {call : Call} {i : Fin 16}

/-- A load that makes a task has put the program of its file over what was in memory. -/
theorem load_shows (sound : Sound image.toKernelImage k)
    (headers : ∀ i < (ePhnum (fileAt k.files name)).toNat,
      HeaderInside (fileAt k.files name) (fileBytes k.files name).length i)
    (result : (elfLoadAndRun image sym k name).result = .ok (k',(i.val : Int)))
    (above : heapEnd image.toKernelImage ≤ x.toNat) :
    Shows k'.heap.mem (paint (fun x => some (k.heap.mem x)) (programImage (fileBytes k.files name))) x := by
  obtain ⟨arena,held⟩ := sound.heap
  have ends := load_ends held sound.files sym name
  rw [result] at ends
  generalize number : (i.val : Int) = r at ends
  cases ends with
  | refused negative => omega
  | overlaps => omega
  | @stored heap heap' buf slot opened all free held' same =>
    obtain ⟨enters,filled⟩ := opened_enters held sound.files opened
    have file := filled.copy enters
    rw [file.header.1] at all same
    intro b wanted
    rw [← same x (.inr above)]
    apply file.before_shows headers all _ b wanted
    intro b wanted
    exact (filled.same x (.inr above)).symm.trans (Option.some.inj wanted)

theorem step_leaves (sound : Sound image.toKernelImage k) (moved : Step image sym k call k')
    (leaves : LeavesByte image.toKernelImage x (k,call)) (above : heapEnd image.toKernelImage ≤ x.toNat) :
    k'.heap.mem x = k.heap.mem x := by
  cases moved with
  | load result => exact load_unchanged sound result above leaves
  | task op => rfl
  | other held fit => exact leaves

theorem run_leaves (sound : Sound image.toKernelImage start) (run : Run (Step image sym) start past last)
    (leaves : ∀ entry ∈ past, LeavesByte image.toKernelImage x entry)
    (above : heapEnd image.toKernelImage ≤ x.toNat) : last.heap.mem x = start.heap.mem x := by
  have kept : ∀ k call k', Sound image.toKernelImage k ∧ k.heap.mem x = start.heap.mem x →
      LeavesByte image.toKernelImage x (k,call) → Step image sym k call k' →
      Sound image.toKernelImage k' ∧ k'.heap.mem x = start.heap.mem x := by
    intro k call k' before leaves moved
    exact ⟨step_sound before.1 moved,(step_leaves before.1 moved leaves above).trans before.2⟩
  exact (run.invariant_under ⟨sound,rfl⟩ kept leaves).2

end Loads

/-- When a loaded task is first switched to, with fewer than eight loads behind it, it jumps
to the entry of its file, and every byte that nothing has written since is the one that the
file's program has there, or what was there before the load. -/
theorem starts_as_linked (image : ElfImage) (sym : ElfSymbols) (start : SoundKernel image.toKernelImage)
    {past between : List (Kernel × Call)} {last made k : Kernel} {name : CString} {i : Fin 16} {op : Tasks.Op}
    (run : Run (Step image sym) start.val past last)
    (first : FirstDispatch image sym past made name i between k op)
    (headers : ∀ i < (ePhnum (fileAt made.files name)).toNat,
      HeaderInside (fileAt made.files name) (fileBytes made.files name).length i)
    (few : (storedEntries image.toKernelImage between).length < 8) :
    JumpsTo sym {k with sched := (Tasks.step sym.toSymbols k.sched op).1} (programEntry made name) ∧
    ∀ x : Word, heapEnd image.toKernelImage ≤ x.toNat →
      (∀ entry ∈ between, LeavesByte image.toKernelImage x entry) →
      Shows k.heap.mem (paint (fun x => some (made.heap.mem x)) (programImage (fileBytes made.files name))) x := by
  refine ⟨(first.jumpsTo_iff start.property run _).mpr (SlotRing.lastTurn_short few),?_⟩
  intro x above leaves b wanted
  obtain ⟨before,after,rfl⟩ := first.within
  obtain ⟨lead,next,moved,rest⟩ := run.split
  have here : Sound image.toKernelImage made := run_sound start.property lead
  obtain ⟨k',result⟩ := first.loaded
  cases moved with
  | load result' =>
    cases result.symm.trans result'
    have later := step_sound here (.load result)
    rw [run_leaves later rest.split.1 leaves above]
    exact load_shows here headers result above b wanted

/-- "hello.elf" is loaded and runs. -/
theorem starts_as_linked_hello : ∃ (files : Files) (k : Kernel) (op : Tasks.Op),
    programsInstall ramfsInit = .ok files ∧
    JumpsTo default {k with sched := (Tasks.step (default : ElfSymbols).toSymbols k.sched op).1} 0x800054 ∧
    k.heap.mem 0x800054 = 0xB8 := by
  obtain ⟨files,m,installed,ref,hello,-⟩ := programsInstall_refines refines_init (by decide)
  have boot := clearBoot_waiting files
  obtain ⟨-,entry,heap,result,one⟩ := boot.loads (by decide) ref.fit hello progHello_loadable
  obtain ⟨number,ready⟩ := started_first (k := clearBoot files) rfl heap
  have run := (Run.single (Step.load result)).snoc (.task _ .yield)
  have first : FirstDispatch default default _ (clearBoot files) helloElf 1 [] _ .yield :=
    ⟨⟨[],[],rfl⟩,⟨_,result.trans (congrArg Except.ok (Prod.ext rfl number))⟩,by simp,one.switches ready⟩
  have bytes : fileBytes (clearBoot files).files helloElf = progHello := hello.bytes
  have file : fileAt (clearBoot files).files helloElf = (progHello.getD · 0) := hello.fileAt_eq
  obtain ⟨jumps,memory⟩ := starts_as_linked default default ⟨clearBoot files,clearBoot_sound ref.fit⟩ run first
    (by rw [file,bytes,progHello_header.1,progHello_length]; decide) (by simp [storedEntries])
  rw [entry,progHello_entry] at jumps
  have segments : programImage progHello = [] ++ [headerLayer progHello 0] := by
    rw [programImage,progHello_header.1]
    rfl
  have code : headerLayer progHello 0 0x800054 = some (some 0xB8) := by decide
  refine ⟨files,_,_,installed,jumps,memory 0x800054 (by decide) (List.forall_mem_nil _) _ ?_⟩
  rw [bytes,segments]
  exact paint_top code (List.forall_mem_nil _)

end NimrodOS.Elf
