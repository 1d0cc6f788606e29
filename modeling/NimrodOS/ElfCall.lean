import NimrodOS.ElfLoop
import NimrodOS.MemoryRuns
import NimrodOS.RamfsCalls
import NimrodOS.TaskSteps

/-! All the ways in which a call of `elf_load_and_run` ends. -/
namespace NimrodOS.Elf

open ByteMemory FirstFit Memory Ramfs Logged

/-- What every operation of the kernel keeps: the blocks of the heap are in memory, no file
is longer than its room, and the current task has a slot. -/
structure Sound (image : KernelImage) (k : Kernel) : Prop where
  heap : ∃ arena, Represents image k.heap arena
  files : SizesFit k.files
  current : k.sched.status k.sched.currentTask ≠ .unused

abbrev SoundKernel (image : KernelImage) := {k : Kernel // Sound image k}

/-- The contents of the file that a name finds. -/
def fileBytes (files : Files) (name : CString) : List Byte :=
  match findFile files name with
  | none => []
  | some i => (fileContents (files i)).val

def fileAt (files : Files) (name : CString) : Nat → Byte := fun i => (fileBytes files name).getD i 0

/-- The file is there, its header is one of this kind, and the heap has room for it. -/
structure Enters (image : KernelImage) (k : Kernel) (name : CString) : Prop where
  found : ramfsExists k.files name ≠ 0
  long : headerSize.toNat ≤ (fileBytes k.files name).length
  valid : elfValidate (fileAt k.files name) (ramfsSize k.files name) = 0
  served : ∃ heap buf, kmalloc image k.heap (ramfsSize k.files name) = some (heap,buf) ∧ buf ≠ 0

/-- The file in its buffer, which can be given back whatever happens above the heap. -/
structure Buffered (image : KernelImage) (k : Kernel) (name : CString) (arena : HeapArena)
    (heap : Heap) (buf : Word) : Prop where
  low : (heapAddr image).toNat ≤ buf.toNat
  high : buf.toNat + (fileBytes k.files name).length ≤ heapEnd image
  bytes : ∀ i < (fileBytes k.files name).length, pointee heap.mem buf i = fileAt k.files name i
  same : AgreeOutside k.heap.mem heap.mem (heapAddr image).toNat (heapEnd image)
  frees : ∀ m lo hi, heapEnd image ≤ lo → AgreeOutside heap.mem m lo hi →
    ∃ heap', release {heap with mem := m} buf = .ok heap' ∧ Represents image heap' arena ∧
      AgreeOutside m heap'.mem (heapAddr image).toNat (heapEnd image)

section Open

variable {image : KernelImage} {k : Kernel} {name : CString} {arena : HeapArena} {heap : Heap}
  {buf size : Word} {i : Fin 64}

theorem fileBytes_found (at' : findFile k.files name = some i) :
    fileBytes k.files name = (List.ofFn (k.files i).data).take (k.files i).size.toNat := by
  simp only [fileBytes,at']
  rfl

theorem fileBytes_length (fit : SizesFit k.files) (name : CString) :
    (fileBytes k.files name).length = (ramfsSize k.files name).toNat := by
  unfold fileBytes ramfsSize
  cases findFile k.files name with
  | none => rfl
  | some i =>
    have room := fit i
    simp only [fileContents,List.length_take,List.length_ofFn]
    omega

theorem fileBytes_room (k : Kernel) (name : CString) : (fileBytes k.files name).length ≤ 4096 := by
  unfold fileBytes
  cases findFile k.files name with
  | none => simp
  | some i => exact (fileContents (k.files i)).property

theorem release_eq (heap : Heap) (buf : Word) {heap' : Heap} (freed : kfree heap buf = some heap') :
    release heap buf = .ok heap' := by
  simp only [release,freed]

/-- Reading a whole file into a buffer. -/
theorem readInto_whole (fit : SizesFit k.files) (at' : findFile k.files name = some i)
    (heap : Heap) (buf : Word) : ∃ m,
      readInto k.files name heap buf (k.files i).size =
        .ok ({heap with mem := m},(k.files i).size.toInt) ∧
      (∀ j < (fileBytes k.files name).length, pointee m buf j = fileAt k.files name j) ∧
      ∀ x : Word, (fileBytes k.files name).length ≤ (x - buf).toNat → m x = heap.mem x := by
  have length := fileBytes_length fit name
  have room := fit i
  obtain ⟨toRead,count,read⟩ := read_eq at' room (pointee heap.mem buf) (k.files i).size
  obtain rfl : toRead = (k.files i).size := BitVec.eq_of_toNat_eq (by omega)
  rw [← fileBytes_found at'] at read
  refine ⟨fun x => overlay (pointee heap.mem buf) (fileBytes k.files name) (x - buf).toNat,?_,
    fun j inside => ?_,fun x outside => ?_⟩
  · simp only [readInto,read]
  · have small : j < 2^32 := by omega
    simp only [pointee,distance_offset buf small,overlay,fileAt,List.getD_eq_getElem _ _ inside]
  · simp only [overlay,List.getD_eq_default _ _ outside,pointee,offset_distance]

theorem elfValidate_congr {f g : Nat → Byte} (same : ∀ i < headerSize.toNat, f i = g i) (size : Word) :
    elfValidate f size = elfValidate g size := by
  have same (i : Nat) (inside : i < 52) : f i = g i := same i inside
  have magic : identMagic f = identMagic g := by simp only [identMagic,Wire.load32,same,
    Nat.reduceAdd,Nat.reduceLT]
  have type : eType f = eType g := by simp only [eType,Wire.load16,same,Nat.reduceAdd,Nat.reduceLT]
  have machine : eMachine f = eMachine g := by simp only [eMachine,Wire.load16,same,Nat.reduceAdd,
    Nat.reduceLT]
  rw [elfValidate,elfValidate,magic,identClass,identClass,identData,identData,same 4 (by omega),
    same 5 (by omega),type,machine]

/-- A block for `n` bytes, whose return leaves the blocks as they were. -/
structure Lent (image : KernelImage) (h : Heap) (arena : HeapArena) (n : Nat) (heap : Heap) (buf : Word) :
    Prop where
  nonzero : buf ≠ 0
  same : AgreeOutside h.mem heap.mem (heapAddr image).toNat (heapEnd image)
  block : ∃ size next, n ≤ size ∧ (buf.toNat,size) ∈ payloads image next ∧
    Represents image heap next ∧ next.release (heapAddr image).toNat buf.toNat (by decide) = arena

theorem kmalloc_lends {h : Heap} (held : Represents image h arena) {n : Word} (small : n.toNat ≤ 4096) :
    kmalloc image h n = some (h,0) ∨
      ∃ heap buf, kmalloc image h n = some (heap,buf) ∧ Lent image h arena n.toNat heap buf := by
  cases found : arena.allocate 16 (heapAddr image).toNat (align4 n).toNat (by decide) (align4_dvd n) with
  | none => exact .inl (kmalloc_none held n found)
  | some r =>
    obtain ⟨p,next⟩ := r
    obtain ⟨heap,ran,after,same⟩ := kmalloc_some held n found
    obtain ⟨size,left,right,enough,-,used⟩ := used_allocate (Arena.allocate_eq_some found)
    have mine : (p,size) ∈ payloads image next := by
      rw [payloads,used]
      simp
    have bounds := payload_bounds mine
    have high := (heapAddr_bounds image).2
    simp only at bounds
    have value : (BitVec.ofNat 32 p).toNat = p := by
      rw [BitVec.toNat_ofNat,Nat.mod_eq_of_lt (by omega)]
    refine .inr ⟨heap,BitVec.ofNat 32 p,ran,?_,same,size,next,?_,?_,after,?_⟩
    · intro zero
      have null : p = 0 := value.symm.trans (congrArg BitVec.toNat zero)
      omega
    · have aligned := align4_toNat n
      omega
    · rwa [value]
    · rw [value]
      exact Arena.release_allocate (by decide) found

/-- What is written to the block and above the heap stays out of the way of its return. -/
theorem Lent.frees {h : Heap} {n : Nat} (lent : Lent image h arena n heap buf) {m m' : Memory}
    {lo hi : Nat} (written : AgreeOutside heap.mem m buf.toNat (buf.toNat + n))
    (above : heapEnd image ≤ lo) (same : AgreeOutside m m' lo hi) :
    ∃ heap', release {heap with mem := m'} buf = .ok heap' ∧ Represents image heap' arena ∧
      AgreeOutside m' heap'.mem (heapAddr image).toNat (heapEnd image) := by
  obtain ⟨size,next,enough,mine,held,back⟩ := lent.block
  have filled := held.write_payload mine (written.mono (Nat.le_refl _) (by omega))
  obtain ⟨heap',freed,after,kept⟩ := kfree_some (filled.write_above same above) mine
  rw [BitVec.ofNat_toNat,BitVec.setWidth_eq] at freed
  exact ⟨heap',release_eq _ _ freed,back ▸ after,kept⟩

theorem Lent.bounds {h : Heap} {n : Nat} (lent : Lent image h arena n heap buf) :
    (heapAddr image).toNat ≤ buf.toNat ∧ buf.toNat + n ≤ heapEnd image := by
  obtain ⟨size,next,enough,mine,-,-⟩ := lent.block
  have bounds := payload_bounds mine
  simp only [heapEnd] at bounds ⊢
  omega

theorem found_of_exists (found : ramfsExists k.files name ≠ 0) : ∃ i, findFile k.files name = some i := by
  unfold ramfsExists at found
  cases at' : findFile k.files name with
  | none => exact absurd (by simp [at']) found
  | some i => exact ⟨i,rfl⟩

/-- The file that a buffer was filled with, valid or not. -/
theorem buffered_of_lent (fit : SizesFit k.files) (at' : findFile k.files name = some i)
    (lent : Lent image k.heap arena (k.files i).size.toNat heap buf) :
    ∃ m, readInto k.files name heap buf (k.files i).size =
        .ok ({heap with mem := m},(k.files i).size.toInt) ∧
      Buffered image k name arena {heap with mem := m} buf := by
  obtain ⟨m,read,bytes,others⟩ := readInto_whole fit at' heap buf
  have length := fileBytes_length fit name
  have size : ramfsSize k.files name = (k.files i).size := by
    simp only [ramfsSize,at']
  rw [size] at length
  have bounds := lent.bounds
  have high := (heapAddr_bounds image).2
  have written : AgreeOutside heap.mem m buf.toNat (buf.toNat + (k.files i).size.toNat) := by
    intro x outside
    apply (others x _).symm
    simp only [heapEnd] at bounds
    bv_omega
  refine ⟨m,read,bounds.1,by omega,bytes,?_,?_⟩
  · exact lent.same.trans (written.mono bounds.1 bounds.2)
  · intro m' lo hi above same
    exact lent.frees written above same

theorem openFile_cases (held : Represents image k.heap arena) (fit : SizesFit k.files) (name : CString) :
    (∃ heap r, openFile image k name = .ok (.failed heap r) ∧ r < 0 ∧ ¬Enters image k name ∧
      Represents image heap arena ∧
      AgreeOutside k.heap.mem heap.mem (heapAddr image).toNat (heapEnd image)) ∨
    ∃ heap buf, openFile image k name = .ok (.ready heap buf) ∧ Enters image k name ∧
      Buffered image k name arena heap buf := by
  have length := fileBytes_length fit name
  have room := fileBytes_room k name
  have limit : headerSize.toNat = 52 := rfl
  by_cases missing : ramfsExists k.files name = 0
  · refine .inl ⟨k.heap,-1,?_,by omega,fun enters => enters.found missing,held,AgreeOutside.refl _⟩
    simp only [openFile,missing,if_true]
  obtain ⟨i,at'⟩ := found_of_exists missing
  have size : ramfsSize k.files name = (k.files i).size := by
    simp only [ramfsSize,at']
  by_cases short : ramfsSize k.files name < headerSize
  · refine .inl ⟨k.heap,-2,?_,by omega,fun enters => ?_,held,AgreeOutside.refl _⟩
    · simp only [openFile,missing,short,if_true,if_false]
    · have less : (ramfsSize k.files name).toNat < headerSize.toNat := short
      have long := enters.long
      omega
  have long : headerSize.toNat ≤ (ramfsSize k.files name).toNat := not_lt.mp short
  rcases kmalloc_lends held (n := ramfsSize k.files name) (by omega) with full | ⟨lent,buf,ran,given⟩
  · refine .inl ⟨k.heap,-3,?_,by omega,fun enters => ?_,held,AgreeOutside.refl _⟩
    · simp only [openFile,missing,short,full,if_true,if_false]
    · obtain ⟨heap,buf,served,nonzero⟩ := enters.served
      exact nonzero (Prod.mk.inj (Option.some.inj (served.symm.trans full))).2
  rw [size] at given ran short
  obtain ⟨m,read,held'⟩ := buffered_of_lent fit at' given
  have whole : ¬(k.files i).size.toInt < headerSize.toInt := by
    rw [toInt_small (fit i)]
    have least : headerSize.toInt = 52 := rfl
    rw [size] at long
    omega
  have valid : elfValidate (pointee m buf) (k.files i).size =
      elfValidate (fileAt k.files name) (k.files i).size := by
    apply elfValidate_congr
    intro j inside
    exact held'.bytes j (by omega)
  by_cases accepted : elfValidate (fileAt k.files name) (k.files i).size = 0
  · refine .inr ⟨_,buf,?_,⟨missing,by omega,?_,lent,buf,?_,given.nonzero⟩,held'⟩
    · simp only [openFile,missing,short,size,ran,given.nonzero,read,whole,valid,accepted,if_false,
        ne_eq,not_true_eq_false,bind,Except.bind]
    · rwa [size]
    · rwa [size]
  · obtain ⟨heap',freed,after,same⟩ := held'.frees m (heapEnd image) 0 (Nat.le_refl _) (AgreeOutside.refl m)
    refine .inl ⟨heap',-5,?_,by omega,fun enters => ?_,after,held'.same.trans same⟩
    · simp only [openFile,missing,short,size,ran,given.nonzero,read,whole,valid,accepted,if_false,
        ne_eq,not_false_eq_true,bind,Except.bind,freed,if_true]
      rfl
    · exact accepted (size ▸ enters.valid)

theorem opened_enters (held : Represents image k.heap arena) (fit : SizesFit k.files)
    (opened : openFile image k name = .ok (.ready heap buf)) :
    Enters image k name ∧ Buffered image k name arena heap buf := by
  rcases openFile_cases held fit name with ⟨_,_,refused,-⟩ | ⟨heap',buf',opened',enters,file⟩
  · cases opened.symm.trans refused
  · cases opened.symm.trans opened'
    exact ⟨enters,file⟩

end Open

/-- The kernel and the result once all segments are placed and the buffer is given back. -/
def started (sym : ElfSymbols) (k : Kernel) (name : CString) (slot : Fin 8) (heap : Heap) : Kernel × Int :=
  let created := Tasks.taskCreate sym.toSymbols k.sched name (sym.elfRunner slot)
  (⟨heap,k.files,created.1,
      fun j => if j = slot then eEntry (fileAt k.files name) else k.elfEntries j,k.nextElfSlot + 1⟩,
    if created.2 < 0 then -7 else created.2)

/-- Every way in which a call ends. `arena` are the blocks of the heap before it. -/
inductive Ends (image : ElfImage) (sym : ElfSymbols) (k : Kernel) (name : CString) (arena : HeapArena) :
    Except Halt (Kernel × Int) → Prop where
  | refused {heap : Heap} {r : Int} (negative : r < 0) (shut : ¬Enters image.toKernelImage k name)
      (held : Represents image.toKernelImage heap arena)
      (same : AgreeOutside k.heap.mem heap.mem (heapAddr image.toKernelImage).toNat
        (heapEnd image.toKernelImage)) :
      Ends image sym k name arena (.ok ({k with heap := heap},r))
  | overlaps {heap heap' : Heap} {buf : Word} {j : Nat}
      (opened : openFile image.toKernelImage k name = .ok (.ready heap buf))
      (reached : Reaches heap.mem buf j) (stops : StopsAt heap.mem buf j)
      (held : Represents image.toKernelImage heap' arena)
      (same : AgreeOutside (before heap.mem buf j) heap'.mem (heapAddr image.toKernelImage).toNat
        (heapEnd image.toKernelImage)) :
      Ends image sym k name arena (.ok ({k with heap := heap'},-6))
  | halts {heap : Heap} {buf : Word} {j : Nat}
      (opened : openFile image.toKernelImage k name = .ok (.ready heap buf))
      (reached : Reaches heap.mem buf j) (passes : ¬PassesAt heap.mem buf j)
      (stops : ¬StopsAt heap.mem buf j) (e : Halt) : Ends image sym k name arena (.error e)
  | badSlot {heap : Heap} {buf : Word}
      (opened : openFile image.toKernelImage k name = .ok (.ready heap buf))
      (all : ∀ j < (ePhnum (pointee heap.mem buf)).toNat, PassesAt heap.mem buf j)
      (none : entrySlot k.nextElfSlot = none) : Ends image sym k name arena (.error .strayWrite)
  | stored {heap heap' : Heap} {buf : Word} {slot : Fin 8}
      (opened : openFile image.toKernelImage k name = .ok (.ready heap buf))
      (all : ∀ j < (ePhnum (pointee heap.mem buf)).toNat, PassesAt heap.mem buf j)
      (some : entrySlot k.nextElfSlot = some slot)
      (held : Represents image.toKernelImage heap' arena)
      (same : AgreeOutside (before heap.mem buf (ePhnum (pointee heap.mem buf)).toNat) heap'.mem
        (heapAddr image.toKernelImage).toNat (heapEnd image.toKernelImage)) :
      Ends image sym k name arena (.ok (started sym k name slot heap'))

section Call

variable {image : ElfImage} {sym : ElfSymbols} {k : Kernel} {name : CString} {arena : HeapArena}
  {heap : Heap} {buf : Word} {p : Access → Prop}

theorem Buffered.small (held : Buffered image.toKernelImage k name arena heap buf) :
    buf.toNat + (fileBytes k.files name).length ≤ programStart :=
  Nat.le_trans held.high image.below

theorem load_opened (opened : openFile image.toKernelImage k name = .ok (.ready heap buf)) :
    elfLoadAndRun image sym k name = segmentsLoop buf 65535 0 heap.mem >>= fun
      | .overlaps m => lift (release {heap with mem := m} buf) >>= fun heap =>
          pure ({k with heap := heap},-6)
      | .loaded m => lift (startTask sym {k with heap := {heap with mem := m}} name buf) := by
  simp only [elfLoadAndRun,opened]
  rfl

theorem load_ends (held : Represents image.toKernelImage k.heap arena) (fit : SizesFit k.files)
    (sym : ElfSymbols) (name : CString) :
    Ends image sym k name arena (elfLoadAndRun image sym k name).result := by
  rcases openFile_cases held fit name with ⟨heap,r,refused,negative,shut,after,same⟩ |
    ⟨heap,buf,opened,enters,file⟩
  · simp only [elfLoadAndRun,refused]
    exact .refused negative shut after same
  rw [load_opened opened]
  have small := file.small
  have long : 52 ≤ (fileBytes k.files name).length := enters.long
  have ends : LoopEnds heap.mem buf (segmentsLoop buf 65535 0 heap.mem).result :=
    segmentsLoop_ends (by omega) rfl (fun j below => absurd below (Nat.not_lt_zero j)) (Nat.zero_le _)
  generalize ran : (segmentsLoop buf 65535 0 heap.mem).result = result at ends
  cases ends with
  | @overlaps j reached stops =>
    obtain ⟨heap',freed,after,kept⟩ := file.frees _ _ _ image.below (before_keep reached.earlier)
    rw [bind_of_ok ran]
    simp only [freed]
    exact .overlaps opened reached stops after kept
  | halts reached passes stops e =>
    rw [bind_of_error ran]
    exact .halts opened reached passes stops e
  | loaded all =>
    obtain ⟨heap',freed,after,kept⟩ := file.frees _ _ _ image.below (before_keep all)
    obtain ⟨-,-,-,entry⟩ := header_keep (before_keep all) (show buf.toNat + 52 ≤ programStart by omega)
    have whole : eEntry (pointee heap.mem buf) = eEntry (fileAt k.files name) := by
      simp only [eEntry,Wire.load32,file.bytes _ (Nat.lt_of_lt_of_le (by omega : 24 < 52) long),
        file.bytes _ (Nat.lt_of_lt_of_le (by omega : 24 + 1 < 52) long),
        file.bytes _ (Nat.lt_of_lt_of_le (by omega : 24 + 2 < 52) long),
        file.bytes _ (Nat.lt_of_lt_of_le (by omega : 24 + 3 < 52) long)]
    rw [bind_of_ok ran]
    cases slot : entrySlot k.nextElfSlot with
    | none =>
      simp only [lift_result,startTask,slot]
      exact .badSlot opened all slot
    | some slot =>
      simp only [lift_result,startTask,slot,freed,entry,whole]
      exact .stored opened all slot after kept

/-- A call whose loop stops at a segment that overlaps the kernel. -/
theorem load_stops (held : Represents image.toKernelImage k.heap arena) (fit : SizesFit k.files)
    (sym : ElfSymbols) (opened : openFile image.toKernelImage k name = .ok (.ready heap buf)) {j : Nat}
    (reached : Reaches heap.mem buf j) (stops : StopsAt heap.mem buf j) :
    ∃ heap', (elfLoadAndRun image sym k name).result = .ok ({k with heap := heap'},-6) ∧
      AgreeOutside (before heap.mem buf j) heap'.mem (heapAddr image.toKernelImage).toNat
        (heapEnd image.toKernelImage) := by
  have stuck : ¬PassesAt heap.mem buf j := fun passes => passes.not_stopsAt stops
  have ends := load_ends held fit sym name
  generalize (elfLoadAndRun image sym k name).result = result at ends
  cases ends with
  | refused _ shut => exact absurd (opened_enters held fit opened).1 shut
  | overlaps opened' reached' stops' _ same =>
    cases opened.symm.trans opened'
    obtain rfl := reached.last_unique stuck reached' fun passes => passes.not_stopsAt stops'
    exact ⟨_,rfl,same⟩
  | halts opened' reached' passes stops' =>
    cases opened.symm.trans opened'
    obtain rfl := reached.last_unique stuck reached' passes
    exact absurd stops stops'
  | badSlot opened' all =>
    cases opened.symm.trans opened'
    exact absurd (all j reached.listed) stuck
  | stored opened' all =>
    cases opened.symm.trans opened'
    exact absurd (all j reached.listed) stuck

/-- A call whose segments are all placed. -/
theorem load_stored (held : Represents image.toKernelImage k.heap arena) (fit : SizesFit k.files)
    (sym : ElfSymbols) (opened : openFile image.toKernelImage k name = .ok (.ready heap buf))
    {slot : Fin 8} (all : ∀ j < (ePhnum (pointee heap.mem buf)).toNat, PassesAt heap.mem buf j)
    (free : entrySlot k.nextElfSlot = some slot) :
    ∃ heap', (elfLoadAndRun image sym k name).result = .ok (started sym k name slot heap') ∧
      AgreeOutside (before heap.mem buf (ePhnum (pointee heap.mem buf)).toNat) heap'.mem
        (heapAddr image.toKernelImage).toNat (heapEnd image.toKernelImage) := by
  have ends := load_ends held fit sym name
  generalize (elfLoadAndRun image sym k name).result = result at ends
  cases ends with
  | refused _ shut => exact absurd (opened_enters held fit opened).1 shut
  | overlaps opened' reached stops =>
    cases opened.symm.trans opened'
    exact absurd stops (all _ reached.listed).not_stopsAt
  | halts opened' reached passes =>
    cases opened.symm.trans opened'
    exact absurd (all _ reached.listed) passes
  | badSlot _ _ none => cases free.symm.trans none
  | stored opened' _ some _ same =>
    cases opened.symm.trans opened'
    cases free.symm.trans some
    exact ⟨_,rfl,same⟩

/-- Whatever holds of all that a call does holds at every header that it comes to. -/
theorem all_load (opened : openFile image.toKernelImage k name = .ok (.ready heap buf))
    (file : Buffered image.toKernelImage k name arena heap buf)
    (enters : Enters image.toKernelImage k name) :
    (elfLoadAndRun image sym k name).All p ↔ ∀ j, Reaches heap.mem buf j →
      AllAt p (before heap.mem buf j) buf (phdrAddr heap.mem buf j)
        (phdrOffset (pointee heap.mem buf) j) := by
  have small := file.small
  have long : 52 ≤ (fileBytes k.files name).length := enters.long
  have loop : (segmentsLoop buf 65535 0 heap.mem).All p ↔ ∀ j, 0 ≤ j → Reaches heap.mem buf j →
      AllAt p (before heap.mem buf j) buf (phdrAddr heap.mem buf j)
        (phdrOffset (pointee heap.mem buf) j) :=
    all_segmentsLoop (by omega) rfl (fun j below => absurd below (Nat.not_lt_zero j))
  simp only [Nat.zero_le,true_imp_iff] at loop
  rw [load_opened opened,all_bind,← loop]
  apply and_iff_left
  intro progress _
  cases progress with
  | loaded m => exact all_lift _
  | overlaps m => simp [all_bind]

theorem all_load_refused (shut : ¬Enters image.toKernelImage k name)
    (held : Represents image.toKernelImage k.heap arena) (fit : SizesFit k.files) :
    (elfLoadAndRun image sym k name).All p := by
  rcases openFile_cases held fit name with ⟨heap,r,refused,-⟩ | ⟨heap,buf,-,enters,-⟩
  · simp only [elfLoadAndRun,refused]
    exact all_pure _
  · exact absurd enters shut

end Call

end NimrodOS.Elf
