import NimrodOS.Lib.Run
import NimrodOS.Lib.SlotRing
import NimrodOS.ElfTrace
import NimrodOS.TaskContext

/-! Runs of the kernel in which programs are loaded and scheduled, and the entry that a
loaded task begins with. A runner reads it as soon as its task is switched to. -/
namespace NimrodOS.Elf

open ByteMemory FirstFit Memory Ramfs Transition

inductive Call where
  | load (name : CString)
  | task (op : Tasks.Op)
  /-- Whatever else works on the heap and on the files. -/
  | other (heap : Heap) (files : Files)

inductive Step (image : ElfImage) (sym : ElfSymbols) : Kernel → Call → Kernel → Prop where
  | load {k k' : Kernel} {name : CString} {r : Int}
      (result : (elfLoadAndRun image sym k name).result = .ok (k',r)) :
      Step image sym k (.load name) k'
  | task (k : Kernel) (op : Tasks.Op) :
      Step image sym k (.task op) {k with sched := (Tasks.step sym.toSymbols k.sched op).1}
  | other (k : Kernel) {heap : Heap} {files : Files} {arena : HeapArena}
      (held : Represents image.toKernelImage heap arena) (fit : SizesFit files) :
      Step image sym k (.other heap files) {k with heap := heap,files := files}

/-- Where the program of a file begins. -/
def programEntry (k : Kernel) (name : CString) : Word := eEntry (fileAt k.files name)

/-- The call finds a valid file and gets past all of its program headers. -/
def Stores (image : KernelImage) (k : Kernel) (name : CString) : Prop :=
  ∃ heap buf, openFile image k name = .ok (.ready heap buf) ∧
    ∀ j < (ePhnum (pointee heap.mem buf)).toNat, PassesAt heap.mem buf j

/-! Whether it does can be computed. -/

section Decide

variable {m : Memory} {buf phdr : Word} {j : Nat}

instance : Decidable (Skips m phdr) := inferInstanceAs (Decidable (_ ∧ _))

instance : Decidable (Loads m phdr) := inferInstanceAs (Decidable (_ ∧ _))

instance : Decidable (Comes m phdr) := inferInstanceAs (Decidable (_ ∧ _))

instance : Decidable (CanCopy m buf phdr) :=
  decidable_of_iff (_ ∧ _ ∧ _) ⟨fun ⟨seen,dest,src⟩ => ⟨seen,dest,src⟩,fun can => ⟨can.seen,can.dest,can.src⟩⟩

instance : Decidable (CanFill m phdr) :=
  decidable_of_iff (_ ∧ _) ⟨fun ⟨seen,dest⟩ => ⟨seen,dest⟩,fun can => ⟨can.seen,can.dest⟩⟩

instance : Decidable (PassesAt m buf j) := inferInstanceAs (Decidable (_ ∨ _ ∧ _ ∧ _))

instance (image : KernelImage) (k : Kernel) (name : CString) : Decidable (Stores image k name) :=
  match opened : openFile image k name with
  | .ok (.ready heap buf) =>
    decidable_of_iff (∀ j < (ePhnum (pointee heap.mem buf)).toNat, PassesAt heap.mem buf j) <| by
      simp [Stores,opened]
  | .ok (.failed heap r) => isFalse <| by simp [Stores,opened]
  | .error e => isFalse <| by simp [Stores,opened]

end Decide

/-- The entry that a step puts into its slot. -/
def storedEntry (image : KernelImage) : Kernel × Call → Option Word
  | (k,.load name) => if Stores image k name then some (programEntry k name) else none
  | (_,.task _) | (_,.other _ _) => none

def storedEntries (image : KernelImage) (past : List (Kernel × Call)) : List Word :=
  past.filterMap (storedEntry image)

/-- The task that a step switches to. -/
def dispatched (sym : ElfSymbols) : Kernel × Call → Option (Fin 16)
  | (k,.task op) => (Tasks.step sym.toSymbols k.sched op).2
  | (_,.load _) | (_,.other _ _) => none

/-- The entry slots in the order in which they are filled. -/
def Kernel.ring (k : Kernel) : SlotRing 8 Word := ⟨k.elfEntries,k.nextElfSlot.toNat⟩

/-- The CPU is at a runner, which jumps to that address if it reads its slot before anything else
is stored there. -/
def JumpsTo (sym : ElfSymbols) (k : Kernel) (target : Word) : Prop :=
  ∃ slot, k.sched.cpu.eip = sym.elfRunner slot ∧ k.elfEntries slot = target

section Steps

variable {image : ElfImage} {sym : ElfSymbols} {k k' start last : Kernel} {name : CString} {r : Int}
  {call : Call} {past : List (Kernel × Call)} {i : Fin 16} {entry : Word} {slot : Fin 8}
  {arena : HeapArena}

/-- A call that returns, by what it did to the slots. -/
theorem load_cases (held : Represents image.toKernelImage k.heap arena) (fit : SizesFit k.files)
    (result : (elfLoadAndRun image sym k name).result = .ok (k',r)) :
    ∃ heap, Represents image.toKernelImage heap arena ∧
      (¬Stores image.toKernelImage k name ∧ k' = {k with heap := heap} ∧ r < 0 ∨
      Stores image.toKernelImage k name ∧ ∃ slot, entrySlot k.nextElfSlot = some slot ∧
        (k',r) = started sym k name slot heap) := by
  have ends := load_ends held fit sym name
  rw [result] at ends
  cases ends with
  | refused negative shut held' =>
    refine ⟨_,held',.inl ⟨?_,rfl,negative⟩⟩
    rintro ⟨heap,buf,opened,-⟩
    exact shut (opened_enters held fit opened).1
  | overlaps opened reached stops held' =>
    refine ⟨_,held',.inl ⟨?_,rfl,by omega⟩⟩
    rintro ⟨heap,buf,opened',all⟩
    cases opened.symm.trans opened'
    exact (all _ reached.listed).not_stopsAt stops
  | stored opened all free held' => exact ⟨_,held',.inr ⟨⟨_,_,opened,all⟩,_,free,rfl⟩⟩

/-- Once it gets to a slot, it returns. -/
theorem stores_loads (held : Represents image.toKernelImage k.heap arena) (fit : SizesFit k.files)
    (sym : ElfSymbols) (stores : Stores image.toKernelImage k name)
    (free : entrySlot k.nextElfSlot = some slot) : ∃ heap, Represents image.toKernelImage heap arena ∧
      (elfLoadAndRun image sym k name).result = .ok (started sym k name slot heap) := by
  obtain ⟨heap,buf,opened,all⟩ := stores
  obtain ⟨_,result,-⟩ := load_stored held fit sym opened all free
  obtain ⟨heap',held',⟨refused,-⟩ | ⟨-,slot',free',same⟩⟩ := load_cases held fit result
  · exact absurd ⟨heap,buf,opened,all⟩ refused
  · obtain rfl := Option.some.inj (free.symm.trans free')
    exact ⟨heap',held',same ▸ result⟩

theorem entrySlot_some {w : Word} (free : entrySlot w = some slot) :
    slot = Fin.ofNat 8 w.toNat ∧ (w + 1).toNat = w.toNat + 1 := by
  simp only [entrySlot] at free
  split_ifs at free with inside
  obtain rfl := Option.some.inj free
  have signed : w.toInt.tmod 8 = (w.toNat % 8 : Nat) ∧ w.toNat + 1 < 2^32 := by
    rw [BitVec.toInt_eq_toNat_cond,Int.tmod_eq_emod] at inside ⊢
    split_ifs at inside ⊢ <;> omega
  constructor
  · apply Fin.ext
    simp only [signed.1,Fin.val_ofNat]
    omega
  · bv_omega

theorem started_ring (free : entrySlot k.nextElfSlot = some slot) (heap : Heap) :
    (started sym k name slot heap).1.ring = k.ring.push (programEntry k name) := by
  obtain ⟨rfl,next⟩ := entrySlot_some free
  simp only [Kernel.ring,started,SlotRing.push,next]
  rfl

theorem step_sound (sound : Sound image.toKernelImage k) (moved : Step image sym k call k') :
    Sound image.toKernelImage k' := by
  cases moved with
  | load result =>
    obtain ⟨arena,before⟩ := sound.heap
    obtain ⟨heap,held,⟨-,rfl,-⟩ | ⟨-,slot,-,same⟩⟩ := load_cases before sound.files result
    · exact ⟨⟨arena,held⟩,sound.files,sound.current⟩
    · obtain ⟨rfl,-⟩ := Prod.mk.inj same
      exact ⟨⟨arena,held⟩,sound.files,
        Tasks.step_current sym.toSymbols (.create _ (sym.elfRunner slot)) sound.current⟩
  | task op => exact ⟨sound.heap,sound.files,Tasks.step_current sym.toSymbols op sound.current⟩
  | other held fit => exact ⟨⟨_,held⟩,fit,sound.current⟩

/-- A step puts at most one entry into the ring. -/
theorem step_ring (sound : Sound image.toKernelImage k) (moved : Step image sym k call k') :
    k'.ring = k.ring.pushAll (storedEntry image.toKernelImage (k,call)).toList := by
  cases moved with
  | load result =>
    obtain ⟨arena,held⟩ := sound.heap
    obtain ⟨heap,-,⟨refused,rfl,-⟩ | ⟨stores,slot,free,same⟩⟩ := load_cases held sound.files result
    · simp only [storedEntry,refused,if_false]
      rfl
    · obtain ⟨rfl,-⟩ := Prod.mk.inj same
      simp only [storedEntry,stores,if_true]
      exact started_ring free heap
  | task | other => rfl

theorem run_sound (sound : Sound image.toKernelImage start) (run : Run (Step image sym) start past last) :
    Sound image.toKernelImage last :=
  run.invariant sound fun _ _ _ before moved => step_sound before moved

theorem run_ring (sound : Sound image.toKernelImage start) (run : Run (Step image sym) start past last) :
    last.ring = start.ring.pushAll (storedEntries image.toKernelImage past) := by
  induction run with
  | nil => rfl
  | @snoc past state next call prior moved ih =>
    rw [step_ring (run_sound sound prior) moved,ih,storedEntries,storedEntries,List.filterMap_append,
      SlotRing.pushAll_append]
    simp only [List.filterMap_cons,List.filterMap_nil]
    cases storedEntry image.toKernelImage (state,call) <;> rfl

/-- Nothing but its own dispatch makes a loaded task start. -/
theorem step_fresh (sound : Sound image.toKernelImage k) (moved : Step image sym k call k')
    (waits : dispatched sym (k,call) ≠ some i) (fresh : Tasks.Fresh k.sched i entry) :
    Tasks.Fresh k'.sched i entry := by
  cases moved with
  | load result =>
    obtain ⟨arena,held⟩ := sound.heap
    obtain ⟨heap,-,⟨-,rfl,-⟩ | ⟨-,slot,-,same⟩⟩ := load_cases held sound.files result
    · exact fresh
    · obtain ⟨rfl,-⟩ := Prod.mk.inj same
      exact fresh.taskCreate
  | task op => exact fresh.step waits
  | other => exact fresh

theorem run_fresh (sound : Sound image.toKernelImage start) (run : Run (Step image sym) start past last)
    (waits : ∀ item ∈ past, dispatched sym item ≠ some i) (fresh : Tasks.Fresh start.sched i entry) :
    Tasks.Fresh last.sched i entry := by
  have kept : ∀ k call k', Sound image.toKernelImage k ∧ Tasks.Fresh k.sched i entry →
      dispatched sym (k,call) ≠ some i → Step image sym k call k' →
      Sound image.toKernelImage k' ∧ Tasks.Fresh k'.sched i entry := by
    intro k call k' before waits moved
    exact ⟨step_sound before.1 moved,step_fresh before.1 moved waits before.2⟩
  exact (run.invariant_under ⟨sound,fresh⟩ kept waits).2

/-- A call that returns a task number has put its entry into the ring, with a task for it. -/
theorem load_fresh (sound : Sound image.toKernelImage k)
    (result : (elfLoadAndRun image sym k name).result = .ok (k',(i.val : Int))) :
    k'.ring = k.ring.push (programEntry k name) ∧ Tasks.Fresh k'.sched i (sym.elfRunner k.ring.slot) := by
  obtain ⟨arena,held⟩ := sound.heap
  obtain ⟨heap,-,⟨-,-,negative⟩ | ⟨-,slot,free,same⟩⟩ := load_cases held sound.files result
  · omega
  obtain ⟨rfl,number⟩ := Prod.mk.inj same
  refine ⟨started_ring free heap,?_⟩
  obtain ⟨rfl,-⟩ := entrySlot_some free
  cases found : Tasks.unusedSlot k.sched with
  | none =>
    have negative : (started sym k name k.ring.slot heap).2 < 0 := started_full heap found
    exact absurd (number ▸ negative : (i.val : Int) < 0) (by omega)
  | some j =>
    have fresh := Tasks.taskCreate_fresh sym.toSymbols name (sym.elfRunner k.ring.slot) sound.current found
    simp only [Tasks.taskCreate,found] at number
    obtain rfl : i = j := by omega
    exact fresh

end Steps

/-! Programs that are loaded whenever the heap is free. -/

/-- A valid file all of whose segments can be placed. -/
structure Loadable (bytes : List Byte) : Prop where
  long : headerSize.toNat ≤ bytes.length
  small : bytes.length ≤ 4096
  valid : elfValidate (bytes.getD · 0) (BitVec.ofNat 32 bytes.length) = 0
  headers : ∀ i < (ePhnum (bytes.getD · 0)).toNat, HeaderInside (bytes.getD · 0) bytes.length i ∧
    ((filePhdr (bytes.getD · 0) i).type = ptLoad → ¬(filePhdr (bytes.getD · 0) i).Overlaps ∧
      (filePhdr (bytes.getD · 0) i).Fits ∧ (filePhdr (bytes.getD · 0) i).Inside 4096)

section Programs

variable {image : ElfImage} {sym : ElfSymbols} {k : Kernel} {name : CString} {bytes : List Byte}

theorem Contains.entry (contains : Contains k.files name bytes) :
    programEntry k name = eEntry (bytes.getD · 0) := by
  rw [programEntry,contains.fileAt_eq]

theorem Contains.stores (contains : Contains k.files name bytes) (loadable : Loadable bytes)
    (held : Represents image.toKernelImage k.heap freshArena) (fit : SizesFit k.files) :
    Stores image.toKernelImage k name := by
  have enters : Enters image.toKernelImage k name := by
    apply fresh_enters held fit contains.found
    · rw [contains.bytes]
      exact loadable.long
    · rw [contains.bytes,contains.fileAt_eq]
      exact loadable.valid
  rcases openFile_cases held fit name with ⟨-,-,-,-,shut,-⟩ | ⟨heap,buf,opened,-,file⟩
  · exact absurd enters shut
  have copy := contains.copy file enters
  refine ⟨heap,buf,opened,fun j => ?_⟩
  rw [copy.header.1]
  induction j using Nat.strong_induction_on with
  | h j ih =>
    intro listed
    have earlier : ∀ l < j, PassesAt heap.mem buf l := fun l less => ih l less (Nat.lt_trans less listed)
    obtain ⟨inside,fits⟩ := loadable.headers j listed
    apply (copy.passes_iff inside (before_keep earlier) ?_).mpr
    · intro load
      exact ⟨(fits load).1,(fits load).2.1⟩
    · intro load
      have small := copy.small
      have source := (fits load).2.2
      have start : programStart = 0x600000 := rfl
      have top : ramEnd = 0x1000000 := rfl
      rcases source with none | source
      · exact .inl none
      · right
        rw [BitVec.toNat_add]
        omega

end Programs

/-! Programs loaded one after the other. -/

theorem progHello_loadable : Loadable progHello where
  long := by rw [progHello_length]; decide
  small := by rw [progHello_length]; decide
  valid := by rw [progHello_length]; exact progHello_valid
  headers := by rw [progHello_length,progHello_header.1]; decide

theorem progCount_loadable : Loadable progCount where
  long := by rw [progCount_length]; decide
  small := by rw [progCount_length]; decide
  valid := by rw [progCount_length]; decide
  headers := by rw [progCount_length]; decide

/-- The kernel after `n` loads that the boot task made. -/
structure Waiting (files : Files) (n : Nat) (k : Kernel) : Prop where
  held : Represents (default : ElfImage).toKernelImage k.heap freshArena
  files : k.files = files
  next : k.nextElfSlot = BitVec.ofNat 32 n
  current : k.sched.currentTask = 0

section Loads

variable {files : Files} {n : Nat} {k : Kernel} {name : CString} {bytes : List Byte}

theorem clearBoot_waiting (files : Files) : Waiting files 0 (clearBoot files) where
  held := memoryInit_represents _ _
  files := rfl
  next := rfl
  current := rfl

theorem entrySlot_small : ∀ n < 16, entrySlot (BitVec.ofNat 32 n) = some (Fin.ofNat 8 n) := by decide

theorem Waiting.loads (waiting : Waiting files n k) (few : n < 16) (fit : SizesFit files)
    (contains : Contains files name bytes) (loadable : Loadable bytes) :
    Stores (default : ElfImage).toKernelImage k name ∧ programEntry k name = eEntry (bytes.getD · 0) ∧
    ∃ heap, let done := started default k name (Fin.ofNat 8 n) heap
      (elfLoadAndRun default default k name).result = .ok done ∧ Waiting files (n + 1) done.1 := by
  obtain rfl := waiting.files
  have stores := contains.stores loadable waiting.held fit
  have free : entrySlot k.nextElfSlot = some (Fin.ofNat 8 n) := by
    rw [waiting.next]
    exact entrySlot_small n few
  obtain ⟨heap,held,result⟩ := stores_loads waiting.held fit default stores free
  refine ⟨stores,contains.entry,heap,result,held,rfl,?_,?_⟩
  · simp only [started,waiting.next]
    bv_omega
  · exact Tasks.currentTask_taskCreate.trans waiting.current

/-- A load leaves a task that waits where it is. -/
theorem started_ready {sym : ElfSymbols} {slot : Fin 8} {heap : Heap} {i : Fin 16}
    (ready : k.sched.status i = .ready) : (started sym k name slot heap).1.sched.status i = .ready := by
  refine Tasks.status_taskCreate.trans ?_
  rw [ready,ite_self]

/-- The first task is number 1. -/
theorem started_first {sym : ElfSymbols} {slot : Fin 8} (fresh : k.sched = Tasks.taskInit default) (heap : Heap) :
    (started sym k name slot heap).2 = ((1 : Fin 16).val : Int) ∧
      (started sym k name slot heap).1.sched.status 1 = .ready := by
  have free : Tasks.unusedSlot k.sched = some 1 := by
    rw [fresh]
    decide +kernel
  constructor
  · simp only [started,Tasks.taskCreate,free]
    rfl
  · exact Tasks.status_taskCreate.trans (if_pos free)

end Loads

end NimrodOS.Elf
