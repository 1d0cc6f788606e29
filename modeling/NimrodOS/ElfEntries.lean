import NimrodOS.ElfRuns
import NimrodOS.TaskTurns

/-! Whether a loaded task begins with its own program. All tasks share the eight entry
slots, and one that waits while eight more entries are stored finds another in its slot. -/
namespace NimrodOS.Elf

open FirstFit Memory Ramfs Transition

/-- In the run, a load makes task `i` from `made`, and a later step is the first to switch to it. -/
structure FirstDispatch (image : ElfImage) (sym : ElfSymbols) (past : List (Kernel × Call))
    (made : Kernel) (name : CString) (i : Fin 16) (between : List (Kernel × Call)) (k : Kernel)
    (op : Tasks.Op) : Prop where
  within : ∃ before after, past = before ++ (made,.load name) :: (between ++ (k,.task op) :: after)
  loaded : ∃ k', (elfLoadAndRun image sym made name).result = .ok (k',(i.val : Int))
  waits : ∀ item ∈ between, dispatched sym item ≠ some i
  switched : dispatched sym (k,.task op) = some i

/-- Whenever a loaded task is first switched to, its runner jumps to the entry of its file. -/
def RunsOwn (image : ElfImage) (sym : ElfSymbols) (past : List (Kernel × Call)) : Prop :=
  ∀ made name i between k op, FirstDispatch image sym past made name i between k op →
    JumpsTo sym {k with sched := (Tasks.step sym.toSymbols k.sched op).1} (programEntry made name)

/-- While it waits, no other entry takes its turn in the ring. -/
def KeepsTurn (image : ElfImage) (sym : ElfSymbols) (past : List (Kernel × Call)) : Prop :=
  ∀ made name i between k op, FirstDispatch image sym past made name i between k op →
    SlotRing.lastTurn 8 (programEntry made name) (storedEntries image.toKernelImage between) =
      programEntry made name

section

variable {image : ElfImage} {sym : ElfSymbols} {made k start last : Kernel} {name : CString}
  {past between : List (Kernel × Call)} {i : Fin 16} {op : Tasks.Op}

/-- What a loaded task begins with. -/
theorem FirstDispatch.jumpsTo_iff (first : FirstDispatch image sym past made name i between k op)
    (sound : Sound image.toKernelImage start) (run : Run (Step image sym) start past last) (target : Word) :
    JumpsTo sym {k with sched := (Tasks.step sym.toSymbols k.sched op).1} target ↔
      SlotRing.lastTurn 8 (programEntry made name) (storedEntries image.toKernelImage between) = target := by
  obtain ⟨before,after,rfl⟩ := first.within
  obtain ⟨lead,next,moved,rest⟩ := run.split
  have here : Sound image.toKernelImage made := run_sound sound lead
  obtain ⟨k',result⟩ := first.loaded
  cases moved with
  | load result' =>
    cases result.symm.trans result'
    obtain ⟨stored,fresh⟩ := load_fresh here result
    have later : Sound image.toKernelImage next := step_sound here (.load result)
    have runner : (Tasks.step sym.toSymbols k.sched op).1.cpu.eip = sym.elfRunner made.ring.slot :=
      (run_fresh later rest.split.1 first.waits fresh).starts first.switched
    have ring := run_ring later rest.split.1
    rw [stored] at ring
    have slot : k.elfEntries made.ring.slot =
        SlotRing.lastTurn 8 (programEntry made name) (storedEntries image.toKernelImage between) := by
      rw [← SlotRing.pushAll_slots made.ring,← ring]
      rfl
    rw [← slot]
    constructor
    · rintro ⟨j,jumps,rfl⟩
      rw [sym.runnersApart (runner.symm.trans jumps)]
    · intro same
      exact ⟨_,runner,same⟩

/-- With fewer than eight loads behind it, a task keeps its slot. -/
theorem keepsTurn_short (few : past.length < 8) : KeepsTurn image sym past := by
  intro made name i between k op first
  obtain ⟨before,after,rfl⟩ := first.within
  apply SlotRing.lastTurn_short
  apply Nat.lt_of_le_of_lt (List.length_filterMap_le _ _)
  simp only [List.length_append,List.length_cons] at few
  omega

end

/-- The loaded tasks of a run begin with their own programs just when, of every eight entries
stored while one of them waits, the last is the entry of its own file. The runner is taken to
read its slot in the step that switches to the task: no tick lets another task load in between. -/
theorem runs_own_iff (image : ElfImage) (sym : ElfSymbols) (start : SoundKernel image.toKernelImage)
    {past : List (Kernel × Call)} {last : Kernel} (run : Run (Step image sym) start.val past last) :
    RunsOwn image sym past ↔ KeepsTurn image sym past := by
  constructor
  · intro owns made name i between k op first
    exact (first.jumpsTo_iff start.property run _).mp (owns made name i between k op first)
  · intro keeps made name i between k op first
    exact (first.jumpsTo_iff start.property run _).mpr (keeps made name i between k op first)

/-! "hello.elf" and "count.elf". -/

theorem progHello_entry : eEntry (progHello.getD · 0) = 0x800054 := by decide

theorem progCount_entry : eEntry (progCount.getD · 0) = 0x810054 := by decide

section Loads

variable {files : Files} {n : Nat} {k : Kernel} {name : CString} {bytes : List Byte}

/-- The first task waits through several loads of a program. -/
theorem Waiting.loadsOf (waiting : Waiting files n k) (fit : SizesFit files)
    (contains : Contains files name bytes) (loadable : Loadable bytes)
    (ready : k.sched.status 1 = .ready) {m : Nat} (few : n + m ≤ 16) : ∃ past k',
      Run (Step default default) k past k' ∧ Waiting files (n + m) k' ∧ k'.sched.status 1 = .ready ∧
      past.map Prod.snd = List.replicate m (.load name) ∧
      storedEntries (default : ElfImage).toKernelImage past = List.replicate m (eEntry (bytes.getD · 0)) := by
  induction m with
  | zero => exact ⟨[],k,.nil,waiting,ready,rfl,rfl⟩
  | succ m ih =>
    obtain ⟨past,k',run,reached,still,calls,entries⟩ := ih (by omega)
    obtain ⟨stores,entry,heap,result,next⟩ := reached.loads (by omega) fit contains loadable
    refine ⟨_,_,run.snoc (.load result),next,started_ready still,?_,?_⟩
    · simp [calls,List.replicate_succ']
    · simp only [storedEntries,List.filterMap_append] at entries ⊢
      simp [entries,storedEntry,stores,entry,List.replicate_succ']

/-- The boot task gives way to task 1. -/
theorem Waiting.switches (waiting : Waiting files n k) (ready : k.sched.status 1 = .ready) :
    dispatched default (k,.task .yield) = some 1 := by
  obtain ⟨next,switched,-,rfl | nearer⟩ :=
    Tasks.schedule_runnable (default : ElfSymbols).toSymbols (.inl ready)
  · exact switched
  · rw [waiting.current] at nearer
    have front : Cyclic.gap (0 : Fin 16) 1 = 1 := rfl
    have positive : 0 < Cyclic.gap next 1 := Cyclic.gap_pos
    omega

end Loads

/-- "hello.elf" is loaded and runs. -/
theorem runs_own_hello : ∃ files past last, programsInstall ramfsInit = .ok files ∧
    past.map Prod.snd = [.load helloElf,.task .yield] ∧
    Run (Step default default) (clearBoot files) past last ∧ RunsOwn default default past := by
  obtain ⟨files,m,installed,ref,hello,-⟩ := programsInstall_refines refines_init (by decide)
  obtain ⟨-,-,heap,result,-⟩ := (clearBoot_waiting files).loads (by decide) ref.fit hello progHello_loadable
  have run := (Run.single (Step.load result)).snoc (.task _ .yield)
  refine ⟨files,_,_,installed,rfl,run,?_⟩
  exact (runs_own_iff default default ⟨clearBoot files,clearBoot_sound ref.fit⟩ run).mpr
    (keepsTurn_short (by simp))

/-- "hello.elf" waits while "count.elf" is loaded eight times. -/
theorem later_load_starts : ∃ files past last, programsInstall ramfsInit = .ok files ∧
    past.map Prod.snd = .load helloElf :: (List.replicate 8 (.load countElf) ++ [.task .yield]) ∧
    Run (Step default default) (clearBoot files) past last ∧ ¬RunsOwn default default past := by
  obtain ⟨files,m,installed,ref,hello,count⟩ := programsInstall_refines refines_init (by decide)
  have boot := clearBoot_waiting files
  obtain ⟨-,entry,heap,result,one⟩ := boot.loads (by decide) ref.fit hello progHello_loadable
  obtain ⟨number,ready⟩ := started_first (k := clearBoot files) rfl heap
  obtain ⟨between,k,run,waiting,still,calls,entries⟩ :=
    one.loadsOf ref.fit count progCount_loadable ready (m := 8) (by decide)
  have whole := Run.cons (.load result) (run.snoc (.task k .yield))
  refine ⟨files,_,_,installed,?_,whole,fun owns => ?_⟩
  · simp [calls]
  have first : FirstDispatch default default _ (clearBoot files) helloElf 1 between k .yield :=
    ⟨⟨[],[],rfl⟩,⟨_,result.trans (congrArg Except.ok (Prod.ext rfl number))⟩,?_,waiting.switches still⟩
  · have jumps := (first.jumpsTo_iff (clearBoot_sound ref.fit) whole _).mp (owns _ _ _ _ _ _ first)
    rw [entries,entry,progHello_entry,progCount_entry] at jumps
    exact absurd jumps (by decide)
  · rintro ⟨state,call⟩ member
    have load : call ∈ between.map Prod.snd := List.mem_map_of_mem member
    rw [calls] at load
    obtain rfl := List.eq_of_mem_replicate load
    simp [dispatched]

end NimrodOS.Elf
