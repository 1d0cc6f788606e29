import Mathlib.Data.Fintype.Card
import NimrodOS.Lib.Bits
import NimrodOS.MemoryRuns
import NimrodOS.Paging

/-! Who owns a frame. Frames are handed out in order, from the end of the heap on, and each
is the page table of one directory entry behind the first four. -/
namespace NimrodOS.Paging

open ByteMemory Memory

/-- The frames below `first` are reserved, and `count` more are handed out. -/
structure Counted (f : Frames) (first count : Nat) : Prop where
  start : f.firstFreeFrame.toNat = first
  room : first + count ≤ totalFrames
  taken : ∀ i : Fin totalFrames, bitmapTest f.frameBitmap i = true ↔ i.val < first + count

/-- The table of this directory entry is a frame of `pmm_alloc_frame`. -/
def Handed (p : Tables) (i : Fin 1024) : Prop := 4 ≤ i.val ∧ p.pageDirectory i &&& ptePresent ≠ 0

instance (p : Tables) (i : Fin 1024) : Decidable (Handed p i) := inferInstanceAs (Decidable (_ ∧ _))

/-- How many page tables were made. -/
def tableCount (p : Tables) : Nat := (Finset.univ.filter (Handed p)).card

/-- A byte of one of them. -/
def TableByte (p : Tables) (x : Word) : Prop :=
  ∃ i, Handed p i ∧ x.toNat / 4096 = (p.pageDirectory i).toNat / 4096

/-- The frame behind the heap. -/
def firstFrame (image : KernelImage) : Nat := heapEnd image / 4096

/-- `owners` are the directory entries in the order in which they got their tables. -/
structure Mapped (image : PagingImage) (p : Tables) (owners : List (Fin 1024)) : Prop where
  counted : Counted p.frames (firstFrame image.toKernelImage) owners.length
  distinct : owners.Nodup
  handed : ∀ i, Handed p i ↔ i ∈ owners
  frame : ∀ (n : Nat) (inside : n < owners.length),
    (p.pageDirectory owners[n]).toNat / 4096 = firstFrame image.toKernelImage + n
  low : ∀ i : Fin 1024, i.val < 4 → p.pageDirectory i &&& ptePresent ≠ 0 ∧
    (p.pageDirectory i).toNat / 4096 = image.identityTables.toNat / 4096 + i.val

section Frames

variable {f : Frames} {first count : Nat}

theorem bitmapTest_set (frameBitmap : Fin 512 → Byte) (frame : Nat) (i : Fin totalFrames) :
    bitmapTest (bitmapSet frameBitmap frame) i = (decide (i.val = frame) || bitmapTest frameBitmap i) := by
  have small (n : Nat) : n % 8 < 8 := Nat.mod_lt n (by decide)
  simp only [bitmapTest,bitmapSet,Bits.and_mask _ (small _)]
  by_cases byte : i.val / 8 = frame / 8
  · have same : frame % 8 = i.val % 8 ↔ i.val = frame := by omega
    rw [if_pos byte,Bits.or_mask _ (small _)]
    simp only [same]
  · have other : i.val ≠ frame := fun same => byte (congrArg (· / 8) same)
    simp [byte,other]

theorem bitmapTest_reserve (n : Nat) (i : Fin totalFrames) :
    bitmapTest ((List.range n).foldl bitmapSet fun _ => 0) i = decide (i.val < n) := by
  induction n with
  | zero => simp [bitmapTest]
  | succ n ih =>
    rw [List.range_succ,List.foldl_append,List.foldl_cons,List.foldl_nil,bitmapTest_set,ih,
      ← Bool.decide_or,decide_eq_decide]
    omega

theorem pmmInit_counted {kernelEnd : Word} {n : Nat} (aligned : kernelEnd.toNat = 4096 * n)
    (inside : n ≤ totalFrames) : Counted (pmmInit kernelEnd) n 0 := by
  have reserved : ((kernelEnd + pageSize - 1) / pageSize).toNat = n := by
    have limit : totalFrames = 4096 := rfl
    have size : pageSize.toNat = 4096 := rfl
    have top : (kernelEnd + pageSize - 1).toNat = 4096 * n + 4095 := by bv_omega
    rw [BitVec.toNat_udiv,top,size]
    omega
  refine ⟨reserved,inside,fun i => ?_⟩
  simp only [pmmInit,reserved,bitmapTest_reserve,decide_eq_true_eq,Nat.add_zero]

theorem freeFrame_some (counted : Counted f first count) (room : first + count < totalFrames) :
    freeFrame f = some ⟨first + count,room⟩ := by
  unfold freeFrame
  rw [Fin.find?_eq_some_iff]
  have last := counted.taken ⟨first + count,room⟩
  refine ⟨?_,fun j below => ?_⟩
  · simp [counted.start] at last ⊢
    exact last
  · have taken := (counted.taken j).mpr below
    simp [taken]

theorem freeFrame_none (counted : Counted f first count) (full : ¬first + count < totalFrames) :
    freeFrame f = none := by
  unfold freeFrame
  rw [Fin.find?_eq_none_iff]
  intro i
  have taken := (counted.taken i).mpr (by omega)
  simp [taken]

/-- The next frame in order, as long as there is one. -/
theorem pmmAllocFrame_cases (counted : Counted f first count) :
    (first + count < totalFrames ∧ ∃ f', Counted f' first (count + 1) ∧
      pmmAllocFrame f = (f',BitVec.ofNat 32 ((first + count) * 4096))) ∨
    pmmAllocFrame f = (f,0) := by
  by_cases room : first + count < totalFrames
  · have next : Counted ⟨bitmapSet f.frameBitmap (first + count),f.firstFreeFrame⟩ first (count + 1) := by
      refine ⟨counted.start,by omega,fun i => ?_⟩
      rw [bitmapTest_set,Bool.or_eq_true,decide_eq_true_eq,counted.taken]
      omega
    exact .inl ⟨room,_,next,by rw [pmmAllocFrame,freeFrame_some counted room]⟩
  · exact .inr (by rw [pmmAllocFrame,freeFrame_none counted room])

end Frames

section Tables

variable {image : PagingImage} {p : Tables} {owners : List (Fin 1024)} {m : Memory} {x : Word}

theorem firstFrame_mul (image : KernelImage) : firstFrame image * 4096 = heapEnd image := by
  have value := roundUp_toNat image.kernelEnd 12 (by decide)
  have size : heapSize.toNat = 4194304 := rfl
  have same : (heapAddr image).toNat = (image.kernelEnd.toNat + 4095) % 4294967296 / 4096 * 4096 := value
  rw [firstFrame,heapEnd]
  omega

theorem kernelEnd_le (image : KernelImage) : image.kernelEnd.toNat ≤ (heapAddr image).toNat := by
  have room := image.room
  have size : heapSize.toNat = 4194304 := rfl
  have value := roundUp_toNat image.kernelEnd 12 (by decide)
  have same : (heapAddr image).toNat = (image.kernelEnd.toNat + 4095) % 4294967296 / 4096 * 4096 := value
  omega

theorem Mapped.tableCount (mapped : Mapped image p owners) : tableCount p = owners.length := by
  have same : Finset.univ.filter (Handed p) = owners.toFinset := by
    ext i
    simp [mapped.handed]
  rw [Paging.tableCount,same,List.toFinset_card_of_nodup mapped.distinct]

theorem flags_small (flags : Word) :
    (ptePresent ||| (pteWritable ||| (flags &&& pteUser))).toNat < 2^12 := by
  have user : (flags &&& pteUser).toNat ≤ 4 := by
    rw [BitVec.toNat_and]
    exact Nat.and_le_right
  rw [BitVec.toNat_or,BitVec.toNat_or]
  exact Nat.or_lt_two_pow (by decide) (Nat.or_lt_two_pow (by decide) (by omega))

/-- The entry of a new table. -/
theorem tableEntry_present (a flags : Word) : tableEntry a flags &&& ptePresent ≠ 0 := by
  rw [tableEntry,BitVec.or_assoc,Bits.or_flag]
  decide

theorem tableEntry_frame (a flags : Word) : (tableEntry a flags).toNat / 4096 = a.toNat / 4096 := by
  have kept : (a ||| _).toNat / 2^12 = a.toNat / 2^12 := Bits.or_div (flags_small flags)
  simp only [Nat.reducePow] at kept
  rw [tableEntry,BitVec.or_assoc,BitVec.or_assoc,kept]

theorem frame_toNat (image : PagingImage) {n : Nat}
    (room : firstFrame image.toKernelImage + n < totalFrames) :
    (BitVec.ofNat 32 ((firstFrame image.toKernelImage + n) * 4096)).toNat =
      (firstFrame image.toKernelImage + n) * 4096 := by
  have limit : totalFrames = 4096 := rfl
  rw [BitVec.toNat_ofNat]
  omega

theorem frame_nonzero (image : PagingImage) {n : Nat}
    (room : firstFrame image.toKernelImage + n < totalFrames) :
    BitVec.ofNat 32 ((firstFrame image.toKernelImage + n) * 4096) ≠ 0 := by
  have behind := firstFrame_mul image.toKernelImage
  have positive := (heapAddr_bounds image.toKernelImage).1
  have address := frame_toNat image room
  intro zero
  have none : (BitVec.ofNat 32 ((firstFrame image.toKernelImage + n) * 4096)).toNat = 0 := by
    rw [zero]
    rfl
  unfold heapEnd at behind
  omega

theorem pageTable_present (m : Memory) (flags : Word) {dir : Fin 1024}
    (present : p.pageDirectory dir &&& ptePresent ≠ 0) : pageTable p m dir flags = some (p,m) :=
  if_pos present

theorem pageTable_full (m : Memory) (flags : Word) {dir : Fin 1024}
    (missing : p.pageDirectory dir &&& ptePresent = 0) (full : pmmAllocFrame p.frames = (p.frames,0)) :
    pageTable p m dir flags = none := by
  unfold pageTable
  rw [if_neg (not_not.mpr missing),full]
  exact if_pos rfl

theorem pageTable_new (m : Memory) (flags : Word) {dir : Fin 1024} {frames : Frames} {tableFrame : Word}
    (missing : p.pageDirectory dir &&& ptePresent = 0) (given : pmmAllocFrame p.frames = (frames,tableFrame))
    (nonzero : tableFrame ≠ 0) : pageTable p m dir flags =
      some (setEntry p frames dir (tableEntry tableFrame flags),clearFrame m tableFrame) := by
  unfold pageTable
  rw [if_neg (not_not.mpr missing),given]
  exact if_neg nonzero

theorem setEntry_same {frames : Frames} {dir : Fin 1024} {entry : Word} :
    (setEntry p frames dir entry).pageDirectory dir = entry := if_pos rfl

theorem setEntry_other {frames : Frames} {dir i : Fin 1024} {entry : Word} (other : i ≠ dir) :
    (setEntry p frames dir entry).pageDirectory i = p.pageDirectory i := if_neg other

/-- One more table, in the next frame. -/
theorem Mapped.grow (mapped : Mapped image p owners) {dir : Fin 1024} {frames : Frames} (flags : Word)
    (missing : p.pageDirectory dir &&& ptePresent = 0)
    (room : firstFrame image.toKernelImage + owners.length < totalFrames)
    (counted : Counted frames (firstFrame image.toKernelImage) (owners.length + 1)) :
    Mapped image (setEntry p frames dir (tableEntry
      (BitVec.ofNat 32 ((firstFrame image.toKernelImage + owners.length) * 4096)) flags))
      (owners ++ [dir]) := by
  have fresh : dir ∉ owners := fun member => ((mapped.handed dir).mpr member).2 missing
  have high : 4 ≤ dir.val := by
    by_contra low
    exact (mapped.low dir (by omega)).1 missing
  constructor
  · rwa [List.length_append]
  · exact mapped.distinct.append (List.nodup_singleton dir) (by simpa using fresh)
  · intro i
    by_cases same : i = dir
    · subst same
      simpa [Handed,high,setEntry_same] using tableEntry_present _ flags
    · rw [List.mem_append,← mapped.handed,Handed,Handed,setEntry_other same]
      simp [same]
  · intro n inside
    by_cases before : n < owners.length
    · have other : owners[n] ≠ dir := by
        rintro rfl
        exact fresh (List.getElem_mem before)
      rw [List.getElem_append_left before,setEntry_other other]
      exact mapped.frame n before
    · obtain rfl : n = owners.length := by
        rw [List.length_append,List.length_singleton] at inside
        omega
      rw [List.getElem_concat_length rfl,setEntry_same,tableEntry_frame,frame_toNat image room]
      omega
  · intro i low
    have other : i ≠ dir := by
      rintro rfl
      omega
    rw [setEntry_other other]
    exact mapped.low i low

/-- Looking for a page table makes at most one, from the next frame. -/
theorem pageTable_mapped (mapped : Mapped image p owners) {dir : Fin 1024} {flags : Word} {p' : Tables}
    {m' : Memory} (found : pageTable p m dir flags = some (p',m')) :
    ∃ owners', Mapped image p' owners' ∧ owners'.length ≤ owners.length + 1 ∧
      p'.pageDirectory dir &&& ptePresent ≠ 0 ∧
      Agree m m' (heapAddr image.toKernelImage).toNat (heapEnd image.toKernelImage) := by
  by_cases missing : p.pageDirectory dir &&& ptePresent = 0
  · obtain ⟨room,frames,counted,given⟩ | full := pmmAllocFrame_cases mapped.counted
    · cases (pageTable_new m flags missing given (frame_nonzero image room)).symm.trans found
      refine ⟨owners ++ [dir],mapped.grow flags missing room counted,by simp,?_,?_⟩
      · rw [setEntry_same]
        exact tableEntry_present _ flags
      · have limit : totalFrames = 4096 := rfl
        have size : pageSize.toNat = 4096 := rfl
        have address := frame_toNat image room
        have behind := firstFrame_mul image.toKernelImage
        apply (fillBytes_outside 0 (by omega)).agree
        omega
    · cases (pageTable_full m flags missing full).symm.trans found
  · cases (pageTable_present m flags missing).symm.trans found
    exact ⟨owners,mapped,Nat.le_succ _,missing,fun _ _ _ => rfl⟩

/-- A table lies in the kernel or behind the heap. -/
theorem Mapped.table_place (mapped : Mapped image p owners) {dir : Fin 1024}
    (present : p.pageDirectory dir &&& ptePresent ≠ 0) :
    (p.pageDirectory dir).toNat / 4096 * 4096 + 4096 ≤ (heapAddr image.toKernelImage).toNat ∨
      heapEnd image.toKernelImage ≤ (p.pageDirectory dir).toNat / 4096 * 4096 := by
  by_cases low : dir.val < 4
  · have frame := (mapped.low dir low).2
    have aligned := image.aligned
    have static := image.static
    have kernel := kernelEnd_le image.toKernelImage
    omega
  · obtain ⟨n,inside,same⟩ := List.mem_iff_getElem.mp ((mapped.handed dir).mp ⟨by omega,present⟩)
    have frame := mapped.frame n inside
    have behind := firstFrame_mul image.toKernelImage
    rw [same] at frame
    omega

/-- Where the entry for a page lies in its table. -/
theorem entryAddr_toNat (entry virtualAddr : Word) :
    (tableIndex virtualAddr).toNat < 1024 ∧
      ((entry &&& 0xFFFFF000) + 4 * tableIndex virtualAddr).toNat =
        entry.toNat / 4096 * 4096 + 4 * (tableIndex virtualAddr).toNat := by
  have table := clearLow_toNat entry 12
  have mask : ~~~BitVec.ofNat 32 (2^12 - 1) = 0xFFFFF000 := by decide
  rw [mask] at table
  simp only [Nat.reducePow] at table
  have index : (tableIndex virtualAddr).toNat ≤ 1023 := by
    rw [tableIndex,BitVec.toNat_and]
    exact Nat.and_le_right
  have four : (4 : Word).toNat = 4 := rfl
  refine ⟨by omega,?_⟩
  rw [BitVec.toNat_add,BitVec.toNat_mul,table,four]
  omega

/-- A mapping is written to the tables of the kernel or behind the heap. -/
theorem vmmMapPage_mapped (mapped : Mapped image p owners) (m : Memory) (virtualAddr physicalAddr flags : Word) :
    ∃ owners', Mapped image (vmmMapPage p m virtualAddr physicalAddr flags).1 owners' ∧
      owners'.length ≤ owners.length + 1 ∧
      Agree m (vmmMapPage p m virtualAddr physicalAddr flags).2 (heapAddr image.toKernelImage).toNat
        (heapEnd image.toKernelImage) := by
  simp only [vmmMapPage]
  cases found : pageTable p m (dirIndex virtualAddr) flags with
  | none => exact ⟨owners,mapped,Nat.le_succ _,fun _ _ _ => rfl⟩
  | some r =>
    obtain ⟨p',m'⟩ := r
    obtain ⟨owners',mapped',few,present,same⟩ := pageTable_mapped mapped found
    refine ⟨owners',mapped',few,fun x above below => (same x above below).trans ?_⟩
    have place := mapped'.table_place present
    obtain ⟨index,address⟩ := entryAddr_toNat (p'.pageDirectory (dirIndex virtualAddr)) virtualAddr
    apply (store32_outside m' _ _ x ?_ ?_).symm
    · omega
    · omega

/-! The tables of the kernel. -/

theorem identityEntry_outside (image : PagingImage) (m : Memory) {n : Nat} (inside : n < 4096) :
    AgreeOutside m (identityEntry image m n) image.identityTables.toNat
      (image.identityTables.toNat + 4 * 4096) := by
  have static := image.static
  have address : (image.identityTables + BitVec.ofNat 32 (4 * n)).toNat =
      image.identityTables.toNat + 4 * n := offset_toNat (by omega)
  intro x outside
  exact (store32_outside m _ _ x (by omega) (by omega)).symm

theorem identityMap_outside (image : PagingImage) (m : Memory) :
    AgreeOutside m (identityMap image m) image.identityTables.toNat
      (image.identityTables.toNat + 4 * 4096) := by
  have prefixes (n : Nat) (le : n ≤ 4096) : AgreeOutside m ((List.range n).foldl (identityEntry image) m)
      image.identityTables.toNat (image.identityTables.toNat + 4 * 4096) := by
    induction n with
    | zero => exact AgreeOutside.refl m
    | succ n ih =>
      rw [List.range_succ,List.foldl_append]
      exact (ih (by omega)).trans (identityEntry_outside image _ (by omega))
  unfold identityMap
  exact prefixes 4096 (Nat.le_refl _)

theorem vmmInit_high (image : PagingImage) (m : Memory) {i : Fin 1024} (high : 4 ≤ i.val) :
    (vmmInit image m).2 i = 0 := if_neg (Nat.not_lt.mpr high)

theorem vmmInit_low (image : PagingImage) (m : Memory) {i : Fin 1024} (low : i.val < 4) :
    (vmmInit image m).2 i &&& ptePresent ≠ 0 ∧
      ((vmmInit image m).2 i).toNat / 4096 = image.identityTables.toNat / 4096 + i.val := by
  have room := image.room
  have static := image.static
  have address : (image.identityTables + BitVec.ofNat 32 (4096 * i.val)).toNat =
      image.identityTables.toNat + 4096 * i.val := offset_toNat (by omega)
  have flags : (ptePresent ||| pteWritable).toNat < 2^12 := by decide
  have kept : (image.identityTables + BitVec.ofNat 32 (4096 * i.val) ||| _).toNat / 2^12 =
      (image.identityTables + BitVec.ofNat 32 (4096 * i.val)).toNat / 2^12 := Bits.or_div flags
  simp only [Nat.reducePow,← BitVec.or_assoc] at kept
  simp only [vmmInit,low,if_true,Bits.or_flag]
  refine ⟨by decide,?_⟩
  rw [kept,address]
  omega

/-- At first nobody has a frame. -/
theorem vmmInit_mapped (image : PagingImage) (m : Memory) {kernelEnd : Word}
    (same : kernelEnd.toNat = heapEnd image.toKernelImage) :
    Mapped image ⟨(vmmInit image m).2,pmmInit kernelEnd⟩ [] := by
  have behind := firstFrame_mul image.toKernelImage
  have below := image.below
  have start : Elf.programStart = 0x600000 := rfl
  have limit : totalFrames = 4096 := rfl
  constructor
  · apply pmmInit_counted
    · omega
    · unfold heapEnd at behind
      omega
  · exact List.nodup_nil
  · intro i
    by_cases low : i.val < 4
    · simp [Handed,Nat.not_le.mpr low]
    · simp [Handed,vmmInit_high image m (Nat.le_of_not_lt low)]
  · intro n inside
    exact absurd inside (Nat.not_lt_zero n)
  · intro i low
    exact vmmInit_low image m low

end Tables

end NimrodOS.Paging
