import NimrodOS.PagingMap

/-! What a program may do with a page. The directory entry of a region keeps the rights
that the first mapping in the region has asked for. -/
namespace NimrodOS.Paging

open ByteMemory Memory Transition

/-- The processor grants what both entries grant. -/
def rights (s : Space) (virtualAddr : Word) : Word :=
  s.tables.pageDirectory (dirIndex virtualAddr) &&& entry s virtualAddr

structure Granted (s : Space) (virtualAddr flags : Word) : Prop where
  user : rights s virtualAddr &&& pteUser = flags &&& pteUser
  writable : rights s virtualAddr &&& pteWritable = flags &&& pteWritable

/-- The flags of a mapping in the region of a directory entry. -/
def mappedFlags (dir : Fin 1024) : Space × SpaceOp → Option Word
  | (s,.map virtualAddr _ flags) =>
    if dirIndex virtualAddr = dir ∧ Effective s virtualAddr then some flags else none
  | _ => none

/-- Those of the first one. -/
def firstFlags (past : List (Space × SpaceOp)) (dir : Fin 1024) : Option Word :=
  past.findSome? (mappedFlags dir)

/-- User access is not asked for, or the region lies behind the first 16 MB and was first
mapped with it. -/
def Grantable (past : List (Space × SpaceOp)) (virtualAddr flags : Word) : Prop :=
  flags &&& pteUser = 0 ∨ 0x1000000 ≤ virtualAddr.toNat ∧
    ∃ first, firstFlags past (dirIndex virtualAddr) = some first ∧ first &&& pteUser ≠ 0

/-- What the directory entries record. -/
structure Regions (past : List (Space × SpaceOp)) (p : Tables) : Prop where
  writable : ∀ i, Present p i → p.pageDirectory i &&& pteWritable = pteWritable
  low : ∀ i : Fin 1024, i.val < 4 → p.pageDirectory i &&& pteUser = 0
  high : ∀ i : Fin 1024, 4 ≤ i.val → (Present p i ↔ firstFlags past i ≠ none) ∧
    ∀ first, firstFlags past i = some first → p.pageDirectory i &&& pteUser = first &&& pteUser

section

variable {image : PagingImage} {kernelEnd : KernelEnd image} {s t : Space} {op : SpaceOp}
  {past : List (Space × SpaceOp)} {m : Memory} {a e flags first virtualAddr physicalAddr : Word}
  {held : Finset Word} {dir : Fin 1024}

theorem firstFlags_snoc (past : List (Space × SpaceOp)) (entry : Space × SpaceOp) :
    firstFlags (past ++ [entry]) dir = (firstFlags past dir).or (mappedFlags dir entry) := by
  rw [firstFlags,List.findSome?_append,firstFlags,List.findSome?_singleton]

/-! Single bits. -/

theorem user_bit (e : Word) : e &&& pteUser = 0 ∨ e &&& pteUser = pteUser := Bits.one_flag e 2

theorem frameAddr_low {k : Nat} (inside : k < totalFrames) {low : Word} (small : low.toNat < 2^12) :
    frameAddr k &&& low = 0 := by
  apply Bits.and_low (k := 12) _ small
  rw [frameAddr_toNat inside]
  exact ⟨k,Nat.mul_comm _ _⟩

theorem tableEntry_user {k : Nat} (inside : k < totalFrames) (flags : Word) :
    tableEntry (frameAddr k) flags &&& pteUser = flags &&& pteUser := by
  have none : frameAddr k &&& pteUser = 0 := frameAddr_low inside (by decide)
  have fixed : (ptePresent ||| pteWritable) &&& pteUser = 0 := by decide
  rw [tableEntry,BitVec.or_assoc (x := frameAddr k),BitVec.and_or_distrib_right,
    BitVec.and_or_distrib_right,none,fixed,BitVec.and_assoc,BitVec.and_self]
  simp

theorem tableEntry_writable (f flags : Word) : tableEntry f flags &&& pteWritable = pteWritable :=
  Bits.or_flag _ _ _

theorem mapped_flag (e : Word) {bit : Word} (low : 0xFFFFF000 &&& bit = 0) (apart : ptePresent &&& bit = 0) :
    ((e &&& 0xFFFFF000) ||| (flags ||| ptePresent)) &&& bit = flags &&& bit := by
  rw [BitVec.and_or_distrib_right,BitVec.and_or_distrib_right,BitVec.and_assoc,low,apart]
  simp

theorem rights_flag (s : Space) (a bit : Word) : rights s a &&& bit =
    (s.tables.pageDirectory (dirIndex a) &&& bit) &&& (entry s a &&& bit) := by
  rw [rights]
  ext i inside
  simp only [BitVec.getElem_and]
  cases bit[i] <;> simp

/-! The directory entries. -/

theorem bootSpace_regions (image : PagingImage) (kernelEnd : KernelEnd image) (m : Memory) :
    Regions [] (bootSpace image kernelEnd m).tables := by
  have directory (i : Fin 1024) (low : i.val < 4) :
      (bootSpace image kernelEnd m).tables.pageDirectory i =
        (image.identityTables + BitVec.ofNat 32 (4096 * i.val)) ||| ptePresent ||| pteWritable := if_pos low
  have missing (i : Fin 1024) (high : 4 ≤ i.val) : ¬Present (bootSpace image kernelEnd m).tables i := by
    rw [Present,not_not]
    change (vmmInit image m).2 i &&& ptePresent = 0
    rw [vmmInit_high image m high]
    decide
  constructor
  · intro i there
    have low : i.val < 4 := by
      by_contra high
      exact missing i (Nat.le_of_not_lt high) there
    rw [directory i low]
    exact Bits.or_last _ _
  · intro i low
    have aligned := image.aligned
    have static := image.static
    have room := image.room
    have address : (image.identityTables + BitVec.ofNat 32 (4096 * i.val)).toNat =
        image.identityTables.toNat + 4096 * i.val := offset_toNat (by omega)
    have none : (image.identityTables + BitVec.ofNat 32 (4096 * i.val)) &&& pteUser = 0 := by
      apply Bits.and_low (k := 12)
      · rw [address]
        omega
      · decide
    have fixed : (ptePresent ||| pteWritable) &&& pteUser = 0 := by decide
    rw [directory i low,BitVec.or_assoc,BitVec.and_or_distrib_right,none,fixed]
    rfl
  · intro i high
    constructor
    · exact iff_of_false (missing i high) fun found => found rfl
    · intro first found
      cases found

/-- Steps that map nothing leave the directory alone. -/
theorem Regions.quiet (regions : Regions past s.tables) (quiet : ∀ dir, mappedFlags dir (s,op) = none) :
    Regions (past ++ [(s,op)]) s.tables := by
  have same (i : Fin 1024) : firstFlags (past ++ [(s,op)]) i = firstFlags past i := by
    rw [firstFlags_snoc,quiet,Option.or_none]
  refine ⟨regions.writable,regions.low,fun i high => ?_⟩
  rw [same]
  exact regions.high i high

theorem Regions.map (regions : Regions past s.tables) (separate : Separate image kernelEnd s.tables held)
    (physicalAddr flags : Word) (effective : Effective s virtualAddr) :
    Regions (past ++ [(s,.map virtualAddr physicalAddr flags)])
      (mapPage s virtualAddr physicalAddr flags).tables := by
  have dirs := separate.mapPage_dirs virtualAddr physicalAddr flags
  have taken (i : Fin 1024) (missing : ¬Present s.tables i) : 4 ≤ i.val := by
    by_contra low
    exact missing (separate.low i (by omega)).1
  constructor
  · intro i there
    by_cases before : Present s.tables i
    · rw [(dirs i).1 before]
      exact regions.writable i before
    · obtain ⟨k,-,made⟩ := (dirs i).2 before there
      rw [made]
      exact tableEntry_writable _ _
  · intro i low
    rw [(dirs i).1 (separate.low i low).1]
    exact regions.low i low
  · intro i high
    obtain ⟨recorded,keeps⟩ := regions.high i high
    rw [firstFlags_snoc]
    by_cases before : Present s.tables i
    · obtain ⟨first,found⟩ := Option.ne_none_iff_exists'.mp (recorded.mp before)
      have kept := (dirs i).1 before
      rw [found,Present,kept]
      refine ⟨iff_of_true before (Option.some_ne_none _),fun other same => ?_⟩
      obtain rfl : first = other := Option.some.inj same
      exact keeps first found
    · have none : firstFlags past i = none := not_not.mp fun found => before (recorded.mpr found)
      rw [none,Option.none_or,mappedFlags]
      by_cases here : dirIndex virtualAddr = i
      · have there := separate.mapPage_present physicalAddr flags effective
        rw [here] at there
        obtain ⟨k,-,made⟩ := (dirs i).2 before there
        rw [if_pos ⟨here,effective⟩,made]
        refine ⟨iff_of_true there (Option.some_ne_none _),fun first same => ?_⟩
        obtain rfl : flags = first := Option.some.inj same
        exact tableEntry_user k.isLt flags
      · rw [if_neg fun both => here both.1]
        refine ⟨iff_of_false (fun there => ?_) fun found => found rfl,
          fun first same => (Option.some_ne_none first same.symm).elim⟩
        obtain ⟨k,same,-⟩ := (dirs i).2 before there
        exact here same.symm

theorem Regions.step (regions : Regions past s.tables) (separate : Separate image kernelEnd s.tables held)
    (moved : Space.Step s op t) : Regions (past ++ [(s,op)]) t.tables := by
  cases moved with
  | @map virtualAddr physicalAddr flags small =>
    by_cases effective : Effective s virtualAddr
    · exact regions.map separate physicalAddr flags effective
    · rcases separate.mapPage_cases virtualAddr physicalAddr flags with ⟨-,same⟩ | ⟨served,-⟩
      · rw [same]
        exact regions.quiet fun dir => if_neg fun both => effective both.2
      · exact absurd served effective
  | unmap => exact regions.quiet fun _ => rfl
  | store kept => exact regions.quiet fun _ => rfl

theorem run_regions (run : Run Space.Step (bootSpace image kernelEnd m) past s) : Regions past s.tables := by
  induction run with
  | nil => exact bootSpace_regions image kernelEnd m
  | snoc prior moved ih =>
    obtain ⟨held,separate⟩ := run_separate prior
    exact ih.step separate moved

/-- What a mapping asks for, less what the directory entry withholds. -/
theorem Separate.mapPage_flag (separate : Separate image kernelEnd s.tables held)
    (physicalAddr flags : Word) (effective : Effective s virtualAddr) {bit : Word}
    (low : 0xFFFFF000 &&& bit = 0) (apart : ptePresent &&& bit = 0) :
    rights (mapPage s virtualAddr physicalAddr flags) virtualAddr &&& bit =
      ((mapPage s virtualAddr physicalAddr flags).tables.pageDirectory (dirIndex virtualAddr) &&& bit) &&&
        (flags &&& bit) := by
  have entries : entry (mapPage s virtualAddr physicalAddr flags) virtualAddr =
      (physicalAddr &&& 0xFFFFF000) ||| (flags ||| ptePresent) := by
    rcases separate.mapPage_cases virtualAddr physicalAddr flags with ⟨full,-⟩ | ⟨-,-,entries⟩
    · exact absurd effective full
    · rw [entries,if_pos rfl]
  rw [rights_flag,entries,mapped_flag physicalAddr low apart]

theorem run_writable (run : Run Space.Step (bootSpace image kernelEnd m) past s)
    (physicalAddr flags : Word) (effective : Effective s virtualAddr) :
    rights (mapPage s virtualAddr physicalAddr flags) virtualAddr &&& pteWritable =
      flags &&& pteWritable := by
  obtain ⟨held,separate⟩ := run_separate run
  have regions := (run_regions run).map separate physicalAddr flags effective
  have there := separate.mapPage_present physicalAddr flags effective
  rw [separate.mapPage_flag physicalAddr flags effective (by decide) (by decide),
    regions.writable _ there,BitVec.and_comm,BitVec.and_assoc,BitVec.and_self]

/-- The first 16 MB stay out of reach of user mode. -/
theorem low_user (run : Run Space.Step (bootSpace image kernelEnd m) past s)
    (low : (dirIndex virtualAddr).val < 4) (physicalAddr flags : Word)
    (effective : Effective s virtualAddr) :
    rights (mapPage s virtualAddr physicalAddr flags) virtualAddr &&& pteUser = 0 := by
  obtain ⟨held,separate⟩ := run_separate run
  have regions := (run_regions run).map separate physicalAddr flags effective
  rw [rights_flag,regions.low _ low]
  exact BitVec.zero_and

/-- A page gets the rights that were asked for unless its region keeps user access out. -/
theorem rights_granted_iff (run : Run Space.Step (bootSpace image kernelEnd m) past s)
    (virtualAddr physicalAddr flags : Word) (_small : flags.toNat < 0x1000)
    (effective : Effective s virtualAddr) :
    Granted (mapPage s virtualAddr physicalAddr flags) virtualAddr flags ↔
      Grantable (past ++ [(s,.map virtualAddr physicalAddr flags)]) virtualAddr flags := by
  obtain ⟨held,separate⟩ := run_separate run
  have regions := (run_regions run).map separate physicalAddr flags effective
  have there := separate.mapPage_present physicalAddr flags effective
  have dir := dirIndex_val virtualAddr
  have reduced : Granted (mapPage s virtualAddr physicalAddr flags) virtualAddr flags ↔
      rights (mapPage s virtualAddr physicalAddr flags) virtualAddr &&& pteUser = flags &&& pteUser :=
    ⟨Granted.user,fun granted => ⟨granted,run_writable run physicalAddr flags effective⟩⟩
  rw [reduced,Grantable]
  by_cases low : (dirIndex virtualAddr).val < 4
  · have below : ¬0x1000000 ≤ virtualAddr.toNat := by omega
    rw [low_user run low physicalAddr flags effective,eq_comm]
    simp [below]
  · have above : 0x1000000 ≤ virtualAddr.toNat := by omega
    obtain ⟨recorded,keeps⟩ := regions.high _ (Nat.le_of_not_lt low)
    obtain ⟨first,found⟩ := Option.ne_none_iff_exists'.mp (recorded.mp there)
    rw [separate.mapPage_flag physicalAddr flags effective (by decide) (by decide),
      keeps first found,found]
    simp only [above,true_and,Option.some.injEq,exists_eq_left']
    have cleared : 0 &&& (flags &&& pteUser) = 0 := BitVec.zero_and
    rcases user_bit first with clear | set
    · rw [clear,cleared,eq_comm]
      simp
    · rw [set,BitVec.and_comm,BitVec.and_assoc,BitVec.and_self]
      exact iff_of_true rfl (.inr (by decide))

theorem boot_effective (image : PagingImage) (kernelEnd : KernelEnd image) (m : Memory)
    (low : virtualAddr.toNat < 0x1000000) : Effective (bootSpace image kernelEnd m) virtualAddr := by
  have dir := dirIndex_val virtualAddr
  exact .inl (vmmInit_low image m (by omega)).1

/-- A page of the kernel made writable. -/
theorem rights_granted_kernel :
    Granted (mapPage (bootSpace default ⟨0x500000,by decide⟩ fun _ => 0) 0x400000 0x400000 2) 0x400000 2 := by
  have effective := boot_effective default ⟨0x500000,by decide⟩ (fun _ => 0)
    (show (0x400000 : Word).toNat < 0x1000000 by decide)
  exact (rights_granted_iff .nil 0x400000 0x400000 2 (by decide) effective).mpr (.inl (by decide))

/-- A user page in the first 16 MB stays a kernel page. -/
theorem user_page_refused : ¬∀ (image : PagingImage) (kernelEnd : KernelEnd image) (m : Memory) past s,
    Run Space.Step (bootSpace image kernelEnd m) past s → ∀ virtualAddr physicalAddr flags : Word,
      flags.toNat < 0x1000 → Effective s virtualAddr →
        Granted (mapPage s virtualAddr physicalAddr flags) virtualAddr flags := by
  intro claim
  have effective := boot_effective default ⟨0x500000,by decide⟩ (fun _ => 0)
    (show (0x400000 : Word).toNat < 0x1000000 by decide)
  have granted := claim default ⟨0x500000,by decide⟩ (fun _ => 0) [] _ .nil 0x400000 0x400000 7 (by decide) effective
  have refused := low_user .nil (by decide) 0x400000 7 effective
  exact absurd (refused.symm.trans granted.user) (by decide)

end

end NimrodOS.Paging
