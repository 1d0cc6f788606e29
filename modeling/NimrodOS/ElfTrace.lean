import NimrodOS.ElfRanges

/-! What a load that fails leaves behind. -/
namespace NimrodOS.Elf

open ByteMemory FirstFit Memory Ramfs Tasks

/-- The blocks of the heap, the entry slots, the task table and program memory are as they were. -/
structure Traceless (k k' : Kernel) : Prop where
  blocks : walk k'.heap = walk k.heap
  entries : k'.elfEntries = k.elfEntries
  next : k'.nextElfSlot = k.nextElfSlot
  table : k'.sched = k.sched
  program : ∀ x : Word, programStart ≤ x.toNat → k'.heap.mem x = k.heap.mem x

/-- A negative result comes with no change. -/
def FailsTraceless (image : ElfImage) (sym : ElfSymbols) (k : Kernel) (name : CString) : Prop :=
  ∀ k' r, (elfLoadAndRun image sym k name).result = .ok (k',r) → r < 0 → Traceless k k'

/-! What a header puts where. -/

/-- It has a byte copied to `x`. -/
def CopiesTo (m : Memory) (phdr x : Word) : Prop :=
  (phdrIn m phdr).type = ptLoad ∧ (x - (phdrIn m phdr).vaddr).toNat < (phdrIn m phdr).filesz.toNat

/-- It has a zero put there behind the copy. -/
def ZeroesAt (m : Memory) (buf phdr x : Word) : Prop :=
  let q := phdrIn (copied m buf (phdrIn m phdr)) phdr
  (phdrIn m phdr).type = ptLoad ∧ q.memsz > q.filesz ∧
    (x - (q.vaddr + q.filesz)).toNat < (q.memsz - q.filesz).toNat

instance (m : Memory) (phdr x : Word) : Decidable (CopiesTo m phdr x) := inferInstanceAs (Decidable (_ ∧ _))

instance (m : Memory) (buf phdr x : Word) : Decidable (ZeroesAt m buf phdr x) :=
  inferInstanceAs (Decidable (_ ∧ _))

/-- Where the byte is copied from. A copy that runs into its own source repeats the bytes in between. -/
def sourceOf (m : Memory) (buf phdr x : Word) : Word :=
  let p := phdrIn m phdr
  buf + p.offset + BitVec.ofNat 32 ((x - p.vaddr).toNat % (p.vaddr - (buf + p.offset)).toNat)

/-- Header `i`, as the loop finds it, writes the byte at `x`. -/
def WritesAt (m : Memory) (buf : Word) (i : Nat) (x : Word) : Prop :=
  ZeroesAt (before m buf i) buf (phdrAddr m buf i) x ∨ CopiesTo (before m buf i) (phdrAddr m buf i) x

/-- The byte at `x` behind `i` headers, traced back to memory before them. -/
def tracedByte (m : Memory) (buf : Word) : Nat → Word → Byte
  | 0, x => m x
  | i + 1, x =>
    if ZeroesAt (before m buf i) buf (phdrAddr m buf i) x then 0
    else if CopiesTo (before m buf i) (phdrAddr m buf i) x then
      tracedByte m buf i (sourceOf (before m buf i) buf (phdrAddr m buf i) x)
    else tracedByte m buf i x

/-- What header `i` puts at an address that it writes: a zero, or the byte of its source. -/
def putsAt (m : Memory) (buf : Word) (i : Nat) (x : Word) : Byte :=
  if ZeroesAt (before m buf i) buf (phdrAddr m buf i) x then 0
  else tracedByte m buf i (sourceOf (before m buf i) buf (phdrAddr m buf i) x)

/-- Of the headers before `j` it is the last that writes there. -/
structure LastWrites (m : Memory) (buf : Word) (j i : Nat) (x : Word) : Prop where
  earlier : i < j
  writes : WritesAt m buf i x
  later : ∀ l, i < l → l < j → ¬WritesAt m buf l x

section Bytes

variable {m : Memory} {buf phdr x : Word} {i j : Nat}

theorem afterHeader_byte (passes : Passes m buf phdr) : afterHeader m buf phdr x =
    if ZeroesAt m buf phdr x then 0 else if CopiesTo m phdr x then m (sourceOf m buf phdr x) else m x := by
  rcases passes with skips | ⟨comes,copy,fill⟩
  · rw [afterHeader,if_neg skips.2,if_neg fun zeroes => skips.2 zeroes.1,if_neg fun copies => skips.2 copies.1]
  have byte : copied m buf (phdrIn m phdr) x =
      if CopiesTo m phdr x then m (sourceOf m buf phdr x) else m x := by
    split_ifs with copies
    · have noWrap : (phdrIn m phdr).vaddr.toNat + (phdrIn m phdr).filesz.toNat ≤ 2^32 := by
        have top : ramEnd = 0x1000000 := rfl
        have inside := copies.2
        rcases copy.dest with none | ⟨-,high⟩ <;> omega
      have found := @copyBytes_byte _ m _ (buf + (phdrIn m phdr).offset) _ noWrap copies.2
      rw [offset_distance] at found
      exact found
    · exact copyBytes_apart copy.dest fun inside => copies ⟨comes.1.2,inside⟩
  rw [afterHeader,if_pos comes.1.2,← byte,filled]
  by_cases larger : (phdrIn (copied m buf (phdrIn m phdr)) phdr).memsz >
      (phdrIn (copied m buf (phdrIn m phdr)) phdr).filesz
  · rw [if_pos larger]
    have range := fill.dest larger
    split_ifs with zeroes
    · have inside := zeroes.2.2
      have top : ramEnd = 0x1000000 := rfl
      rcases range with none | ⟨low,high⟩
      · omega
      · exact fillBytes_inside 0 _ (by omega) (by bv_omega) (by bv_omega)
    · exact fillBytes_apart range fun inside => zeroes ⟨comes.1.2,larger,inside⟩
  · rw [if_neg larger,if_neg fun zeroes => larger zeroes.2.1]

theorem before_traced (earlier : ∀ l < j, PassesAt m buf l) (x : Word) :
    before m buf j x = tracedByte m buf j x := by
  induction j generalizing x with
  | zero => rfl
  | succ j ih =>
    have ih := ih fun l less => earlier l (Nat.lt_succ_of_lt less)
    rw [before,afterHeader_byte (earlier j (Nat.lt_succ_self j)),tracedByte,ih,ih]

/-- A segment that lies in the file puts its bytes there, and zeros behind them. -/
theorem Copy.putsAt_eq {f : Nat → Byte} {size : Nat} (file : Copy m buf f size) (inside : HeaderInside f size i)
    (segment : (filePhdr f i).Inside size) (earlier : ∀ l < i, PassesAt m buf l) (passes : PassesAt m buf i)
    (writes : WritesAt m buf i x) :
    putsAt m buf i x =
      if (x - (filePhdr f i).vaddr).toNat < (filePhdr f i).filesz.toNat then
        f ((filePhdr f i).offset.toNat + (x - (filePhdr f i).vaddr).toNat)
      else 0 := by
  have same := before_keep earlier
  have found := file.phdr_eq inside same
  rcases passes with skips | ⟨comes,copy,fill⟩
  · rcases writes with zeroes | copies
    · exact absurd zeroes.1 skips.2
    · exact absurd copies.1 skips.2
  have load : (filePhdr f i).type = ptLoad := found ▸ comes.1.2
  have above : programStart ≤ (filePhdr f i).vaddr.toNat := found ▸ comes.2
  have dest := copy.dest
  have zeros := (file.canFill_iff inside (same.trans (copyBytes_program dest))).mp fill
  rw [found] at dest
  have again : phdrIn (copied (before m buf i) buf (filePhdr f i)) (phdrAddr m buf i) = _ :=
    file.phdr_eq inside (same.trans (copyBytes_program dest))
  simp only [WritesAt,ZeroesAt,CopiesTo,found,again,load,true_and] at writes
  simp only [putsAt,ZeroesAt,sourceOf,found,again,load,true_and]
  generalize filePhdr f i = p at *
  by_cases byte : (x - p.vaddr).toNat < p.filesz.toNat
  · have first : ¬(p.memsz > p.filesz ∧ (x - (p.vaddr + p.filesz)).toNat < (p.memsz - p.filesz).toNat) := by
      rintro ⟨larger,behind⟩
      have top : ramEnd = 0x1000000 := rfl
      rcases zeros larger with none | ⟨low,high⟩ <;> bv_omega
    have within : p.offset.toNat + (x - p.vaddr).toNat < size := by
      rcases segment with none | ends <;> omega
    obtain ⟨low,held⟩ := file.source_byte same within
    have period : (x - p.vaddr).toNat < (p.vaddr - (buf + p.offset)).toNat := by bv_omega
    rw [if_neg first,if_pos byte,← before_traced earlier,Nat.mod_eq_of_lt period,BitVec.ofNat_toNat,
      BitVec.setWidth_eq,held]
  · rw [if_neg byte,if_pos (writes.resolve_right byte)]

theorem tracedByte_skip (spares : ¬WritesAt m buf i x) : tracedByte m buf (i + 1) x = tracedByte m buf i x := by
  rw [WritesAt,not_or] at spares
  rw [tracedByte,if_neg spares.1,if_neg spares.2]

theorem tracedByte_write (writes : WritesAt m buf i x) : tracedByte m buf (i + 1) x = putsAt m buf i x := by
  rw [tracedByte,putsAt]
  split_ifs with zeroes copies
  · rfl
  · rfl
  · exact absurd writes (not_or.mpr ⟨zeroes,copies⟩)

/-- The last header that writes decides, or memory was not written. -/
theorem tracedByte_cases (m : Memory) (buf : Word) (j : Nat) (x : Word) :
    (∃ i, LastWrites m buf j i x ∧ tracedByte m buf j x = putsAt m buf i x) ∨
      (∀ i < j, ¬WritesAt m buf i x) ∧ tracedByte m buf j x = m x := by
  induction j with
  | zero => exact .inr ⟨fun i below => absurd below (Nat.not_lt_zero i),rfl⟩
  | succ j ih =>
    by_cases writes : WritesAt m buf j x
    · refine .inl ⟨j,⟨Nat.lt_succ_self j,writes,fun l above below => ?_⟩,tracedByte_write writes⟩
      omega
    · rw [tracedByte_skip writes]
      have last (l : Nat) (spares : l < j → ¬WritesAt m buf l x) (below : l < j + 1) : ¬WritesAt m buf l x := by
        rcases Nat.lt_succ_iff_lt_or_eq.mp below with less | rfl
        · exact spares less
        · exact writes
      rcases ih with ⟨i,here,byte⟩ | ⟨none,byte⟩
      · refine .inl ⟨i,⟨Nat.lt_succ_of_lt here.earlier,here.writes,fun l above => ?_⟩,byte⟩
        exact last l (here.later l above)
      · exact .inr ⟨fun l => last l (none l),byte⟩

theorem LastWrites.unique {i' : Nat} (here : LastWrites m buf j i x) (there : LastWrites m buf j i' x) : i = i' := by
  rcases Nat.lt_trichotomy i i' with less | same | more
  · exact absurd there.writes (here.later i' less there.earlier)
  · exact same
  · exact absurd here.writes (there.later i more here.earlier)

/-- A header that passes writes to program memory. -/
theorem WritesAt.program (passes : PassesAt m buf i) (writes : WritesAt m buf i x) : programStart ≤ x.toNat := by
  have inside {a : Word} {n : Nat} (range : InProgram a n) (within : (x - a).toNat < n) : programStart ≤ x.toNat := by
    have top : ramEnd = 0x1000000 := rfl
    rcases range with none | ⟨low,high⟩
    · omega
    · bv_omega
  rcases passes with skips | ⟨-,copy,fill⟩
  · rcases writes with zeroes | copies
    · exact absurd zeroes.1 skips.2
    · exact absurd copies.1 skips.2
  · rcases writes with zeroes | copies
    · exact inside (fill.dest zeroes.2.1) zeroes.2.2
    · exact inside copy.dest copies.2

end Bytes

section

variable {image : ElfImage} {sym : ElfSymbols} {k : Kernel} {name : CString} {arena : HeapArena}
  {heap heap' : Heap} {buf : Word} {m : Memory} {slot : Fin 8}

theorem same_blocks {image : KernelImage} (held : Represents image heap arena)
    (held' : Represents image heap' arena) : walk heap' = walk heap := by
  rw [walk_represents held,walk_represents held']

/-- The heap ends where program memory begins. -/
theorem program_apart (image : ElfImage) (same : AgreeOutside m heap.mem
    (heapAddr image.toKernelImage).toNat (heapEnd image.toKernelImage)) {x : Word}
    (above : programStart ≤ x.toNat) : heap.mem x = m x :=
  (same x (.inr (Nat.le_trans image.below above))).symm

theorem started_next : (started sym k name slot heap).1.nextElfSlot ≠ k.nextElfSlot := by
  simp only [started]
  bv_omega

theorem started_negative (heap : Heap) (negative : (started sym k name slot heap).2 < 0) : unusedSlot k.sched = none := by
  cases free : unusedSlot k.sched with
  | none => rfl
  | some i =>
    simp only [started,taskCreate,free] at negative
    omega

theorem started_full (heap : Heap) (full : unusedSlot k.sched = none) : (started sym k name slot heap).2 < 0 := by
  simp only [started,taskCreate_none sym.toSymbols name _ full]
  omega

/-- What a first segment of one byte leaves. -/
theorem Copy.places_byte {f : Nat → Byte} {size : Nat} {offset vaddr : Word} (file : Copy m buf f size)
    (inside : HeaderInside f size 0) (phdr : filePhdr f 0 = ⟨ptLoad,offset,vaddr,1,1⟩)
    (source : offset.toNat < size) (dest : InProgram vaddr 1) :
    before m buf 1 vaddr = f offset.toNat := by
  have found := file.phdr_eq inside (AgreeOutside.refl m)
  have again : phdrIn (copied m buf ⟨ptLoad,offset,vaddr,1,1⟩) (phdrAddr m buf 0) = _ :=
    file.phdr_eq inside (copyBytes_program dest)
  rw [phdr] at found again
  have kept : before m buf 1 = copied m buf ⟨ptLoad,offset,vaddr,1,1⟩ := by
    simp only [before,afterHeader,found,if_true,again]
    rfl
  have front : copied m buf ⟨ptLoad,offset,vaddr,1,1⟩ vaddr = pointee m buf offset.toNat := by
    simp [copied,copyBytes,pointee]
  rw [kept,front,file.bytes _ source]

end

variable (image : ElfImage) (sym : ElfSymbols) (k : SoundKernel image.toKernelImage) (name : CString)

/-- A failed load leaves no trace just when it does not come to a full task table, and wherever segments
were placed before the one that it is given up at, the last of them has put the byte that was there. -/
theorem fails_traceless_iff : FailsTraceless image sym k.val name ↔
    ∀ heap buf, openFile image.toKernelImage k.val name = .ok (.ready heap buf) →
      ((∀ j < (ePhnum (pointee heap.mem buf)).toNat, PassesAt heap.mem buf j) →
        entrySlot k.val.nextElfSlot ≠ none → unusedSlot k.val.sched ≠ none) ∧
      ∀ j, Reaches heap.mem buf j → StopsAt heap.mem buf j →
        ∀ i x, LastWrites heap.mem buf j i x → putsAt heap.mem buf i x = k.val.heap.mem x := by
  obtain ⟨k,sound⟩ := k
  obtain ⟨arena,held⟩ := sound.heap
  constructor
  · intro traceless heap buf opened
    constructor
    · intro all valid full
      obtain ⟨slot,free⟩ := Option.ne_none_iff_exists'.mp valid
      obtain ⟨heap',result,-⟩ := load_stored held sound.files sym opened all free
      exact started_next (traceless _ _ result (started_full heap' full)).next
    · intro j reached stops i x last
      obtain ⟨heap',result,same⟩ := load_stops held sound.files sym opened reached stops
      have above := last.writes.program (reached.earlier i last.earlier)
      have byte := before_traced reached.earlier x
      rw [← program_apart image same above,(traceless _ _ result (by omega)).program x above] at byte
      rcases tracedByte_cases heap.mem buf j x with ⟨i',last',puts⟩ | ⟨none,-⟩
      · rw [last.unique last',← puts,byte]
      · exact absurd last.writes (none i last.earlier)
  · intro clean k' r result negative
    have ends := load_ends held sound.files sym name
    rw [result] at ends
    cases ends with
    | refused _ _ held' same =>
      exact ⟨same_blocks held held',rfl,rfl,rfl,fun x => program_apart image same⟩
    | @overlaps heap _ buf j opened reached stops held' same =>
      refine ⟨same_blocks held held',rfl,rfl,rfl,fun x above => ?_⟩
      have unread := (opened_enters held sound.files opened).2.same
      rw [program_apart image same above,before_traced reached.earlier]
      rcases tracedByte_cases heap.mem buf j x with ⟨i,last,puts⟩ | ⟨-,kept⟩
      · rw [puts,(clean _ _ opened).2 j reached stops i x last]
      · rw [kept,program_apart image unread above]
    | @stored _ heap' _ _ opened all free =>
      have full := started_negative heap' negative
      exact absurd full ((clean _ _ opened).1 all (by simp [free]))

/-- A file with two segments: one byte for 8 MB, and an empty one for 1 MB. -/
def secondOverlaps : List Byte :=
  [0x7F,0x45,0x4C,0x46,0x01,0x01,0x01,0x00,0x00,0x00,0x00,0x00,0x00,0x00,0x00,0x00,
   0x02,0x00,0x03,0x00,0x01,0x00,0x00,0x00,0x00,0x00,0x80,0x00,0x34,0x00,0x00,0x00,
   0x00,0x00,0x00,0x00,0x00,0x00,0x00,0x00,0x34,0x00,0x20,0x00,0x02,0x00,0x00,0x00,
   0x00,0x00,0x00,0x00,
   -- program headers
   0x01,0x00,0x00,0x00,0x00,0x00,0x00,0x00,0x00,0x00,0x80,0x00,0x00,0x00,0x80,0x00,
   0x01,0x00,0x00,0x00,0x01,0x00,0x00,0x00,0x05,0x00,0x00,0x00,0x00,0x10,0x00,0x00,
   0x01,0x00,0x00,0x00,0x00,0x00,0x00,0x00,0x00,0x00,0x10,0x00,0x00,0x00,0x10,0x00,
   0x00,0x00,0x00,0x00,0x00,0x00,0x00,0x00,0x06,0x00,0x00,0x00,0x00,0x10,0x00,0x00]

theorem secondOverlaps_headers : (ePhnum (secondOverlaps.getD · 0)).toNat = 2 ∧
    HeaderInside (secondOverlaps.getD · 0) secondOverlaps.length 0 ∧
    HeaderInside (secondOverlaps.getD · 0) secondOverlaps.length 1 ∧
    filePhdr (secondOverlaps.getD · 0) 0 = ⟨ptLoad,0,0x800000,1,1⟩ ∧
    filePhdr (secondOverlaps.getD · 0) 1 = ⟨ptLoad,0,0x100000,0,0⟩ := by decide

theorem overlap_leaves_segment : ∃ files, writeBytes ramfsInit helloElf secondOverlaps = .ok files ∧
    Sound (default : ElfImage).toKernelImage (clearBoot files) ∧
    ¬FailsTraceless default default (clearBoot files) helloElf := by
  obtain ⟨files,written,fit,contains,enters⟩ := written_enters (show Ramfs.Short helloElf by decide)
    (show secondOverlaps.length ≤ 4096 by decide) (by decide) (by decide)
  refine ⟨files,written,clearBoot_sound fit,fun traceless => ?_⟩
  obtain ⟨arena,heap,buf,held,opened,file⟩ := enters_opens (clearBoot_sound fit) enters
  have copy := contains.copy file enters
  obtain ⟨phnum,inside,inside',phdr,last⟩ := secondOverlaps_headers
  have passes : PassesAt heap.mem buf 0 := by
    rw [copy.passesAt_iff inside (fun j below => absurd below (Nat.not_lt_zero j)) (by rw [phdr]; decide),phdr]
    decide
  have earlier : ∀ j < 1, PassesAt heap.mem buf j := by
    intro j below
    obtain rfl : j = 0 := by omega
    exact passes
  have reached : Reaches heap.mem buf 1 := by
    refine ⟨?_,earlier⟩
    rw [copy.header.1,phnum]
    omega
  have stops : StopsAt heap.mem buf 1 := by
    rw [copy.stopsAt_iff inside' earlier,last]
    decide
  obtain ⟨heap',result,same⟩ := load_stops held fit default opened reached stops
  have kept := (traceless _ _ result (by omega)).program 0x800000 (by decide)
  rw [program_apart default same (by decide),copy.places_byte inside phdr (by decide) (by decide)] at kept
  have cleared : (clearBoot files).heap.mem 0x800000 = 0 :=
    (by decide : (clearBoot ramfsInit).heap.mem 0x800000 = 0)
  exact absurd (kept.trans cleared) (by decide)

end NimrodOS.Elf
