import NimrodOS.ElfWrites

/-! The ranges of memory that a load writes, by the program headers that it comes to, and
that it changes nothing else behind the heap. -/
namespace NimrodOS.Elf

open ByteMemory FirstFit Memory Ramfs Logged

/-- The address is in the range that is written. -/
def Access.Touches (x : Word) : Access → Prop
  | .header _ => False
  | .copy start _ n | .fill start n => (x - start).toNat < n

/-- A header has the loader write `n` bytes from `a` on. -/
inductive Writes (m : Memory) (buf phdr : Word) : Word → Nat → Prop where
  | bytes (comes : Comes m phdr) (seen : phdr.toNat + 20 ≤ ramEnd) :
      Writes m buf phdr (phdrIn m phdr).vaddr (phdrIn m phdr).filesz.toNat
  | zeros {q : Phdr} (comes : Comes m phdr) (can : CanCopy m buf phdr) (seen : phdr.toNat + 24 ≤ ramEnd)
      (again : phdrIn (copied m buf (phdrIn m phdr)) phdr = q) (larger : q.memsz > q.filesz) :
      Writes m buf phdr (q.vaddr + q.filesz) (q.memsz - q.filesz).toNat

/-- Some header that the load comes to has it write that range. -/
def Segment (image : KernelImage) (k : Kernel) (name : CString) (a : Word) (n : Nat) : Prop :=
  ∃ heap buf i, openFile image k name = .ok (.ready heap buf) ∧ Reaches heap.mem buf i ∧
    Writes (before heap.mem buf i) buf (phdrAddr heap.mem buf i) a n

/-- All that the load writes is in program memory. -/
def SegmentsInside (image : KernelImage) (k : Kernel) (name : CString) : Prop :=
  ∀ a n, Segment image k name a n → InProgram a n

section Ranges

variable {image : ElfImage} {sym : ElfSymbols} {k k' : Kernel} {name : CString} {m m' : Memory}
  {buf phdr a x : Word} {i j n offset : Nat} {p : Word → Prop} {heap : Heap} {arena : HeapArena}

/-- A call that returns goes on at every header that it comes to, or stops there. -/
theorem goes_on_of_ok {r : Int} (held : Represents image.toKernelImage k.heap arena) (fit : SizesFit k.files)
    (result : (elfLoadAndRun image sym k name).result = .ok (k',r))
    (opened : openFile image.toKernelImage k name = .ok (.ready heap buf))
    (reached : Reaches heap.mem buf i) : PassesAt heap.mem buf i ∨ StopsAt heap.mem buf i := by
  have ends := load_ends held fit sym name
  rw [result] at ends
  cases ends with
  | refused _ shut => exact absurd (opened_enters held fit opened).1 shut
  | overlaps opened' last stops =>
    cases opened.symm.trans opened'
    by_cases passes : PassesAt heap.mem buf i
    · exact .inl passes
    · obtain rfl := reached.last_unique passes last fun passes => passes.not_stopsAt stops
      exact .inr stops
  | stored opened' all =>
    cases opened.symm.trans opened'
    exact .inl (all i reached.listed)

theorem not_writes_of_stops (stops : Stops m phdr) : ¬Writes m buf phdr a n := by
  intro writes
  have comes : Comes m phdr := by cases writes <;> assumption
  exact absurd stops.2 (Nat.not_lt.mpr comes.2)

theorem writes_inside (passes : Passes m buf phdr) (writes : Writes m buf phdr a n) : InProgram a n := by
  have comes : Comes m phdr := by cases writes <;> assumption
  rcases passes with skips | ⟨-,copy,fill⟩
  · exact absurd comes.1.2 skips.2
  · cases writes with
    | bytes => exact copy.dest
    | zeros _ _ _ again larger =>
      subst again
      exact fill.dest larger

/-- So it writes to program memory only. -/
theorem segmentsInside_of_ok {r : Int} (sound : Sound image.toKernelImage k)
    (result : (elfLoadAndRun image sym k name).result = .ok (k',r)) :
    SegmentsInside image.toKernelImage k name := by
  obtain ⟨arena,held⟩ := sound.heap
  rintro a n ⟨heap,buf,i,opened,reached,writes⟩
  rcases goes_on_of_ok held sound.files result opened reached with passes | stops
  · exact writes_inside passes writes
  · exact absurd writes (not_writes_of_stops stops)

/-! Bytes that are not written. -/

theorem outside_of_apart (range : InProgram a n) (apart : ¬(x - a).toNat < n) :
    n = 0 ∨ a.toNat + n ≤ 2^32 ∧ (x.toNat < a.toNat ∨ a.toNat + n ≤ x.toNat) := by
  have top : ramEnd = 0x1000000 := rfl
  rcases range with none | ⟨-,high⟩
  · exact .inl none
  · bv_omega

theorem copyBytes_apart {src : Word} (range : InProgram a n) (apart : ¬(x - a).toNat < n) :
    copyBytes n m a src x = m x := by
  rcases outside_of_apart range apart with rfl | ⟨noWrap,outside⟩
  · rfl
  · exact (copyBytes_outside noWrap x outside).symm

theorem fillBytes_apart {v : Byte} (range : InProgram a n) (apart : ¬(x - a).toNat < n) :
    fillBytes v n m a x = m x := by
  rcases outside_of_apart range apart with rfl | ⟨noWrap,outside⟩
  · rfl
  · exact (fillBytes_outside v noWrap x outside).symm

theorem afterHeader_apart (passes : Passes m buf phdr)
    (apart : ∀ a n, Writes m buf phdr a n → ¬(x - a).toNat < n) : afterHeader m buf phdr x = m x := by
  rcases passes with skips | ⟨comes,copy,fill⟩
  · rw [afterHeader,if_neg skips.2]
  · rw [afterHeader,if_pos comes.1.2]
    have first : copied m buf (phdrIn m phdr) x = m x :=
      copyBytes_apart copy.dest (apart _ _ (.bytes comes copy.seen))
    rw [← first,filled]
    split
    · rename_i larger
      exact fillBytes_apart (fill.dest larger) (apart _ _ (.zeros comes copy fill.seen rfl larger))
    · rfl

theorem before_apart (earlier : ∀ j < i, PassesAt m buf j)
    (apart : ∀ j < i, ∀ a n, Writes (before m buf j) buf (phdrAddr m buf j) a n → ¬(x - a).toNat < n) :
    before m buf i x = m x := by
  induction i with
  | zero => rfl
  | succ i ih =>
    have here := Nat.lt_succ_self i
    refine (afterHeader_apart (earlier i here) (apart i here)).trans (ih ?_ ?_)
    · exact fun j less => earlier j (Nat.lt_trans less here)
    · exact fun j less => apart j (Nat.lt_trans less here)

/-- A byte outside of the heap and of all segments is as it was. -/
theorem load_unchanged {r : Int} (sound : Sound image.toKernelImage k)
    (result : (elfLoadAndRun image sym k name).result = .ok (k',r))
    (above : heapEnd image.toKernelImage ≤ x.toNat)
    (apart : ∀ a n, Segment image.toKernelImage k name a n → ¬(x - a).toNat < n) :
    k'.heap.mem x = k.heap.mem x := by
  obtain ⟨arena,held⟩ := sound.heap
  have loop {heap : Heap} {buf : Word} (opened : openFile image.toKernelImage k name = .ok (.ready heap buf))
      {j : Nat} (listed : j ≤ (ePhnum (pointee heap.mem buf)).toNat)
      (earlier : ∀ i < j, PassesAt heap.mem buf i) : before heap.mem buf j x = k.heap.mem x := by
    rw [before_apart earlier fun i less a n writes => apart a n
      ⟨heap,buf,i,opened,⟨by omega,fun l below => earlier l (by omega)⟩,writes⟩]
    exact ((opened_enters held sound.files opened).2.same x (.inr above)).symm
  have ends := load_ends held sound.files sym name
  rw [result] at ends
  cases ends with
  | refused _ _ _ same => exact (same x (.inr above)).symm
  | overlaps opened reached _ _ same =>
    rw [← loop opened (Nat.le_of_lt reached.listed) reached.earlier]
    exact (same x (.inr above)).symm
  | stored opened all _ _ same =>
    rw [← loop opened (Nat.le_refl _) all]
    exact (same x (.inr above)).symm

end Ranges

end NimrodOS.Elf
