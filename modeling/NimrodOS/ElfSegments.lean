import NimrodOS.Elf

/-! The loop over the program headers, without its checks: the memory that each header
finds, the headers that let the loop go on, and what it does to memory at each one. -/
namespace NimrodOS.Elf

open ByteMemory Wire Logged

/-- The fields of a program header that the loader reads. -/
structure Phdr where
  type : Word
  offset : Word
  vaddr : Word
  filesz : Word
  memsz : Word
  deriving DecidableEq, Repr

def Phdr.read (f : Nat → Byte) : Phdr := ⟨load32 f 0,load32 f 4,load32 f 8,load32 f 16,load32 f 20⟩

abbrev phdrIn (m : Memory) (phdr : Word) : Phdr := .read (pointee m phdr)

def copied (m : Memory) (buf : Word) (p : Phdr) : Memory :=
  copyBytes p.filesz.toNat m p.vaddr (buf + p.offset)

def filled (m : Memory) (p : Phdr) : Memory :=
  if p.memsz > p.filesz then fillBytes 0 (p.memsz - p.filesz).toNat m (p.vaddr + p.filesz) else m

structure CanCopy (m : Memory) (buf phdr : Word) : Prop where
  seen : phdr.toNat + 20 ≤ ramEnd
  dest : InProgram (phdrIn m phdr).vaddr (phdrIn m phdr).filesz.toNat
  src : InRam (buf + (phdrIn m phdr).offset) (phdrIn m phdr).filesz.toNat

structure CanFill (m : Memory) (phdr : Word) : Prop where
  seen : phdr.toNat + 24 ≤ ramEnd
  dest : (phdrIn m phdr).memsz > (phdrIn m phdr).filesz →
    InProgram ((phdrIn m phdr).vaddr + (phdrIn m phdr).filesz)
      ((phdrIn m phdr).memsz - (phdrIn m phdr).filesz).toNat

/-- The header is for no segment to load. -/
def Skips (m : Memory) (phdr : Word) : Prop := phdr.toNat + 4 ≤ ramEnd ∧ (phdrIn m phdr).type ≠ ptLoad

/-- It is for one, and its address can be read. -/
def Loads (m : Memory) (phdr : Word) : Prop := phdr.toNat + 12 ≤ ramEnd ∧ (phdrIn m phdr).type = ptLoad

def Stops (m : Memory) (phdr : Word) : Prop :=
  Loads m phdr ∧ (phdrIn m phdr).vaddr.toNat < programStart

/-- It comes to be placed, if it can. -/
def Comes (m : Memory) (phdr : Word) : Prop :=
  Loads m phdr ∧ programStart ≤ (phdrIn m phdr).vaddr.toNat

def Places (m : Memory) (buf phdr : Word) : Prop :=
  Comes m phdr ∧ CanCopy m buf phdr ∧ CanFill (copied m buf (phdrIn m phdr)) phdr

def Passes (m : Memory) (buf phdr : Word) : Prop := Skips m phdr ∨ Places m buf phdr

/-- The memory behind a header that passes. -/
def afterHeader (m : Memory) (buf phdr : Word) : Memory :=
  if (phdrIn m phdr).type = ptLoad then
    let m' := copied m buf (phdrIn m phdr)
    filled m' (phdrIn m' phdr)
  else m

/-- `p` holds of all that is done at a header. -/
def AllAt (p : Access → Prop) (m : Memory) (buf phdr : Word) (offset : Nat) : Prop :=
  p (.header offset) ∧ (Comes m phdr → phdr.toNat + 20 ≤ ramEnd →
    p (.copy (phdrIn m phdr).vaddr (phdrIn m phdr).offset.toNat (phdrIn m phdr).filesz.toNat) ∧
    (CanCopy m buf phdr → phdr.toNat + 24 ≤ ramEnd →
      let q := phdrIn (copied m buf (phdrIn m phdr)) phdr
      q.memsz > q.filesz → p (.fill (q.vaddr + q.filesz) (q.memsz - q.filesz).toNat)))

section Rounds

variable {m : Memory} {buf phdr : Word} {i k n : Nat} {p : Access → Prop}

theorem phdrField_ok (m : Memory) (inside : phdr.toNat + k + 4 ≤ ramEnd) :
    phdrField m phdr k = .ok (load32 (pointee m phdr) k) := if_pos inside

theorem phdrField_error (m : Memory) (outside : ¬phdr.toNat + k + 4 ≤ ramEnd) :
    phdrField m phdr k = .error .pageFault := if_neg outside

theorem checkWrite_ok {a : Word} (inside : InProgram a n) : checkWrite a n = .ok () := if_pos inside

theorem checkWrite_error {a : Word} (outside : ¬InProgram a n) : ∃ e, checkWrite a n = .error e := by
  unfold checkWrite
  rw [if_neg outside]
  split
  · exact ⟨_,rfl⟩
  · exact ⟨_,rfl⟩

theorem memcpy_ok {dest src : Word} (inside : InProgram dest n) (source : InRam src n) :
    memcpy m dest src n = .ok (copyBytes n m dest src) := by
  simp only [memcpy,checkWrite_ok inside,bind,Except.bind,if_pos source]

theorem memcpy_error {dest src : Word} (cannot : ¬(InProgram dest n ∧ InRam src n)) :
    ∃ e, memcpy m dest src n = .error e := by
  by_cases inside : InProgram dest n
  · have source : ¬InRam src n := fun source => cannot ⟨inside,source⟩
    exact ⟨.pageFault,by simp only [memcpy,checkWrite_ok inside,bind,Except.bind,if_neg source]⟩
  · obtain ⟨e,failed⟩ := checkWrite_error inside
    exact ⟨e,by simp only [memcpy,failed,bind,Except.bind]⟩

theorem memset_ok {dest : Word} {v : Byte} (inside : InProgram dest n) :
    memset m dest v n = .ok (fillBytes v n m dest) := by
  simp only [memset,checkWrite_ok inside,bind,Except.bind,pure,Except.pure]

theorem memset_error {dest : Word} {v : Byte} (outside : ¬InProgram dest n) :
    ∃ e, memset m dest v n = .error e := by
  obtain ⟨e,failed⟩ := checkWrite_error outside
  exact ⟨e,by simp only [memset,failed,bind,Except.bind]⟩

/-- The copy and what it logs, when the header can be read. -/
theorem copySegment_seen (m : Memory) (buf : Word) (seen : phdr.toNat + 20 ≤ ramEnd) :
    copySegment m buf phdr =
      ⟨[.copy (phdrIn m phdr).vaddr (phdrIn m phdr).offset.toNat (phdrIn m phdr).filesz.toNat],
        memcpy m (phdrIn m phdr).vaddr (buf + (phdrIn m phdr).offset) (phdrIn m phdr).filesz.toNat⟩ := by
  unfold copySegment
  rw [phdrField_ok m (by omega),phdrField_ok m (by omega),phdrField_ok m (by omega)]
  rfl

theorem copySegment_unseen (m : Memory) (buf : Word) (unseen : ¬phdr.toNat + 20 ≤ ramEnd) :
    copySegment m buf phdr = fail .pageFault := by
  unfold copySegment
  by_cases vaddr : phdr.toNat + 12 ≤ ramEnd
  · rw [phdrField_ok m (by omega),phdrField_ok m (by omega),phdrField_error m (by omega)]
    rfl
  · rw [phdrField_error m (by omega)]
    rfl

theorem copySegment_ok (can : CanCopy m buf phdr) :
    (copySegment m buf phdr).result = .ok (copied m buf (phdrIn m phdr)) := by
  rw [copySegment_seen m buf can.seen]
  exact memcpy_ok can.dest can.src

theorem copySegment_error (cannot : ¬CanCopy m buf phdr) :
    ∃ e, (copySegment m buf phdr).result = .error e := by
  by_cases seen : phdr.toNat + 20 ≤ ramEnd
  · rw [copySegment_seen m buf seen]
    exact memcpy_error fun both => cannot ⟨seen,both.1,both.2⟩
  · rw [copySegment_unseen m buf seen]
    exact ⟨.pageFault,rfl⟩

theorem all_copySegment : (copySegment m buf phdr).All p ↔ (phdr.toNat + 20 ≤ ramEnd →
    p (.copy (phdrIn m phdr).vaddr (phdrIn m phdr).offset.toNat (phdrIn m phdr).filesz.toNat)) := by
  by_cases seen : phdr.toNat + 20 ≤ ramEnd
  · rw [copySegment_seen m buf seen]
    simp [All,seen]
  · rw [copySegment_unseen m buf seen]
    simp [seen]

theorem zeroFill_seen (m : Memory) (seen : phdr.toNat + 24 ≤ ramEnd) :
    zeroFill m phdr =
      let p := phdrIn m phdr
      if p.memsz > p.filesz then
        ⟨[.fill (p.vaddr + p.filesz) (p.memsz - p.filesz).toNat],
          memset m (p.vaddr + p.filesz) 0 (p.memsz - p.filesz).toNat⟩
      else pure m := by
  unfold zeroFill
  rw [phdrField_ok m (by omega),phdrField_ok m (by omega),phdrField_ok m (by omega)]
  rfl

theorem zeroFill_unseen (m : Memory) (unseen : ¬phdr.toNat + 24 ≤ ramEnd) :
    zeroFill m phdr = fail .pageFault := by
  unfold zeroFill
  rw [phdrField_error m (by omega)]
  rfl

theorem zeroFill_ok (can : CanFill m phdr) :
    (zeroFill m phdr).result = .ok (filled m (phdrIn m phdr)) := by
  rw [zeroFill_seen m can.seen]
  unfold filled
  by_cases larger : (phdrIn m phdr).memsz > (phdrIn m phdr).filesz
  · simp only [larger,if_true]
    exact memset_ok (can.dest larger)
  · simp only [larger,if_false]
    rfl

theorem zeroFill_error (cannot : ¬CanFill m phdr) : ∃ e, (zeroFill m phdr).result = .error e := by
  by_cases seen : phdr.toNat + 24 ≤ ramEnd
  · rw [zeroFill_seen m seen]
    by_cases larger : (phdrIn m phdr).memsz > (phdrIn m phdr).filesz
    · simp only [larger,if_true]
      exact memset_error fun inside => cannot ⟨seen,fun _ => inside⟩
    · exact absurd ⟨seen,fun more => absurd more larger⟩ cannot
  · rw [zeroFill_unseen m seen]
    exact ⟨.pageFault,rfl⟩

theorem all_zeroFill : (zeroFill m phdr).All p ↔ (phdr.toNat + 24 ≤ ramEnd →
    let q := phdrIn m phdr
    q.memsz > q.filesz → p (.fill (q.vaddr + q.filesz) (q.memsz - q.filesz).toNat)) := by
  by_cases seen : phdr.toNat + 24 ≤ ramEnd
  · rw [zeroFill_seen m seen]
    by_cases larger : (phdrIn m phdr).memsz > (phdrIn m phdr).filesz
    · simp [All,seen,larger]
    · simp [seen,larger]
  · rw [zeroFill_unseen m seen]
    simp [seen]

theorem placeSegment_ok (copy : CanCopy m buf phdr)
    (fill : CanFill (copied m buf (phdrIn m phdr)) phdr) :
    (placeSegment m buf phdr).result =
      .ok (.loaded (filled (copied m buf (phdrIn m phdr)) (phdrIn (copied m buf (phdrIn m phdr)) phdr))) := by
  unfold placeSegment
  rw [bind_of_ok (copySegment_ok copy),bind_of_ok (zeroFill_ok fill)]
  rfl

theorem placeSegment_error
    (cannot : ¬(CanCopy m buf phdr ∧ CanFill (copied m buf (phdrIn m phdr)) phdr)) :
    ∃ e, (placeSegment m buf phdr).result = .error e := by
  unfold placeSegment
  by_cases copy : CanCopy m buf phdr
  · obtain ⟨e,failed⟩ := zeroFill_error fun fill => cannot ⟨copy,fill⟩
    rw [bind_of_ok (copySegment_ok copy),bind_of_error failed]
    exact ⟨e,rfl⟩
  · obtain ⟨e,failed⟩ := copySegment_error copy
    rw [bind_of_error failed]
    exact ⟨e,rfl⟩

theorem all_placeSegment : (placeSegment m buf phdr).All p ↔ (phdr.toNat + 20 ≤ ramEnd →
    p (.copy (phdrIn m phdr).vaddr (phdrIn m phdr).offset.toNat (phdrIn m phdr).filesz.toNat) ∧
    (CanCopy m buf phdr → phdr.toNat + 24 ≤ ramEnd →
      let q := phdrIn (copied m buf (phdrIn m phdr)) phdr
      q.memsz > q.filesz → p (.fill (q.vaddr + q.filesz) (q.memsz - q.filesz).toNat))) := by
  unfold placeSegment
  rw [all_bind,all_copySegment,imp_and]
  apply and_congr_right
  intro _
  by_cases copy : CanCopy m buf phdr
  · simp only [copySegment_ok copy,copy,copy.seen,Except.ok.injEq,forall_eq',all_bind,all_pure,
      implies_true,and_true,true_imp_iff]
    exact all_zeroFill
  · obtain ⟨e,failed⟩ := copySegment_error copy
    simp [failed,copy]

/-! A round ends in one of four ways. -/

theorem header_cases (m : Memory) (phdr : Word) :
    ¬Skips m phdr ∧ ¬Loads m phdr ∨ Skips m phdr ∨ Stops m phdr ∨ Comes m phdr := by
  by_cases skips : Skips m phdr
  · exact .inr (.inl skips)
  by_cases loads : Loads m phdr
  · rcases Nat.lt_or_ge (phdrIn m phdr).vaddr.toNat programStart with low | high
    · exact .inr (.inr (.inl ⟨loads,low⟩))
    · exact .inr (.inr (.inr ⟨loads,high⟩))
  · exact .inl ⟨skips,loads⟩

variable (m buf i)

theorem loadSegment_unseen (skips : ¬Skips m (phdrAddr m buf i)) (loads : ¬Loads m (phdrAddr m buf i)) :
    loadSegment m buf i = ⟨[.header (phdrOffset (pointee m buf) i)],.error .pageFault⟩ := by
  unfold loadSegment
  by_cases seen : (phdrAddr m buf i).toNat + 4 ≤ ramEnd
  · have type : load32 (pointee m (phdrAddr m buf i)) 0 = ptLoad :=
      not_not.mp fun other => skips ⟨seen,other⟩
    have hidden : ¬(phdrAddr m buf i).toNat + 8 + 4 ≤ ramEnd := fun inside => loads ⟨inside,type⟩
    simp only [phdrField_ok (k := 0) m seen,phdrField_error m hidden,type]
    rfl
  · simp only [phdrField_error (k := 0) m seen]
    rfl

theorem loadSegment_skips (skips : Skips m (phdrAddr m buf i)) :
    loadSegment m buf i = ⟨[.header (phdrOffset (pointee m buf) i)],.ok (.loaded m)⟩ := by
  have other : load32 (pointee m (phdrAddr m buf i)) 0 ≠ ptLoad := skips.2
  unfold loadSegment
  simp only [phdrField_ok (k := 0) m skips.1]
  exact congrArg (note _ >>= fun _ => ·) (if_pos other)

/-- A header of a segment to load whose address can be read. -/
theorem loadSegment_loads (loads : Loads m (phdrAddr m buf i)) : loadSegment m buf i =
    note (.header (phdrOffset (pointee m buf) i)) >>= fun _ =>
      if (phdrIn m (phdrAddr m buf i)).vaddr.toNat < programStart then pure (.overlaps m)
      else placeSegment m buf (phdrAddr m buf i) := by
  have type : load32 (pointee m (phdrAddr m buf i)) 0 = ptLoad := loads.2
  have seen := loads.1
  unfold loadSegment
  have first : (phdrAddr m buf i).toNat + 0 + 4 ≤ ramEnd := by omega
  simp only [phdrField_ok (k := 0) m first,phdrField_ok (k := 8) m seen,type]
  rfl

variable {m buf i}

theorem loadSegment_stops (stops : Stops m (phdrAddr m buf i)) :
    loadSegment m buf i = ⟨[.header (phdrOffset (pointee m buf) i)],.ok (.overlaps m)⟩ := by
  rw [loadSegment_loads m buf i stops.1,if_pos stops.2]
  rfl

theorem loadSegment_comes (comes : Comes m (phdrAddr m buf i)) : loadSegment m buf i =
    note (.header (phdrOffset (pointee m buf) i)) >>= fun _ =>
      placeSegment m buf (phdrAddr m buf i) := by
  rw [loadSegment_loads m buf i comes.1,if_neg (Nat.not_lt.mpr comes.2)]

theorem loadSegment_passes (passes : Passes m buf (phdrAddr m buf i)) :
    (loadSegment m buf i).result = .ok (.loaded (afterHeader m buf (phdrAddr m buf i))) := by
  rcases passes with skips | ⟨comes,copy,fill⟩
  · rw [loadSegment_skips m buf i skips,afterHeader,if_neg skips.2]
  · rw [loadSegment_comes comes,note_bind_result,placeSegment_ok copy fill,afterHeader,
      if_pos comes.1.2]

theorem not_stops_of_passes (passes : Passes m buf phdr) : ¬Stops m phdr := by
  rintro ⟨loads,low⟩
  rcases passes with skips | places
  · exact skips.2 loads.2
  · exact absurd places.1.2 (Nat.not_le.mpr low)

theorem loadSegment_error (passes : ¬Passes m buf (phdrAddr m buf i))
    (stops : ¬Stops m (phdrAddr m buf i)) : ∃ e, (loadSegment m buf i).result = .error e := by
  rcases header_cases m (phdrAddr m buf i) with ⟨skips,loads⟩ | skips | stopped | comes
  · rw [loadSegment_unseen m buf i skips loads]
    exact ⟨_,rfl⟩
  · exact absurd (.inl skips) passes
  · exact absurd stopped stops
  · rw [loadSegment_comes comes,note_bind_result]
    apply placeSegment_error
    exact fun both => passes (.inr ⟨comes,both⟩)

theorem all_loadSegment : (loadSegment m buf i).All p ↔
    AllAt p m buf (phdrAddr m buf i) (phdrOffset (pointee m buf) i) := by
  unfold AllAt
  rcases header_cases m (phdrAddr m buf i) with ⟨skips,loads⟩ | skips | stops | comes
  · rw [loadSegment_unseen m buf i skips loads]
    have none : ¬Comes m (phdrAddr m buf i) := fun comes => loads comes.1
    simp [All,none]
  · rw [loadSegment_skips m buf i skips]
    have none : ¬Comes m (phdrAddr m buf i) := fun comes => skips.2 comes.1.2
    simp [All,none]
  · rw [loadSegment_stops stops]
    have none : ¬Comes m (phdrAddr m buf i) := fun comes => absurd comes.2 (Nat.not_le.mpr stops.2)
    simp [All,none]
  · rw [loadSegment_comes comes,all_note_bind,all_placeSegment]
    simp only [comes,true_imp_iff]

end Rounds

end NimrodOS.Elf
