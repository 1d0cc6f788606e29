import NimrodOS.ElfCall

/-! Program headers that lie inside the file. The loop finds them as the file has them,
whatever it has placed before. -/
namespace NimrodOS.Elf

open ByteMemory Memory

/-- Program header `i` of a file. -/
def filePhdr (f : Nat → Byte) (i : Nat) : Phdr := .read fun k => f (phdrOffset f i + k)

def HeaderInside (f : Nat → Byte) (size i : Nat) : Prop := phdrOffset f i + phdrSize ≤ size

instance (f : Nat → Byte) (size i : Nat) : Decidable (HeaderInside f size i) :=
  inferInstanceAs (Decidable (_ ≤ _))

namespace Phdr

/-- The bytes of the segment, if it has any, lie inside of a file of that size. -/
def Inside (p : Phdr) (size : Nat) : Prop := p.filesz.toNat = 0 ∨ p.offset.toNat + p.filesz.toNat ≤ size

def Overlaps (p : Phdr) : Prop := p.type = ptLoad ∧ p.vaddr.toNat < programStart

/-- The memory of the segment, with the bytes of the file and the zeros behind them. -/
def extent (p : Phdr) : Nat := max p.filesz.toNat p.memsz.toNat

/-- It lies in program memory. -/
def Fits (p : Phdr) : Prop :=
  p.extent = 0 ∨ (programStart ≤ p.vaddr.toNat ∧ p.vaddr.toNat + p.extent ≤ ramEnd)

instance (p : Phdr) (size : Nat) : Decidable (p.Inside size) := inferInstanceAs (Decidable (_ ∨ _))

instance (p : Phdr) : Decidable p.Overlaps := inferInstanceAs (Decidable (_ ∧ _))

instance (p : Phdr) : Decidable p.Fits := inferInstanceAs (Decidable (_ ∨ _))

/-- The two ranges that the loader writes lie there when the segment does. -/
theorem fits_iff {p : Phdr} (above : programStart ≤ p.vaddr.toNat) : p.Fits ↔
    InProgram p.vaddr p.filesz.toNat ∧
      (p.memsz > p.filesz → InProgram (p.vaddr + p.filesz) (p.memsz - p.filesz).toNat) := by
  have limit : ramEnd = 0x1000000 := rfl
  have larger : p.memsz > p.filesz ↔ p.filesz.toNat < p.memsz.toNat := Iff.rfl
  simp only [Fits,extent,InProgram,larger]
  constructor
  · intro fits
    refine ⟨by omega,fun more => ?_⟩
    rw [BitVec.toNat_add,BitVec.toNat_sub]
    omega
  · rintro ⟨file,zeros⟩
    by_cases more : p.filesz.toNat < p.memsz.toNat
    · have zeros := zeros more
      rw [BitVec.toNat_add,BitVec.toNat_sub] at zeros
      omega
    · omega

end Phdr

/-- The file lies in its buffer, below program memory. -/
structure Copy (m : Memory) (buf : Word) (f : Nat → Byte) (size : Nat) : Prop where
  bytes : ∀ i < size, pointee m buf i = f i
  long : headerSize.toNat ≤ size
  small : buf.toNat + size ≤ programStart

section Found

variable {m m' : Memory} {buf : Word} {f : Nat → Byte} {size i : Nat}

theorem Copy.header (file : Copy m buf f size) : ePhnum (pointee m buf) = ePhnum f ∧
    ePhoff (pointee m buf) = ePhoff f ∧ ePhentsize (pointee m buf) = ePhentsize f ∧
    eEntry (pointee m buf) = eEntry f := by
  have kept (k : Nat) (inside : k < 52) : pointee m buf k = f k :=
    file.bytes k (Nat.lt_of_lt_of_le inside file.long)
  simp only [ePhnum,ePhoff,ePhentsize,eEntry,Wire.load16,Wire.load32,kept,Nat.reduceAdd,
    Nat.reduceLT,and_self]

theorem Copy.offset_eq (file : Copy m buf f size) (i : Nat) :
    phdrOffset (pointee m buf) i = phdrOffset f i := by
  obtain ⟨-,phoff,phentsize,-⟩ := file.header
  simp only [phdrOffset,phoff,phentsize]

/-- A header inside of the file is where it stands, behind the start of the buffer. -/
theorem Copy.addr_eq (file : Copy m buf f size) (i : Nat) :
    phdrAddr m buf i = buf + BitVec.ofNat 32 (phdrOffset f i) := by
  have whole (x y : Word) (n : Nat) :
      x + BitVec.ofNat 32 n * y = BitVec.ofNat 32 (x.toNat + n * y.toNat) := by
    simp [BitVec.ofNat_add,BitVec.ofNat_mul]
  obtain ⟨-,phoff,phentsize,-⟩ := file.header
  have wide : ((ePhentsize f).zeroExtend 32).toNat = (ePhentsize f).toNat := by
    rw [BitVec.toNat_setWidth]
    omega
  rw [phdrAddr,phoff,phentsize,BitVec.add_assoc,whole,wide,phdrOffset]

theorem Copy.addr_toNat (file : Copy m buf f size) (inside : HeaderInside f size i) :
    (phdrAddr m buf i).toNat = buf.toNat + phdrOffset f i := by
  have small := file.small
  have limit : programStart < 2^32 := by simp [programStart]
  unfold HeaderInside at inside
  rw [file.addr_eq i,offset_toNat (by omega)]

/-- It can be read, -/
theorem Copy.seen (file : Copy m buf f size) (inside : HeaderInside f size i) :
    (phdrAddr m buf i).toNat + phdrSize ≤ ramEnd := by
  have small := file.small
  have limit : programStart ≤ ramEnd := by simp [programStart,ramEnd]
  rw [file.addr_toNat inside]
  unfold HeaderInside at inside
  omega

/-- and is as the file has it. -/
theorem Copy.phdr_eq (file : Copy m buf f size) (inside : HeaderInside f size i)
    (same : AgreeOutside m m' programStart ramEnd) :
    phdrIn m' (phdrAddr m buf i) = filePhdr f i := by
  have field (k : Nat) (less : k < 32) :
      pointee m' (phdrAddr m buf i) k = f (phdrOffset f i + k) := by
    have small := file.small
    have here : phdrSize = 32 := rfl
    unfold HeaderInside at inside
    rw [← file.bytes _ (by omega),← pointee_keep same (by omega)]
    simp only [pointee,file.addr_eq i,BitVec.ofNat_add,BitVec.add_assoc]
  simp only [phdrIn,filePhdr,Phdr.read,Wire.load32,field,Nat.reduceAdd,Nat.reduceLT]

theorem Copy.source (file : Copy m buf f size) {p : Phdr} (inside : p.Inside size) :
    InRam (buf + p.offset) p.filesz.toNat := by
  have small := file.small
  have limit : programStart = 0x600000 := rfl
  have top : ramEnd = 0x1000000 := rfl
  rcases inside with none | inside
  · exact .inl none
  · right
    rw [BitVec.toNat_add]
    omega

/-- A byte of the file is in its buffer, below program memory. -/
theorem Copy.source_byte (file : Copy m buf f size) (same : AgreeOutside m m' programStart ramEnd)
    {offset k : Word} (inside : offset.toNat + k.toNat < size) :
    (buf + offset).toNat + k.toNat < programStart ∧
      m' (buf + offset + k) = f (offset.toNat + k.toNat) := by
  have small := file.small
  have limit : programStart = 0x600000 := rfl
  have place : buf + offset + k = buf + BitVec.ofNat 32 (offset.toNat + k.toNat) := by bv_omega
  constructor
  · bv_omega
  · rw [place,← file.bytes _ inside]
    exact pointee_keep same (by omega)

/-! So the file decides how the loop goes on there. -/

variable (file : Copy m buf f size) (inside : HeaderInside f size i)
  (same : AgreeOutside m m' programStart ramEnd)

include file inside same

theorem Copy.stops_iff : Stops m' (phdrAddr m buf i) ↔ (filePhdr f i).Overlaps := by
  have seen := file.seen inside
  have here : phdrSize = 32 := rfl
  simp only [Stops,Loads,file.phdr_eq inside same,Phdr.Overlaps,and_assoc]
  exact and_iff_right (by omega)

theorem Copy.comes_iff : Comes m' (phdrAddr m buf i) ↔
    (filePhdr f i).type = ptLoad ∧ ¬(filePhdr f i).Overlaps := by
  have seen := file.seen inside
  have here : phdrSize = 32 := rfl
  have first : (phdrAddr m buf i).toNat + 12 ≤ ramEnd := by omega
  simp only [Comes,Loads,file.phdr_eq inside same,Phdr.Overlaps,first,true_and,not_and,not_lt]
  apply and_congr_right
  intro load
  simp [load]

theorem Copy.canCopy_iff (source : InRam (buf + (filePhdr f i).offset) (filePhdr f i).filesz.toNat) :
    CanCopy m' buf (phdrAddr m buf i) ↔
      InProgram (filePhdr f i).vaddr (filePhdr f i).filesz.toNat := by
  have seen := file.seen inside
  have here : phdrSize = 32 := rfl
  have found := file.phdr_eq inside same
  constructor
  · intro can
    exact found ▸ can.dest
  · intro dest
    refine ⟨by omega,?_,?_⟩
    · rwa [found]
    · rwa [found]

theorem Copy.canFill_iff : CanFill m' (phdrAddr m buf i) ↔
    ((filePhdr f i).memsz > (filePhdr f i).filesz →
      InProgram ((filePhdr f i).vaddr + (filePhdr f i).filesz)
        ((filePhdr f i).memsz - (filePhdr f i).filesz).toNat) := by
  have seen := file.seen inside
  have here : phdrSize = 32 := rfl
  have found := file.phdr_eq inside same
  constructor
  · intro can
    have dest := can.dest
    rwa [found] at dest
  · intro dest
    refine ⟨by omega,?_⟩
    rwa [found]

/-- A header whose segment can be read. -/
theorem Copy.passes_iff (source : (filePhdr f i).type = ptLoad →
    InRam (buf + (filePhdr f i).offset) (filePhdr f i).filesz.toNat) :
    Passes m' buf (phdrAddr m buf i) ↔
      ((filePhdr f i).type = ptLoad → ¬(filePhdr f i).Overlaps ∧ (filePhdr f i).Fits) := by
  have seen := file.seen inside
  have here : phdrSize = 32 := rfl
  have first : (phdrAddr m buf i).toNat + 4 ≤ ramEnd := by omega
  simp only [Passes,Skips,Places,file.comes_iff inside same,first,true_and]
  rw [file.phdr_eq inside same]
  by_cases load : (filePhdr f i).type = ptLoad
  · simp only [load,ne_eq,not_true_eq_false,false_or,true_and,true_imp_iff]
    apply and_congr_right
    intro apart
    have above : programStart ≤ (filePhdr f i).vaddr.toNat := not_lt.mp fun low => apart ⟨load,low⟩
    rw [Phdr.fits_iff above,file.canCopy_iff inside same (source load)]
    apply and_congr_right
    intro dest
    exact file.canFill_iff inside (same.trans (copyBytes_program dest))
  · simp [load]

end Found

end NimrodOS.Elf
