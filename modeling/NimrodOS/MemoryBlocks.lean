import NimrodOS.Memory
import NimrodOS.Lib.ByteRanges
import NimrodOS.Lib.FirstFit

/-! The block list of the kernel heap as it lies in memory, and the two loops of
`memory.c` as first-fit allocation and merging on it. Positions are natural numbers;
headers take 12 bytes,
and `start + span` never passes the 32-bit address space, so no pointer wraps. -/
namespace NimrodOS.Memory

open ByteMemory FirstFit

/-- The pointer to a block list: null when there is none. -/
def link (start : Nat) : List Block → Word
  | [] => 0
  | _ :: _ => BitVec.ofNat 32 start

def flag (free : Bool) : Byte := if free then 1 else 0

/-- The header at `start` describes `b` and points on to `rest`. -/
structure HeaderAt (m : Memory) (start : Nat) (b : Block) (rest : List Block) : Prop where
  size : size m (BitVec.ofNat 32 start) = BitVec.ofNat 32 b.size
  isFree : isFree m (BitVec.ofNat 32 start) = flag b.free
  next : next m (BitVec.ofNat 32 start) = link (b.stop 12 start) rest

/-- The headers of a block list are in memory, one behind the payload of the other. -/
def Holds (m : Memory) : Nat → List Block → Prop
  | _, [] => True
  | start, b :: bs => HeaderAt m start b bs ∧ Holds m (b.stop 12 start) bs

@[simp] theorem flag_ne_zero (free : Bool) : flag free ≠ 0 ↔ free = true := by
  cases free <;> simp [flag]

theorem link_eq (start : Nat) (bs cs : List Block) (left : bs ≠ []) (right : cs ≠ []) :
    link start bs = link start cs := by
  cases bs <;> cases cs <;> simp_all [link]

theorem link_ne_zero {start : Nat} {b : Block} {bs : List Block} (positive : 0 < start)
    (fits : start < 2^32) : link start (b :: bs) ≠ 0 := by
  simp only [link]
  bv_omega

section Fields

variable {m : Memory} {a b v : Word}

/-! A header occupies the twelve bytes from its address on. -/

theorem agree_setSize (m : Memory) (a v : Word) {i j : Nat} (noWrap : a.toNat + 12 ≤ 2^32)
    (apart : j ≤ a.toNat ∨ a.toNat + 12 ≤ i) : Agree m (setSize m a v) i j :=
  agree_store32 m a v (by omega) (by omega)

theorem agree_setIsFree (m : Memory) (a : Word) (v : Byte) {i j : Nat}
    (noWrap : a.toNat + 12 ≤ 2^32) (apart : j ≤ a.toNat ∨ a.toNat + 12 ≤ i) :
    Agree m (setIsFree m a v) i j :=
  agree_store8 m (a + 4) v (by bv_omega)

theorem agree_setNext (m : Memory) (a v : Word) {i j : Nat} (noWrap : a.toNat + 12 ≤ 2^32)
    (apart : j ≤ a.toNat ∨ a.toNat + 12 ≤ i) : Agree m (setNext m a v) i j :=
  agree_store32 m (a + 8) v (by bv_omega) (by bv_omega)

theorem agree_header {m m' : Memory} {a : Word} (noWrap : a.toNat + 12 ≤ 2^32)
    (same : Agree m m' a.toNat (a.toNat + 12)) :
    size m a = size m' a ∧ isFree m a = isFree m' a ∧ next m a = next m' a := by
  refine ⟨same.load32 a (by omega) (by omega) (by omega),same _ (by bv_omega) (by bv_omega),?_⟩
  exact same.load32 (a + 8) (by bv_omega) (by bv_omega) (by bv_omega)

@[simp] theorem size_setSize : size (setSize m a v) a = v := load32_store32 m a v
@[simp] theorem isFree_setIsFree (f : Byte) : isFree (setIsFree m a f) a = f := store8_same ..
@[simp] theorem next_setNext : next (setNext m a v) a = v := load32_store32 m (a + 8) v

theorem isFree_setSize (noWrap : a.toNat + 12 ≤ 2^32) :
    isFree (setSize m a v) a = isFree m a :=
  store32_outside m a v _ (by omega) (by bv_omega)

theorem next_setSize (noWrap : a.toNat + 12 ≤ 2^32) : next (setSize m a v) a = next m a :=
  ((agree_store32 m a v (i := a.toNat + 4) (j := a.toNat + 12) (by omega) (by omega)).load32
    (a + 8) (by bv_omega) (by bv_omega) (by bv_omega)).symm

theorem size_setIsFree (f : Byte) (noWrap : a.toNat + 12 ≤ 2^32) :
    size (setIsFree m a f) a = size m a :=
  ((agree_store8 m (a + 4) f (i := a.toNat) (j := a.toNat + 4) (by bv_omega)).load32
    a (by omega) (by omega) (by omega)).symm

theorem next_setIsFree (f : Byte) (noWrap : a.toNat + 12 ≤ 2^32) :
    next (setIsFree m a f) a = next m a :=
  ((agree_store8 m (a + 4) f (i := a.toNat + 8) (j := a.toNat + 12) (by bv_omega)).load32
    (a + 8) (by bv_omega) (by bv_omega) (by bv_omega)).symm

theorem size_setNext (noWrap : a.toNat + 12 ≤ 2^32) : size (setNext m a v) a = size m a :=
  ((agree_store32 m (a + 8) v (i := a.toNat) (j := a.toNat + 8) (by bv_omega)
    (by bv_omega)).load32 a (by omega) (by omega) (by omega)).symm

theorem isFree_setNext (noWrap : a.toNat + 12 ≤ 2^32) :
    isFree (setNext m a v) a = isFree m a :=
  store32_outside m (a + 8) v _ (by bv_omega) (by bv_omega)

end Fields

theorem HeaderAt.frame {m m' : Memory} {start : Nat} {b : Block} {rest : List Block}
    (h : HeaderAt m start b rest) (fits : start + 12 ≤ 2^32)
    (same : Agree m m' start (start + 12)) : HeaderAt m' start b rest := by
  have at' : (BitVec.ofNat 32 start).toNat = start := by
    rw [BitVec.toNat_ofNat,Nat.mod_eq_of_lt (by omega)]
  obtain ⟨size,free,next⟩ := agree_header (a := BitVec.ofNat 32 start) (by omega) (at'.symm ▸ same)
  exact ⟨size ▸ h.size,free ▸ h.isFree,next ▸ h.next⟩

/-- Only bytes from `start` up to the end of the list matter. -/
theorem Holds.frame {m m' : Memory} {start : Nat} {bs : List Block} (h : Holds m start bs)
    (fits : start + span 12 bs ≤ 2^32) (same : Agree m m' start (start + span 12 bs)) :
    Holds m' start bs := by
  induction bs generalizing start with
  | nil => trivial
  | cons b bs ih =>
    simp only [span] at fits same
    refine ⟨h.1.frame (by omega) (same.mono (Nat.le_refl _) (by omega)),?_⟩
    exact ih h.2 (by simp only [Block.stop]; omega)
      (same.mono (by simp only [Block.stop]; omega) (by simp only [Block.stop]; omega))

/-- Of these only the headers. -/
theorem Holds.frame_headers {m m' : Memory} {start : Nat} {bs : List Block} (h : Holds m start bs)
    (fits : start + span 12 bs ≤ 2^32)
    (same : ∀ entry ∈ placed 12 start bs, Agree m m' entry.1 (entry.1 + 12)) :
    Holds m' start bs := by
  induction bs generalizing start with
  | nil => trivial
  | cons b bs ih =>
    simp only [span] at fits
    simp only [placed,List.forall_mem_cons] at same
    refine ⟨h.1.frame (by omega) same.1,?_⟩
    exact ih h.2 (by simp only [Block.stop]; omega) same.2

/-! Taking a block. -/

section Split

variable {m : Memory} {start : Nat} {b : Block} {bs : List Block} {n : Word}

/-- The memory with the header of the rest written, which still has to be linked. -/
def writeRest (m : Memory) (a rest n : Word) : Memory :=
  let m := setIsFree (setSize m rest (size m a - n - 12)) rest 1
  setNext m rest (next m a)

theorem split_wide (held : HeaderAt m start b bs) (fits : b.stop 12 start ≤ 2^32)
    (wide : n.toNat + 12 + 16 < b.size) :
    let a := BitVec.ofNat 32 start
    split m a n = setSize (setNext (writeRest m a (a + 12 + n) n) a (a + 12 + n)) a n := by
  have exceeds : size m (BitVec.ofNat 32 start) > n + headerSize + 16 := by
    rw [held.size]
    simp only [Block.stop,headerSize] at *
    bv_omega
  simp only [split,exceeds,if_true]
  rfl

theorem agree_writeRest (m : Memory) (a rest n : Word) {i j : Nat}
    (noWrap : rest.toNat + 12 ≤ 2^32) (apart : j ≤ rest.toNat ∨ rest.toNat + 12 ≤ i) :
    Agree m (writeRest m a rest n) i j := by
  have one := agree_setSize m rest (size m a - n - 12) noWrap apart
  have two := agree_setIsFree (setSize m rest (size m a - n - 12)) rest 1 noWrap apart
  exact (one.trans two).trans (agree_setNext _ rest _ noWrap apart)

theorem writeRest_header (m : Memory) (a rest n : Word) (noWrap : rest.toNat + 12 ≤ 2^32)
    (apart : a.toNat + 12 ≤ rest.toNat) :
    size (writeRest m a rest n) rest = size m a - n - 12 ∧
      isFree (writeRest m a rest n) rest = 1 ∧ next (writeRest m a rest n) rest = next m a := by
  have one := agree_setSize m rest (size m a - n - 12) (i := a.toNat) (j := a.toNat + 12)
    noWrap (by omega)
  have two := agree_setIsFree (setSize m rest (size m a - n - 12)) rest 1 (i := a.toNat)
    (j := a.toNat + 12) noWrap (by omega)
  have kept := (agree_header (by omega) (one.trans two)).2.2
  refine ⟨?_,?_,?_⟩
  · rw [writeRest,size_setNext noWrap,size_setIsFree _ noWrap,size_setSize]
  · rw [writeRest,isFree_setNext noWrap,isFree_setIsFree]
  · rw [writeRest,next_setNext,kept]

theorem split_narrow (held : HeaderAt m start b bs) (above : 16 < start)
    (fits : b.stop 12 start ≤ 2^32) (room : n.toNat ≤ b.size) (narrow : ¬n.toNat + 12 + 16 < b.size) :
    split m (BitVec.ofNat 32 start) n = m := by
  have stays : ¬size m (BitVec.ofNat 32 start) > n + headerSize + 16 := by
    rw [held.size]
    simp only [Block.stop,headerSize] at *
    bv_omega
  simp only [split,stays,if_false]

/-- Taking a block writes only inside it. -/
theorem agree_take (held : HeaderAt m start b bs) (above : 16 < start)
    (fits : b.stop 12 start ≤ 2^32) (room : n.toNat ≤ b.size) {i j : Nat}
    (apart : j ≤ start ∨ b.stop 12 start ≤ i) :
    Agree m (setIsFree (split m (BitVec.ofNat 32 start) n) (BitVec.ofNat 32 start) 0) i j := by
  have bound := fits
  simp only [Block.stop] at fits apart
  by_cases wide : n.toNat + 12 + 16 < b.size
  · rw [split_wide held bound wide]
    have behind : (BitVec.ofNat 32 start + 12 + n).toNat = start + 12 + n.toNat := by bv_omega
    have front : (BitVec.ofNat 32 start).toNat = start := by bv_omega
    generalize BitVec.ofNat 32 start = a at *
    generalize a + 12 + n = rest at *
    have first := agree_writeRest m a rest n (i := i) (j := j) (by omega) (by omega)
    have second := agree_setNext (writeRest m a rest n) a rest (i := i) (j := j)
      (by omega) (by omega)
    have third := agree_setSize (setNext (writeRest m a rest n) a rest) a n (i := i) (j := j)
      (by omega) (by omega)
    exact ((first.trans second).trans third).trans (agree_setIsFree _ a 0 (by omega) (by omega))
  · rw [split_narrow held above bound room wide]
    exact agree_setIsFree _ _ _ (by bv_omega) (by bv_omega)

theorem take_narrow (held : HeaderAt m start b bs) (fits : b.stop 12 start ≤ 2^32) :
    HeaderAt (setIsFree m (BitVec.ofNat 32 start) 0) start ⟨b.size,false⟩ bs := by
  have inside : (BitVec.ofNat 32 start).toNat + 12 ≤ 2^32 := by
    simp only [Block.stop] at fits; bv_omega
  constructor
  · rw [size_setIsFree _ inside,held.size]
  · rw [isFree_setIsFree]; rfl
  · rw [next_setIsFree _ inside,held.next]; rfl

/-- Taking the front of a block leaves a free block behind it. -/
theorem take_wide (held : HeaderAt m start b bs) (fits : b.stop 12 start ≤ 2^32)
    (wide : n.toNat + 12 + 16 < b.size) :
    let m' := setIsFree (split m (BitVec.ofNat 32 start) n) (BitVec.ofNat 32 start) 0
    let rest : Block := ⟨b.size - n.toNat - 12,true⟩
    HeaderAt m' start ⟨n.toNat,false⟩ (rest :: bs) ∧
      HeaderAt m' (start + 12 + n.toNat) rest bs := by
  have bound := fits
  simp only [Block.stop] at fits
  have front : (BitVec.ofNat 32 start).toNat = start := by bv_omega
  have behind : (BitVec.ofNat 32 start + 12 + n).toNat = start + 12 + n.toNat := by bv_omega
  have here : BitVec.ofNat 32 (start + 12 + n.toNat) = BitVec.ofNat 32 start + 12 + n := by bv_omega
  have left : (⟨b.size - n.toNat - 12,true⟩ : Block).stop 12 (start + 12 + n.toNat) =
      b.stop 12 start := by simp only [Block.stop]; omega
  rw [split_wide held bound wide]
  intro m' rest
  obtain ⟨size,free,next⟩ := writeRest_header m (BitVec.ofNat 32 start)
    (BitVec.ofNat 32 start + 12 + n) n (by omega) (by omega)
  constructor
  · refine ⟨?_,?_,?_⟩
    · rw [size_setIsFree _ (by omega),size_setSize]; bv_omega
    · rw [isFree_setIsFree]; rfl
    · rw [next_setIsFree _ (by omega),next_setSize (by omega),next_setNext]
      exact here.symm
  · -- the later stores go to the header in front
    have header : HeaderAt (writeRest m (BitVec.ofNat 32 start) (BitVec.ofNat 32 start + 12 + n) n)
        (start + 12 + n.toNat) rest bs := by
      refine ⟨?_,?_,?_⟩
      · have restSize : rest.size = b.size - n.toNat - 12 := rfl
        rw [here,size,held.size]
        bv_omega
      · rw [here,free]; rfl
      · rw [here,next,held.next,left]
    apply header.frame (by omega)
    have second := agree_setNext (writeRest m (BitVec.ofNat 32 start)
      (BitVec.ofNat 32 start + 12 + n) n) (BitVec.ofNat 32 start)
      (BitVec.ofNat 32 start + 12 + n) (i := start + 12 + n.toNat)
      (j := start + 12 + n.toNat + 12) (by omega) (by omega)
    exact (second.trans (agree_setSize _ _ _ (by omega) (by omega))).trans
      (agree_setIsFree _ _ _ (by omega) (by omega))

/-- Taking a block carves it in memory. -/
theorem take_holds (held : Holds m start (b :: bs)) (above : 16 < start)
    (fits : start + span 12 (b :: bs) ≤ 2^32) (room : n.toNat ≤ b.size) :
    Holds (setIsFree (split m (BitVec.ofNat 32 start) n) (BitVec.ofNat 32 start) 0) start
      (carve 12 16 n.toNat b ++ bs) := by
  simp only [span] at fits
  have bound : b.stop 12 start ≤ 2^32 := by simp only [Block.stop]; omega
  have rest := held.2.frame (by simp only [Block.stop]; omega)
    (agree_take held.1 above bound room (.inr (Nat.le_refl _)))
  unfold carve
  split_ifs with wide
  · have first := take_wide held.1 bound wide
    have left : (⟨b.size - n.toNat - 12,true⟩ : Block).stop 12 ((⟨n.toNat,false⟩ : Block).stop 12 start)
        = b.stop 12 start := by simp only [Block.stop]; omega
    exact ⟨first.1,first.2,left ▸ rest⟩
  · rw [split_narrow held.1 above bound room wide] at rest ⊢
    exact ⟨take_narrow held.1 bound,rest⟩

end Split

/-! The loop of `kmalloc` is first-fit allocation. -/

section Malloc

variable {m : Memory} {start : Nat} {bs : List Block} {n : Word} {fuel : Nat}

theorem fits_iff {b : Block} {rest : List Block} (held : HeaderAt m start b rest)
    (fits : b.stop 12 start ≤ 2^32) : isFree m (BitVec.ofNat 32 start) ≠ 0 ∧
      size m (BitVec.ofNat 32 start) ≥ n ↔ b.free = true ∧ n.toNat ≤ b.size := by
  rw [held.isFree,flag_ne_zero,held.size]
  simp only [Block.stop] at fits
  refine and_congr_right fun _ => ?_
  bv_omega

theorem kmallocLoop_none (held : Holds m start bs) (positive : 0 < start)
    (fits : start + span 12 bs ≤ 2^32) (enough : bs.length < fuel)
    (full : allocate 12 16 n.toNat start bs = none) :
    kmallocLoop n fuel m (link start bs) = some (m,0) := by
  induction bs generalizing start fuel with
  | nil =>
    obtain ⟨fuel,rfl⟩ := Nat.exists_eq_succ_of_ne_zero (Nat.ne_of_gt enough)
    simp [kmallocLoop,link]
  | cons b bs ih =>
    obtain ⟨fuel,rfl⟩ := Nat.exists_eq_succ_of_ne_zero (Nat.ne_of_gt (Nat.zero_lt_of_lt enough))
    simp only [span] at fits
    have bound : b.stop 12 start ≤ 2^32 := by simp only [Block.stop]; omega
    simp only [allocate] at full
    split at full
    · simp at full
    · rename_i small
      have onward := ih held.2 (by simp only [Block.stop]; omega) (by simp only [Block.stop]; omega)
        (by simpa using enough) (Option.map_eq_none_iff.mp full)
      have here : link start (b :: bs) = BitVec.ofNat 32 start := rfl
      rw [kmallocLoop,if_neg (link_ne_zero positive (by omega)),here,
        if_neg (mt (fits_iff held.1 bound).mp small),held.1.next,onward]

theorem kmallocLoop_some (held : Holds m start bs) (above : 16 < start)
    (fits : start + span 12 bs ≤ 2^32) (enough : bs.length < fuel) {r : Nat × List Block}
    (found : allocate 12 16 n.toNat start bs = some r) :
    ∃ m', kmallocLoop n fuel m (link start bs) = some (m',BitVec.ofNat 32 r.1) ∧
      Holds m' start r.2 ∧ AgreeOutside m m' start (start + span 12 bs) := by
  induction bs generalizing start fuel r with
  | nil => simp [allocate] at found
  | cons b bs ih =>
    obtain ⟨fuel,rfl⟩ := Nat.exists_eq_succ_of_ne_zero (Nat.ne_of_gt (Nat.zero_lt_of_lt enough))
    have total := fits
    simp only [span] at fits
    have bound : b.stop 12 start ≤ 2^32 := by simp only [Block.stop]; omega
    have here : link start (b :: bs) = BitVec.ofNat 32 start := rfl
    rw [kmallocLoop,if_neg (link_ne_zero (by omega) (by omega)),here]
    obtain ⟨free,room,rfl⟩ | ⟨small,tail,inner,rfl⟩ := allocate_cons found
    · rw [if_pos ((fits_iff held.1 bound).mpr ⟨free,room⟩)]
      refine ⟨_,by simp [headerSize,BitVec.ofNat_add],take_holds held above total room,?_⟩
      apply agreeOutside_iff.mpr
      intro i j apart
      apply agree_take held.1 above bound room
      simp only [Block.stop,span] at apart ⊢
      omega
    · rw [if_neg (mt (fits_iff held.1 bound).mp small),held.1.next]
      obtain ⟨m',ran,rest,same⟩ := ih held.2 (by simp only [Block.stop]; omega)
        (by simp only [Block.stop]; omega) (by simpa using enough) inner
      refine ⟨m',ran,⟨?_,rest⟩,same.mono (by simp only [Block.stop]; omega)
        (by simp only [Block.stop,span]; omega)⟩
      have kept := held.1.frame (by omega) (same.agree (by simp only [Block.stop]; omega))
      have pointer := link_eq (b.stop 12 start) bs tail.2
        (allocate_nonempty inner).1 (allocate_nonempty inner).2
      exact ⟨kept.size,kept.isFree,kept.next.trans pointer⟩

end Malloc

/-! The loop of `kfree` is one merging pass. -/

section Free

variable {m : Memory} {start : Nat} {b c : Block} {bs : List Block} {fuel : Nat}

/-- A round that merges turns two free blocks into one. -/
theorem merge_holds (held : Holds m start (b :: c :: bs)) (was : b.free = true)
    (fits : start + span 12 (b :: c :: bs) ≤ 2^32) :
    let a := BitVec.ofNat 32 start
    let grown := setSize m a (size m a + (headerSize + size m (next m a)))
    let merged := setNext grown a (next grown (next grown a))
    AgreeOutside m merged start (start + 12) ∧
      Holds merged start (⟨b.size + 12 + c.size,true⟩ :: bs) := by
  obtain ⟨first,second,rest⟩ := held
  simp only [span] at fits
  intro a grown merged
  have front : a.toNat = start := by simp only [a]; bv_omega
  have inside : a.toNat + 12 ≤ 2^32 := by omega
  have along : next m a = BitVec.ofNat 32 (b.stop 12 start) := first.next
  have sum : size m a + (headerSize + size m (next m a)) =
      BitVec.ofNat 32 (b.size + 12 + c.size) := by
    rw [along,second.size,first.size]
    simp only [headerSize]
    bv_omega
  have onward : next grown (next grown a) = link (c.stop 12 (b.stop 12 start)) bs := by
    have kept : HeaderAt grown _ c bs := second.frame (by simp only [Block.stop]; omega)
      (agree_setSize _ _ _ inside (by simp only [Block.stop]; omega))
    rw [next_setSize inside,along,kept.next]
  have outside {lo hi : Nat} (apart : hi ≤ start ∨ start + 12 ≤ lo) : Agree m merged lo hi :=
    (agree_setSize _ _ _ inside (by omega)).trans (agree_setNext _ _ _ inside (by omega))
  have stop : (⟨b.size + 12 + c.size,true⟩ : Block).stop 12 start = c.stop 12 (b.stop 12 start) := by
    simp only [Block.stop]; omega
  refine ⟨agreeOutside_iff.mpr fun i j apart => outside (by omega),⟨?_,?_,?_⟩,?_⟩
  · rw [size_setNext inside,size_setSize,sum]
  · rw [isFree_setNext inside,isFree_setSize inside,first.isFree,was]
  · rw [next_setNext,onward,stop]
  · rw [stop]
    refine rest.frame ?_ (outside (.inr ?_)) <;> simp only [Block.stop] <;> omega

theorem coalesceLoop_holds (held : Holds m start (b :: bs)) (positive : 0 < start)
    (fits : start + span 12 (b :: bs) ≤ 2^32) (enough : bs.length + 1 < fuel) :
    ∃ m', coalesceLoop fuel m (BitVec.ofNat 32 start) = some m' ∧
      Holds m' start (sweep 12 b bs) ∧ AgreeOutside m m' start (start + span 12 (b :: bs)) := by
  induction bs generalizing m start b fuel with
  | nil =>
    obtain ⟨fuel,rfl⟩ : ∃ k, fuel = k + 2 := ⟨fuel - 2,by simp only [List.length_nil] at enough; omega⟩
    have here : link start [b] ≠ 0 := link_ne_zero positive (by simp only [span] at fits; omega)
    simp only [link] at here
    have last : next m (BitVec.ofNat 32 start) = 0 := held.1.next
    refine ⟨m,?_,held,AgreeOutside.refl m⟩
    rw [coalesceLoop,if_neg here,if_neg fun found => found.2.1 last,last,coalesceLoop,if_pos rfl]
  | cons c bs ih =>
    obtain ⟨fuel,rfl⟩ := Nat.exists_eq_succ_of_ne_zero (Nat.ne_of_gt (Nat.zero_lt_of_lt enough))
    have total := fits
    simp only [span] at fits
    have here : link start (b :: c :: bs) ≠ 0 := link_ne_zero positive (by omega)
    have along : next m (BitVec.ofNat 32 start) = BitVec.ofNat 32 (b.stop 12 start) := held.1.next
    have there : link (b.stop 12 start) (c :: bs) ≠ 0 := link_ne_zero
      (by simp only [Block.stop]; omega) (by simp only [Block.stop]; omega)
    simp only [link] at here there
    have both : isFree m (BitVec.ofNat 32 start) ≠ 0 ∧ next m (BitVec.ofNat 32 start) ≠ 0 ∧
        isFree m (next m (BitVec.ofNat 32 start)) ≠ 0 ↔ b.free = true ∧ c.free = true := by
      rw [along,held.1.isFree,held.2.1.isFree,flag_ne_zero,flag_ne_zero]
      exact and_congr_right fun _ => and_iff_right there
    rw [coalesceLoop,if_neg here]
    simp only [sweep]
    split_ifs with found merges merges
    · obtain ⟨same,merged⟩ := merge_holds held merges.1 total
      obtain ⟨m',ran,swept,kept⟩ := ih merged positive (by simp only [span]; omega) (by simpa using enough)
      refine ⟨m',ran,swept,(same.mono (Nat.le_refl _) (by simp only [span]; omega)).trans
        (kept.mono (Nat.le_refl _) (by simp only [span]; omega))⟩
    · exact absurd (both.mp found) merges
    · exact absurd (both.mpr merges) found
    · rw [along]
      obtain ⟨m',ran,swept,kept⟩ := ih held.2 (by simp only [Block.stop]; omega)
        (by simp only [Block.stop,span]; omega) (by simpa using enough)
      refine ⟨m',ran,⟨?_,swept⟩,kept.mono (by simp only [Block.stop]; omega)
        (by simp only [Block.stop,span]; omega)⟩
      have stays := held.1.frame (by omega) (kept.agree (by simp only [Block.stop]; omega))
      obtain ⟨first,more,eq,-⟩ := sweep_head 12 c bs
      have pointer := link_eq (b.stop 12 start) (c :: bs) (sweep 12 c bs)
        (by simp) (by simp [eq])
      exact ⟨stays.size,stays.isFree,stays.next.trans pointer⟩

/-- Setting the flag of the header in front of a used payload frees that block. -/
theorem setIsFree_holds (held : Holds m start bs) (fits : start + span 12 bs ≤ 2^32)
    {p size : Nat} (member : (p,size) ∈ used 12 start bs) :
    Holds (setIsFree m (BitVec.ofNat 32 p - headerSize) 1) start (markFree 12 p start bs) := by
  induction bs generalizing start with
  | nil => simp [used] at member
  | cons b bs ih =>
    have above := used_above (by omega) member
    simp only [span] at fits above
    have at' : (BitVec.ofNat 32 p - headerSize).toNat = p - 12 := by
      simp only [headerSize]; bv_omega
    simp only [markFree]
    split_ifs with here
    · have header : BitVec.ofNat 32 p - headerSize = BitVec.ofNat 32 start := by
        simp only [headerSize]; bv_omega
      have inside : (BitVec.ofNat 32 start).toNat + 12 ≤ 2^32 := by bv_omega
      rw [header]
      refine ⟨⟨?_,?_,?_⟩,held.2.frame (by simp only [Block.stop]; omega)
        (agree_setIsFree _ _ _ inside (by simp only [Block.stop]; bv_omega))⟩
      · rw [size_setIsFree _ inside,held.1.size]
      · rw [isFree_setIsFree]; rfl
      · rw [next_setIsFree _ inside,held.1.next]; rfl
    · have later : (p,size) ∈ used 12 (b.stop 12 start) bs := by
        simp only [used] at member
        split at member
        · exact member
        · rcases List.mem_cons.mp member with eq | later
          · simp only [Prod.mk.injEq] at eq
            omega
          · exact later
      have beyond := used_above (by omega) later
      simp only [Block.stop] at beyond
      refine ⟨?_,ih held.2 (by simp only [Block.stop]; omega) later⟩
      have kept : HeaderAt (setIsFree m (BitVec.ofNat 32 p - headerSize) 1) start b bs :=
        held.1.frame (by omega) (agree_setIsFree _ _ _ (by omega) (by omega))
      have pointer := link_eq (b.stop 12 start) bs (markFree 12 p (b.stop 12 start) bs)
        (by rintro rfl; simp [used] at later) (by rw [Ne,markFree_eq_nil]; rintro rfl; simp [used] at later)
      exact ⟨kept.size,kept.isFree,kept.next.trans pointer⟩

end Free

/-! The heap as an arena of 4 MB behind the kernel. -/

theorem heapSize_toNat : heapSize.toNat = 4194304 := rfl
theorem maxBlocks_eq : maxBlocks = 349526 := rfl

abbrev HeapArena := Arena 12 4 4194304

def heapEnd (image : KernelImage) : Nat := (heapAddr image).toNat + heapSize.toNat

/-- The heap as `memory_init` leaves it. -/
def freshArena : HeapArena := Arena.whole (by decide) (by decide)

structure Represents (image : KernelImage) (h : Heap) (arena : HeapArena) : Prop where
  initialized : h.initialized = true
  heapStart : h.heapStart = heapAddr image
  holds : Holds h.mem (heapAddr image).toNat arena.blocks

section Arena

variable {image : KernelImage} {h : Heap} {arena : HeapArena}

theorem heapAddr_bounds (image : KernelImage) :
    0x100000 ≤ (heapAddr image).toNat ∧ (heapAddr image).toNat + heapSize.toNat < 2^32 := by
  have base := image.base
  have room := image.room
  have value := roundUp_toNat image.kernelEnd 12 (by decide)
  simp only [Nat.reducePow,Nat.reduceSub] at value
  have same : (heapAddr image).toNat = (image.kernelEnd.toNat + 4095) % 4294967296 / 4096 * 4096 := value
  rw [heapSize_toNat] at *
  omega

theorem align4_toNat (n : Word) : (align4 n).toNat = (n.toNat + 3) % 2^32 / 4 * 4 :=
  roundUp_toNat n 2 (by decide)

theorem align4_dvd (n : Word) : 4 ∣ (align4 n).toNat := ⟨_,(align4_toNat n).trans (Nat.mul_comm ..)⟩

theorem arena_length (arena : HeapArena) : arena.blocks.length < maxBlocks := by
  have := length_le_span 12 arena.blocks
  rw [arena.filled] at this
  rw [maxBlocks_eq]
  omega

theorem arena_fits (image : KernelImage) (arena : HeapArena) :
    (heapAddr image).toNat + span 12 arena.blocks < 2^32 := by
  rw [arena.filled]
  exact (heapAddr_bounds image).2

theorem arena_nonempty (arena : HeapArena) : arena.blocks ≠ [] := by
  intro empty
  have := arena.filled
  simp [empty,span] at this

/-- The walk starts at the pointer to the whole list. -/
theorem Represents.start_link (held : Represents image h arena) :
    h.heapStart = link (heapAddr image).toNat arena.blocks := by
  obtain ⟨b,bs,eq⟩ := List.exists_cons_of_ne_nil (arena_nonempty arena)
  rw [eq,held.heapStart,link,BitVec.ofNat_toNat,BitVec.setWidth_eq]

/-- The payload of a used block is its owner's to write. -/
theorem Represents.write_payload (held : Represents image h arena) {p size : Nat} {m : Memory}
    (member : (p,size) ∈ used 12 (heapAddr image).toNat arena.blocks)
    (same : AgreeOutside h.mem m p (p + size)) : Represents image {h with mem := m} arena := by
  refine ⟨held.initialized,held.heapStart,?_⟩
  apply held.holds.frame_headers (Nat.le_of_lt (arena_fits image arena))
  intro header placed
  exact same.agree (used_clear_of_headers (by decide) member placed).symm

/-- Only the bytes of the heap matter. -/
theorem Represents.frame (held : Represents image h arena) {m : Memory}
    (same : Agree h.mem m (heapAddr image).toNat (heapEnd image)) :
    Represents image {h with mem := m} arena := by
  refine ⟨held.initialized,held.heapStart,?_⟩
  apply held.holds.frame (Nat.le_of_lt (arena_fits image arena))
  rwa [arena.filled]

theorem Represents.write_above (held : Represents image h arena) {m : Memory} {lo hi : Nat}
    (same : AgreeOutside h.mem m lo hi) (above : heapEnd image ≤ lo) :
    Represents image {h with mem := m} arena := held.frame (same.agree (.inl above))

theorem memoryInit_represents (image : KernelImage) (h : Heap) :
    Represents image (memoryInit image h) freshArena := by
  obtain ⟨low,high⟩ := heapAddr_bounds image
  have inside : (heapAddr image).toNat + 12 ≤ 2^32 := by
    rw [heapSize_toNat] at high; omega
  refine ⟨rfl,rfl,⟨?_,?_,?_⟩,trivial⟩ <;>
    simp only [memoryInit,BitVec.ofNat_toNat,BitVec.setWidth_eq]
  · rw [size_setNext inside,size_setIsFree _ inside,size_setSize]; rfl
  · rw [isFree_setNext inside,isFree_setIsFree]; rfl
  · rw [next_setNext]; rfl

/-- `kmalloc` fails, leaving the heap alone, just when no free block is large enough. -/
theorem kmalloc_none (held : Represents image h arena) (n : Word)
    (full : arena.allocate 16 (heapAddr image).toNat (align4 n).toNat (by decide) (align4_dvd n) = none) :
    kmalloc image h n = some (h,0) := by
  have low := (heapAddr_bounds image).1
  have ran := kmallocLoop_none (n := align4 n) held.holds (by omega) (Nat.le_of_lt (arena_fits image arena))
    (arena_length arena)
    (Arena.allocate_eq_none.mp full)
  rw [← held.start_link] at ran
  rw [kmalloc,if_pos held.initialized,ran]
  rfl

/-- Otherwise it takes the first one. -/
theorem kmalloc_some (held : Represents image h arena) (n : Word) {p : Nat} {after : HeapArena}
    (found : arena.allocate 16 (heapAddr image).toNat (align4 n).toNat (by decide) (align4_dvd n) =
      some (p,after)) :
    ∃ h', kmalloc image h n = some (h',BitVec.ofNat 32 p) ∧ Represents image h' after ∧
      AgreeOutside h.mem h'.mem (heapAddr image).toNat (heapEnd image) := by
  have low := (heapAddr_bounds image).1
  obtain ⟨m,ran,holds,same⟩ := kmallocLoop_some held.holds (by omega) (Nat.le_of_lt (arena_fits image arena))
    (arena_length arena)
    (Arena.allocate_eq_some found)
  rw [← held.start_link] at ran
  rw [arena.filled] at same
  exact ⟨{h with mem := m},by rw [kmalloc,if_pos held.initialized,ran]; rfl,
    ⟨held.initialized,held.heapStart,holds⟩,same⟩

/-- `kfree` of a used payload releases its block. -/
theorem kfree_some (held : Represents image h arena) {p size : Nat}
    (member : (p,size) ∈ used 12 (heapAddr image).toNat arena.blocks) :
    ∃ h', kfree h (BitVec.ofNat 32 p) = some h' ∧
      Represents image h' (arena.release (heapAddr image).toNat p (by decide)) ∧
      AgreeOutside h.mem h'.mem (heapAddr image).toNat (heapEnd image) := by
  have low := (heapAddr_bounds image).1
  have within := used_above (by omega) member
  have fits := arena_fits image arena
  have pointer : BitVec.ofNat 32 p ≠ 0 := by bv_omega
  have marked := setIsFree_holds held.holds (Nat.le_of_lt fits) member
  have total := span_markFree 12 p (heapAddr image).toNat arena.blocks
  have length := length_le_span 12 (markFree 12 p (heapAddr image).toNat arena.blocks)
  cases eq : markFree 12 p (heapAddr image).toNat arena.blocks with
  | nil => exact absurd (markFree_eq_nil.mp eq) (arena_nonempty arena)
  | cons b bs =>
    rw [eq] at marked total length
    have enough : bs.length + 1 < maxBlocks := by
      rw [total,arena.filled,List.length_cons] at length
      rw [maxBlocks_eq]
      omega
    obtain ⟨m,ran,swept,same⟩ := coalesceLoop_holds marked (by omega) (by omega) enough
    rw [BitVec.ofNat_toNat,BitVec.setWidth_eq,← held.heapStart] at ran
    rw [total,arena.filled] at same
    refine ⟨{h with mem := m},by simp only [kfree,if_neg pointer,ran,Option.map_some],
      ⟨held.initialized,held.heapStart,?_⟩,?_⟩
    · simpa only [Arena.release,FirstFit.release,eq,coalesce] using swept
    · have flag : AgreeOutside h.mem (setIsFree h.mem (BitVec.ofNat 32 p - headerSize) 1)
          (heapAddr image).toNat (heapEnd image) := by
        rw [arena.filled] at within fits
        have inside : 12 ≤ p ∧ p < 2^32 := by omega
        have position : (BitVec.ofNat 32 p - headerSize + 4).toNat = p - 8 := by
          simp only [headerSize]
          bv_omega
        simp only [heapEnd,heapSize_toNat]
        apply agreeOutside_store8 <;> omega
      exact flag.trans same

end Arena

end NimrodOS.Memory
