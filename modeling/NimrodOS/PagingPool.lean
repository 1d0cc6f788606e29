import Mathlib.Data.Fintype.Fin
import NimrodOS.Lib.Run
import NimrodOS.PagingFrames

/-! Who holds the frames while they are handed out and given back in any order. The search
for a free frame starts at `first_free_frame`, below which all frames are reserved. -/
namespace NimrodOS.Paging

open Transition

/-- The allocator, and the frames that were handed out and not given back since. -/
structure Pool where
  frames : Frames
  outstanding : Finset Word

inductive PoolOp where
  | alloc
  | free (frame : Word)

/-- Only frames that are outstanding are given back. -/
inductive Pool.Step : Pool → PoolOp → Pool → Prop where
  | full {s : Pool} {frames : Frames} (none : pmmAllocFrame s.frames = (frames,0)) :
      Step s .alloc ⟨frames,s.outstanding⟩
  | alloc {s : Pool} {frames : Frames} {a : Word} (nonzero : a ≠ 0)
      (given : pmmAllocFrame s.frames = (frames,a)) : Step s .alloc ⟨frames,insert a s.outstanding⟩
  | free {s : Pool} {a : Word} (held : a ∈ s.outstanding) :
      Step s (.free a) ⟨pmmFreeFrame s.frames a,s.outstanding.erase a⟩

/-- The frames up to `kernel_end`. -/
def reserved (kernelEnd : Word) : Nat := (kernelEnd.toNat + 4095) / 4096

def frameAddr (i : Nat) : Word := BitVec.ofNat 32 (i * 4096)

/-- The address of a frame that nobody holds. -/
structure Free (kernelEnd : Word) (s : Pool) (a : Word) : Prop where
  aligned : 4096 ∣ a.toNat
  above : reserved kernelEnd * 4096 ≤ a.toNat
  below : a.toNat < 0x1000000
  unheld : a ∉ s.outstanding

structure Serves (kernelEnd : Word) (s : Pool) : Prop where
  full : (pmmAllocFrame s.frames).2 = 0 ↔ ∀ a, ¬Free kernelEnd s a
  lowest : (pmmAllocFrame s.frames).2 ≠ 0 → Free kernelEnd s (pmmAllocFrame s.frames).2 ∧
    ∀ a, Free kernelEnd s a → (pmmAllocFrame s.frames).2.toNat ≤ a.toNat
  hint : ∀ i : Fin totalFrames, i.val < s.frames.firstFreeFrame.toNat →
    bitmapTest s.frames.frameBitmap i = true
  used : (pmmFramesUsed s.frames).toNat = reserved kernelEnd + s.outstanding.card

/-- What the bitmap records. -/
structure Recorded (kernelEnd : Word) (s : Pool) : Prop where
  start : s.frames.firstFreeFrame.toNat = reserved kernelEnd
  places : ∀ a ∈ s.outstanding, ∃ i : Fin totalFrames, reserved kernelEnd ≤ i.val ∧ frameAddr i = a
  taken : ∀ i : Fin totalFrames, bitmapTest s.frames.frameBitmap i = true ↔
    i.val < reserved kernelEnd ∨ frameAddr i ∈ s.outstanding

section Addresses

variable {i j n : Nat} {a kernelEnd : Word}

theorem frameAddr_toNat (inside : i < totalFrames) : (frameAddr i).toNat = i * 4096 := by
  have limit : totalFrames = 4096 := rfl
  rw [frameAddr,BitVec.toNat_ofNat]
  omega

theorem frameAddr_injective (left : i < totalFrames) (right : j < totalFrames)
    (same : frameAddr i = frameAddr j) : i = j := by
  have values := congrArg BitVec.toNat same
  rw [frameAddr_toNat left,frameAddr_toNat right] at values
  omega

/-- Every aligned address below 16 MB is that of a frame. -/
theorem frame_of_aligned (aligned : 4096 ∣ a.toNat) (below : a.toNat < 0x1000000) :
    ∃ i : Fin totalFrames, frameAddr i = a ∧ i.val * 4096 = a.toNat := by
  obtain ⟨n,same⟩ := aligned
  have limit : totalFrames = 4096 := rfl
  have inside : n < totalFrames := by omega
  refine ⟨⟨n,inside⟩,?_,?_⟩
  · apply BitVec.eq_of_toNat_eq
    rw [frameAddr_toNat inside]
    omega
  · dsimp only
    omega

theorem frameAddr_index (inside : i < totalFrames) : (frameAddr i / pageSize).toNat = i := by
  have size : pageSize.toNat = 4096 := rfl
  rw [BitVec.toNat_udiv,frameAddr_toNat inside,size]
  omega

theorem reserved_toNat (fits : kernelEnd.toNat ≤ 0x1000000) :
    ((kernelEnd + pageSize - 1) / pageSize).toNat = reserved kernelEnd := by
  have size : pageSize.toNat = 4096 := rfl
  have top : (kernelEnd + pageSize - 1).toNat = kernelEnd.toNat + 4095 := by bv_omega
  rw [BitVec.toNat_udiv,top,size,reserved]

theorem reserved_le (fits : kernelEnd.toNat ≤ 0x1000000) : reserved kernelEnd ≤ totalFrames := by
  have limit : totalFrames = 4096 := rfl
  unfold reserved
  omega

end Addresses

section Pool

variable {kernelEnd a : Word} {s t : Pool} {op : PoolOp}

theorem bitmapTest_clear (frameBitmap : Fin 512 → Byte) (frame : Nat) (i : Fin totalFrames) :
    bitmapTest (bitmapClear frameBitmap frame) i =
      (!decide (i.val = frame) && bitmapTest frameBitmap i) := by
  have small (n : Nat) : n % 8 < 8 := Nat.mod_lt n (by decide)
  simp only [bitmapTest,bitmapClear,Bits.and_mask _ (small _)]
  by_cases byte : i.val / 8 = frame / 8
  · have same : frame % 8 = i.val % 8 ↔ i.val = frame := by omega
    rw [if_pos byte,Bits.clear_mask _ (small _)]
    simp only [same]
  · have other : i.val ≠ frame := fun same => byte (congrArg (· / 8) same)
    simp [byte,other]

theorem pmmInit_recorded (fits : kernelEnd.toNat ≤ 0x1000000) :
    Recorded kernelEnd ⟨pmmInit kernelEnd,∅⟩ where
  start := reserved_toNat fits
  places := by simp
  taken i := by
    simp only [pmmInit,reserved_toNat fits,bitmapTest_reserve,decide_eq_true_eq,Finset.notMem_empty,
      or_false]

/-- A frame that the bitmap shows as free. -/
theorem Recorded.free_iff (recorded : Recorded kernelEnd s) (i : Fin totalFrames) :
    Free kernelEnd s (frameAddr i) ↔ bitmapTest s.frames.frameBitmap i = false := by
  have limit : totalFrames = 4096 := rfl
  have inside := i.isLt
  have address := frameAddr_toNat inside
  have taken := recorded.taken i
  constructor
  · intro free
    have above := free.above
    rw [← Bool.not_eq_true,taken,not_or]
    exact ⟨by omega,free.unheld⟩
  · intro clear
    rw [clear] at taken
    simp only [Bool.false_eq_true,false_iff,not_or,not_lt] at taken
    refine ⟨?_,?_,?_,taken.2⟩
    · omega
    · omega
    · omega

theorem Recorded.freeFrame_iff (recorded : Recorded kernelEnd s) (i : Fin totalFrames) :
    freeFrame s.frames = some i ↔ Free kernelEnd s (frameAddr i) ∧
      ∀ j < i, ¬Free kernelEnd s (frameAddr j) := by
  have looked (j : Fin totalFrames) : (decide (s.frames.firstFreeFrame.toNat ≤ j.val) &&
      !bitmapTest s.frames.frameBitmap j) = true ↔ Free kernelEnd s (frameAddr j) := by
    rw [recorded.free_iff,Bool.and_eq_true,decide_eq_true_eq,Bool.not_eq_true',recorded.start]
    have taken := recorded.taken j
    constructor
    · exact And.right
    · intro clear
      refine ⟨?_,clear⟩
      rw [clear] at taken
      simp only [Bool.false_eq_true,false_iff,not_or,not_lt] at taken
      exact taken.1
  unfold freeFrame
  rw [Fin.find?_eq_some_iff,looked]
  refine and_congr_right fun _ => forall₂_congr fun j _ => ?_
  rw [← Bool.not_eq_true,looked]

theorem Recorded.freeFrame_none (recorded : Recorded kernelEnd s) (none : freeFrame s.frames = none) :
    ∀ a, ¬Free kernelEnd s a := by
  intro a free
  obtain ⟨i,rfl,-⟩ := frame_of_aligned free.aligned free.below
  unfold freeFrame at none
  rw [Fin.find?_eq_none_iff] at none
  have clear := (recorded.free_iff i).mp free
  have above := free.above
  rw [frameAddr_toNat i.isLt] at above
  have skipped := none i
  rw [clear,recorded.start] at skipped
  simp only [Bool.not_false,Bool.and_true,decide_eq_false_iff_not] at skipped
  omega

/-- What `pmm_alloc_frame` returns. -/
theorem Recorded.alloc_cases (positive : 0 < kernelEnd.toNat) (recorded : Recorded kernelEnd s) :
    ((∀ a, ¬Free kernelEnd s a) ∧ pmmAllocFrame s.frames = (s.frames,0)) ∨
    ∃ i : Fin totalFrames, Free kernelEnd s (frameAddr i) ∧
      (∀ a, Free kernelEnd s a → (frameAddr i).toNat ≤ a.toNat) ∧ frameAddr i ≠ 0 ∧
      pmmAllocFrame s.frames =
        ({s.frames with frameBitmap := bitmapSet s.frames.frameBitmap i},frameAddr i) := by
  cases found : freeFrame s.frames with
  | none => exact .inl ⟨recorded.freeFrame_none found,by rw [pmmAllocFrame,found]⟩
  | some i =>
    obtain ⟨free,first⟩ := (recorded.freeFrame_iff i).mp found
    refine .inr ⟨i,free,fun a other => ?_,fun zero => ?_,by rw [pmmAllocFrame,found]; rfl⟩
    · obtain ⟨j,rfl,-⟩ := frame_of_aligned other.aligned other.below
      have order : ¬j < i := fun before => first j before other
      rw [frameAddr_toNat i.isLt,frameAddr_toNat j.isLt]
      omega
    · have above := free.above
      have value : (frameAddr i).toNat = 0 := by
        rw [zero]
        rfl
      unfold reserved at above
      omega

theorem Recorded.alloc (recorded : Recorded kernelEnd s) {i : Fin totalFrames}
    (free : Free kernelEnd s (frameAddr i)) :
    Recorded kernelEnd ⟨{s.frames with frameBitmap := bitmapSet s.frames.frameBitmap i},
      insert (frameAddr i) s.outstanding⟩ where
  start := recorded.start
  places := by
    have above := free.above
    rw [frameAddr_toNat i.isLt] at above
    intro a member
    rcases Finset.mem_insert.mp member with rfl | held
    · exact ⟨i,by omega,rfl⟩
    · exact recorded.places a held
  taken j := by
    have same : frameAddr j = frameAddr i ↔ j.val = i.val :=
      ⟨frameAddr_injective j.isLt i.isLt,fun equal => by rw [equal]⟩
    simp only [bitmapTest_set,Bool.or_eq_true,decide_eq_true_eq,recorded.taken,Finset.mem_insert,same]
    exact or_left_comm

/-- A frame that is given back was not reserved, so the search starts where it did. -/
theorem Recorded.free (recorded : Recorded kernelEnd s) (held : a ∈ s.outstanding) :
    Recorded kernelEnd ⟨pmmFreeFrame s.frames a,s.outstanding.erase a⟩ := by
  obtain ⟨i,above,rfl⟩ := recorded.places a held
  have index := frameAddr_index i.isLt
  have start := recorded.start
  constructor
  · have kept : ¬frameAddr i / pageSize < s.frames.firstFreeFrame := by
      rw [BitVec.lt_def,index]
      omega
    simp only [pmmFreeFrame,if_neg kept]
    exact start
  · intro b member
    exact recorded.places b (Finset.mem_of_mem_erase member)
  · intro j
    have same : frameAddr j = frameAddr i ↔ j.val = i.val :=
      ⟨frameAddr_injective j.isLt i.isLt,fun equal => by rw [equal]⟩
    simp only [pmmFreeFrame,index,bitmapTest_clear,Bool.and_eq_true,Bool.not_eq_true',
      decide_eq_false_iff_not,recorded.taken,Finset.mem_erase,ne_eq,same]
    constructor
    · rintro ⟨other,low | kept⟩
      · exact .inl low
      · exact .inr ⟨other,kept⟩
    · rintro (low | ⟨other,kept⟩)
      · exact ⟨by omega,.inl low⟩
      · exact ⟨other,.inr kept⟩

theorem Recorded.step (positive : 0 < kernelEnd.toNat) (recorded : Recorded kernelEnd s)
    (moved : Pool.Step s op t) : Recorded kernelEnd t := by
  cases moved with
  | full none =>
    rcases recorded.alloc_cases positive with ⟨-,same⟩ | ⟨i,-,-,nonzero,same⟩
    · obtain ⟨rfl,-⟩ := Prod.mk.inj (same.symm.trans none)
      exact recorded
    · exact absurd (Prod.mk.inj (same.symm.trans none)).2 nonzero
  | alloc nonzero given =>
    rcases recorded.alloc_cases positive with ⟨-,same⟩ | ⟨i,free,-,-,same⟩
    · exact absurd (Prod.mk.inj (same.symm.trans given)).2.symm nonzero
    · obtain ⟨rfl,rfl⟩ := Prod.mk.inj (same.symm.trans given)
      exact recorded.alloc free
  | free held => exact recorded.free held

/-! The number of frames in use. -/

theorem foldl_count (p : α → Bool) (xs : List α) (count : Word) :
    xs.foldl (fun count x => if p x then count + 1 else count) count =
      count + BitVec.ofNat 32 (xs.countP p) := by
  induction xs generalizing count with
  | nil => simp
  | cons x xs ih =>
    rw [List.foldl_cons,ih,List.countP_cons]
    split
    · rw [BitVec.ofNat_add,BitVec.add_assoc,BitVec.add_comm 1]
      rfl
    · rfl

theorem count_toNat (p : α → Bool) {xs : List α} (short : xs.length < 2^32) :
    (xs.foldl (fun count x => if p x then count + 1 else count) (0 : Word)).toNat = xs.countP p := by
  have most := List.countP_le_length (p := p) (l := xs)
  have start (x : Word) : 0 + x = x := BitVec.zero_add x
  rw [foldl_count,start,BitVec.toNat_ofNat]
  exact Nat.mod_eq_of_lt (by omega)

theorem pmmFramesUsed_toNat (f : Frames) : (pmmFramesUsed f).toNat =
    (Finset.univ.filter fun i => bitmapTest f.frameBitmap i = true).card := by
  have all := (List.nodup_finRange totalFrames).card_eq_countP
    (P := fun i => bitmapTest f.frameBitmap i = true)
  rw [List.toFinset_finRange] at all
  simp only [Bool.decide_eq_true] at all
  unfold pmmFramesUsed
  rw [all]
  apply count_toNat
  rw [List.length_finRange]
  decide

/-- The frames in use are the reserved ones and those outstanding. -/
theorem Recorded.used (fits : kernelEnd.toNat ≤ 0x1000000) (recorded : Recorded kernelEnd s) :
    (pmmFramesUsed s.frames).toNat = reserved kernelEnd + s.outstanding.card := by
  have split : (Finset.univ.filter fun i => bitmapTest s.frames.frameBitmap i = true) =
      (Finset.univ.filter fun i : Fin totalFrames => i.val < reserved kernelEnd) ∪
        Finset.univ.filter fun i : Fin totalFrames => frameAddr i ∈ s.outstanding := by
    ext i
    simp [recorded.taken]
  have apart : Disjoint (Finset.univ.filter fun i : Fin totalFrames => i.val < reserved kernelEnd)
      (Finset.univ.filter fun i : Fin totalFrames => frameAddr i ∈ s.outstanding) := by
    rw [Finset.disjoint_filter]
    intro i _ low held
    obtain ⟨j,above,same⟩ := recorded.places _ held
    have equal := frameAddr_injective j.isLt i.isLt same
    omega
  have held : (Finset.univ.filter fun i : Fin totalFrames => frameAddr i ∈ s.outstanding).card =
      s.outstanding.card := by
    apply Finset.card_bij fun i _ => frameAddr i.val
    · intro i member
      simpa using member
    · intro i _ j _ same
      exact Fin.ext (frameAddr_injective i.isLt j.isLt same)
    · intro a member
      obtain ⟨i,-,rfl⟩ := recorded.places a member
      exact ⟨i,by simpa using member,rfl⟩
  rw [pmmFramesUsed_toNat,split,Finset.card_union_of_disjoint apart,held,Fin.card_filter_val_lt,
    Nat.min_eq_right (reserved_le fits)]

/-- Whatever was handed out and given back before, the lowest free frame comes next. -/
theorem pool_serves {past : List (Pool × PoolOp)} (positive : 0 < kernelEnd.toNat)
    (fits : kernelEnd.toNat ≤ 0x1000000) (run : Run Pool.Step ⟨pmmInit kernelEnd,∅⟩ past s) :
    Serves kernelEnd s := by
  have recorded : Recorded kernelEnd s :=
    run.invariant (pmmInit_recorded fits) fun _ _ _ held moved => held.step positive moved
  constructor
  · rcases recorded.alloc_cases positive with ⟨none,same⟩ | ⟨i,free,-,nonzero,same⟩
    · rw [same]
      exact iff_of_true rfl none
    · rw [same]
      exact iff_of_false nonzero fun none => none _ free
  · rcases recorded.alloc_cases positive with ⟨-,same⟩ | ⟨i,free,lowest,-,same⟩
    · rw [same]
      exact fun nonzero => absurd rfl nonzero
    · rw [same]
      exact fun _ => ⟨free,lowest⟩
  · intro i below
    rw [recorded.start] at below
    exact (recorded.taken i).mpr (.inl below)
  · exact recorded.used fits

/-- One frame behind a kernel of one byte. -/
theorem pool_serves_first : Serves 1 ⟨(pmmAllocFrame (pmmInit 1)).1,insert (pmmAllocFrame (pmmInit 1)).2 ∅⟩ := by
  have served : Serves 1 ⟨pmmInit 1,∅⟩ := pool_serves (by decide) (by decide) .nil
  have given : (pmmAllocFrame (pmmInit 1)).2 ≠ 0 := by
    intro zero
    refine (served.full.mp zero) 4096 ⟨by decide,by decide,by decide,by simp⟩
  exact pool_serves (by decide) (by decide) (Run.single (.alloc given Prod.mk.eta.symm))

end Pool

end NimrodOS.Paging
