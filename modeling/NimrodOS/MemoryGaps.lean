import NimrodOS.MemoryRuns
import NimrodOS.Lib.Gaps

/-! The heap by its bytes: what is free is a gap between used blocks, which a request takes
from the bottom, and which does not depend on the order in which blocks were freed. -/
namespace NimrodOS.Memory

open ByteMemory FirstFit Transition

/-- The byte belongs to a used block, header or payload. -/
def UsedByte (blocks : List Visit) (x : Nat) : Prop :=
  ∃ b ∈ blocks, b.isFree = 0 ∧ b.addr.toNat ≤ x ∧ x < b.addr.toNat + 12 + b.size.toNat

/-- A longest run of bytes of the heap that belong to no used block. -/
abbrev HeapGap (h : Heap) (blocks : List Visit) (i j : Nat) : Prop :=
  Gap (UsedByte blocks) h.heapStart.toNat (h.heapStart.toNat + heapSize.toNat) i j

/-- A header and the size rounded up. -/
def needed (n : Word) : Nat := 12 + (n.toNat + 3) / 4 * 4

/-- The request takes the front of the lowest gap that has room for it. -/
structure ServedFirst (h : Heap) (blocks after : List Visit) (n p : Word) (i j : Nat) : Prop where
  gap : HeapGap h blocks i j
  room : needed n ≤ j - i
  lowest : ∀ i' j', HeapGap h blocks i' j' → needed n ≤ j' - i' → i ≤ i'
  pointer : p.toNat = i + 12
  taken : ∃ k, i + needed n ≤ k ∧ k ≤ j ∧
    ∀ x, UsedByte after x ↔ UsedByte blocks x ∨ i ≤ x ∧ x < k

/-- Several calls of `kfree`. -/
def freeAll (h : Heap) (ps : List Word) : Option Heap := ps.foldlM kfree h

section Bytes

variable {start x : Nat} {bs : List Block}

theorem usedByte_iff (fits : start + span 12 bs < 2^32) :
    UsedByte (visits start bs) x ↔ Covered 12 start bs x := by
  induction bs generalizing start with
  | nil => simp [UsedByte,visits,Covered,used]
  | cons b bs ih =>
    simp only [span] at fits
    have rest : UsedByte (visits (b.stop 12 start) bs) x ↔ Covered 12 (b.stop 12 start) bs x := by
      apply ih
      simp only [Block.stop]
      omega
    have here : (BitVec.ofNat 32 start).toNat = start ∧ (BitVec.ofNat 32 b.size).toNat = b.size := by
      constructor <;> rw [BitVec.toNat_ofNat,Nat.mod_eq_of_lt (by omega)]
    rw [UsedByte,visits,List.exists_mem_cons_iff,← UsedByte,rest]
    simp only [here]
    cases free : b.free with
    | false => exact (or_congr_left (by simp [flag,Block.stop])).trans (covered_of_used free).symm
    | true => exact (or_iff_right (by simp [flag])).trans (covered_of_free free).symm

end Bytes

section Histories

variable {image : KernelImage} {w : World} {arena next : HeapArena} {n : Word} {ps : List Word}
  {i j : Nat}

theorem usedByte_arena {x : Nat} : UsedByte (visits (heapAddr image).toNat arena.blocks) x ↔
    Covered 12 (heapAddr image).toNat arena.blocks x := usedByte_iff (arena_fits image arena)

/-- The gaps are the free blocks. -/
theorem heapGap_iff {h : Heap} (held : Represents image h arena) :
    HeapGap h (visits (heapAddr image).toNat arena.blocks) i j ↔
      ∃ b, (i,b) ∈ placed 12 (heapAddr image).toNat arena.blocks ∧ b.free = true ∧ j = b.stop 12 i := by
  have covers : UsedByte (visits (heapAddr image).toNat arena.blocks) =
      Covered 12 (heapAddr image).toNat arena.blocks := funext fun x => propext usedByte_arena
  rw [← gap_iff (by decide) arena.separated,arena.filled,HeapGap,held.heapStart,covers]
  rfl

theorem align4_small (small : n.toNat ≤ 0xFFFFFFFC) : 12 + (align4 n).toNat = needed n := by
  rw [align4_toNat,needed]
  omega

/-- A gap has room for the request just when the block has. -/
theorem room_iff (small : n.toNat ≤ 0xFFFFFFFC) (b : Block) (i : Nat) :
    needed n ≤ b.stop 12 i - i ↔ (align4 n).toNat ≤ b.size := by
  have rounded := align4_small small
  simp only [Block.stop]
  omega

/-- Requests are served just when a gap has room, and then from the lowest one. -/
theorem malloc_serves_gaps (image : KernelImage) (h : Heap) {past : List (World × Op)} {w : World}
    (run : Run (Step image) (boot image h) past w) (caller : Caller) {n : Word}
    (small : n.toNat ≤ 0xFFFFFFFC) :
    ∃ blocks after h' p, walk w.heap = some blocks ∧ request image caller w.heap n = some (h',p) ∧
      walk h' = some after ∧
      (p ≠ 0 ↔ ∃ i j, HeapGap w.heap blocks i j ∧ needed n ≤ j - i) ∧
      (p ≠ 0 → ∃ i j, ServedFirst w.heap blocks after n p i j) ∧
      (p = 0 → after = blocks) := by
  obtain ⟨arena,tracks⟩ := run_tracks run
  have gaps {i j : Nat} := heapGap_iff (i := i) (j := j) tracks.held
  cases found : arena.allocate 16 (heapAddr image).toNat (align4 n).toNat (by decide) (align4_dvd n) with
  | none =>
    refine ⟨_,_,w.heap,0,walk_tracks tracks,(request_eq ..).trans (kmalloc_none tracks.held n found),
      walk_tracks tracks,?_,fun nonzero => absurd rfl nonzero,fun _ => rfl⟩
    refine iff_of_false (fun nonzero => nonzero rfl) ?_
    rintro ⟨i,j,gap,room⟩
    obtain ⟨b,member,free,rfl⟩ := gaps.mp gap
    have full := allocate_eq_none_iff.mp (Arena.allocate_eq_none.mp found)
    exact full b (block_of_placed member) ⟨free,(room_iff small b i).mp room⟩
  | some r =>
    obtain ⟨p,next⟩ := r
    obtain ⟨h',ran,held,-⟩ := kmalloc_some tracks.held n found
    obtain ⟨i,b,member,free,room,pointer,first,size,enough,within,covers⟩ :=
      allocate_first (Arena.allocate_eq_some found)
    have pointer : p = i + 12 := pointer
    have bounds := placed_within member
    have high := (heapAddr_bounds image).2
    rw [arena.filled] at bounds
    simp only [Block.stop] at bounds
    have value : (BitVec.ofNat 32 p).toNat = i + 12 := by
      rw [BitVec.toNat_ofNat,Nat.mod_eq_of_lt (by rw [heapSize_toNat] at high; omega),pointer]
    have nonzero : BitVec.ofNat 32 p ≠ 0 := by
      intro zero
      rw [zero] at value
      cases value
    have gap := gaps.mpr ⟨b,member,free,rfl⟩
    have wide := (room_iff small b i).mpr room
    have rounded := align4_small small
    refine ⟨_,_,h',_,walk_tracks tracks,(request_eq ..).trans ran,walk_represents held,
      iff_of_true nonzero ⟨i,_,gap,wide⟩,fun _ => ⟨i,_,gap,wide,?_,value,?_⟩,fun zero => absurd zero nonzero⟩
    · intro i' j' gap' wide'
      obtain ⟨c,member',free',rfl⟩ := gaps.mp gap'
      exact first _ member' free' ((room_iff small c i').mp wide')
    · refine ⟨i + 12 + size,by omega,?_,fun x => ?_⟩
      · simp only [Block.stop]
        omega
      · rw [usedByte_arena,usedByte_arena]
        exact covers x

/-- After boot a request is served from the bottom. -/
theorem malloc_serves_gaps_first : ∃ blocks after h p,
    walk (boot default blank).heap = some blocks ∧
      request default .kernel (boot default blank).heap 100 = some (h,p) ∧ walk h = some after ∧
      (p ≠ 0 ↔ ∃ i j, HeapGap (boot default blank).heap blocks i j ∧ needed 100 ≤ j - i) ∧
      (p ≠ 0 → ∃ i j, ServedFirst (boot default blank).heap blocks after 100 p i j) ∧
      (p = 0 → after = blocks) :=
  malloc_serves_gaps default blank .nil .kernel (by decide)

/-! The order of frees. -/

theorem freeAll_represents (tracks : Tracks image w arena) (distinct : ps.Nodup)
    (live : ∀ p ∈ ps, ∃ a ∈ w.live, a.ptr = p) :
    ∃ h next, freeAll w.heap ps = some h ∧ Represents image h next ∧
      payloads image next = (payloads image arena).filter fun entry => entry.1 ∉ ps.map BitVec.toNat := by
  induction ps generalizing w arena with
  | nil => exact ⟨w.heap,arena,rfl,tracks.held,by simp⟩
  | cons p ps ih =>
    obtain ⟨a,member,rfl⟩ := live p List.mem_cons_self
    obtain ⟨new,distinct⟩ := List.nodup_cons.mp distinct
    obtain ⟨h,freed,tracks'⟩ := free_tracks tracks member
    have live' : ∀ q ∈ ps, ∃ b ∈ w.live.filter (·.ptr ≠ a.ptr), b.ptr = q := by
      intro q later
      obtain ⟨b,member,rfl⟩ := live q (List.mem_cons_of_mem _ later)
      have other : b.ptr ≠ a.ptr := fun same => new (same ▸ later)
      exact ⟨b,List.mem_filter.mpr ⟨member,decide_eq_true other⟩,rfl⟩
    obtain ⟨h',next,rest,held,left⟩ := ih tracks' distinct live'
    refine ⟨h',next,?_,held,?_⟩
    · rw [freeAll,List.foldlM_cons,freed]
      exact rest
    · rw [left,payloads_release,List.filter_filter]
      refine List.filter_congr fun entry _ => ?_
      rw [← Bool.decide_and,decide_eq_decide,List.map_cons,List.mem_cons,not_or]
      exact and_comm

theorem visits_fresh (image : KernelImage) : visits (heapAddr image).toNat freshArena.blocks =
    [⟨heapAddr image,heapSize - headerSize,1,0⟩] := by
  simp only [freshArena,Arena.whole,visits,BitVec.ofNat_toNat,BitVec.setWidth_eq]
  rfl

/-- Blocks may be freed in any order, and once all are, the heap is as `memory_init` left it. -/
theorem frees_commute (image : KernelImage) (h : Heap) {past : List (World × Op)} {w : World}
    (run : Run (Step image) (boot image h) past w) {ps qs : List Word} (distinct : ps.Nodup)
    (live : ∀ p ∈ ps, ∃ a ∈ w.live, a.ptr = p) (reordered : ps.Perm qs) :
    ∃ left right blocks, freeAll w.heap ps = some left ∧ freeAll w.heap qs = some right ∧
      walk left = some blocks ∧ walk right = some blocks ∧
      ((∀ a ∈ w.live, a.ptr ∈ ps) → blocks = [⟨heapAddr image,heapSize - headerSize,1,0⟩]) := by
  obtain ⟨arena,tracks⟩ := run_tracks run
  obtain ⟨left,next,freed,held,kept⟩ := freeAll_represents tracks distinct live
  obtain ⟨right,next',freed',held',kept'⟩ := freeAll_represents tracks (reordered.nodup distinct)
    fun q member => live q (reordered.mem_iff.mpr member)
  have same : payloads image next = payloads image next' := by
    rw [kept,kept']
    simp only [(reordered.map BitVec.toNat).mem_iff]
  obtain rfl : next = next' := Arena.eq_of_used (by decide) same
  refine ⟨left,right,_,freed,freed',walk_represents held,walk_represents held',fun all => ?_⟩
  have none : payloads image next = payloads image freshArena := by
    rw [kept]
    refine List.filter_eq_nil_iff.mpr fun entry member => ?_
    have listed := tracks.live.symm.subset (List.mem_map_of_mem member)
    obtain ⟨a,inside,pointer⟩ := List.mem_map.mp listed
    have given : entry.1 ∈ ps.map BitVec.toNat := pointer ▸ List.mem_map_of_mem (all a inside)
    simp [given]
  obtain rfl : next = freshArena := Arena.eq_of_used (by decide) none
  exact visits_fresh image

/-- Two blocks of 100 bytes. -/
theorem two_served : ∃ past w, Run (Step default) (boot default blank) past w ∧
    w.live.map (·.ptr) = [0x14007C,0x14000C] := by
  have first : (kmalloc default (boot default blank).heap 100).map (·.2) = some 0x14000C := by
    decide +kernel
  have second : ((kmalloc default (boot default blank).heap 100).bind fun r =>
      (kmalloc default r.1 100).map (·.2)) = some 0x14007C := by
    decide +kernel
  obtain ⟨⟨h,p⟩,ran,rfl : p = 0x14000C⟩ := Option.map_eq_some_iff.mp first
  rw [ran,Option.bind_some] at second
  obtain ⟨⟨h',q⟩,ran',rfl : q = 0x14007C⟩ := Option.map_eq_some_iff.mp second
  have moved : Step default (boot default blank) (.malloc .kernel 100) _ :=
    .malloc ((request_eq ..).trans ran)
  have moved' : Step default ⟨h,[⟨0x14000C,100⟩]⟩ (.malloc .kernel 100) _ :=
    .malloc ((request_eq ..).trans ran')
  exact ⟨_,_,Run.cons moved (Run.single moved'),rfl⟩

theorem frees_commute_two : ∃ past w left right blocks, Run (Step default) (boot default blank) past w ∧
    freeAll w.heap [0x14007C,0x14000C] = some left ∧ freeAll w.heap [0x14000C,0x14007C] = some right ∧
      walk left = some blocks ∧ walk right = some blocks ∧
      ((∀ a ∈ w.live, a.ptr ∈ [0x14007C,0x14000C]) →
        blocks = [⟨heapAddr default,heapSize - headerSize,1,0⟩]) := by
  obtain ⟨past,w,run,live⟩ := two_served
  have pointers : ∀ p ∈ [0x14007C,0x14000C], ∃ a ∈ w.live, a.ptr = p := by
    rw [← live]
    exact fun p => List.mem_map.mp
  obtain ⟨left,right,blocks,freed⟩ := frees_commute default blank run (by decide) pointers (List.Perm.swap ..)
  exact ⟨past,w,left,right,blocks,run,freed⟩

end Histories

end NimrodOS.Memory
