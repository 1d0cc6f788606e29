import NimrodOS.MemoryRuns

/-! Which requests `kmalloc` serves soundly. The alignment `(size + 3) & ~3` wraps for
the three largest sizes, which are then served as requests for nothing. -/
namespace NimrodOS.Memory

open ByteMemory FirstFit Transition

/-- Two byte ranges, each given by start and length, one behind the other. -/
def Apart (a m b n : Nat) : Prop := a + m ≤ b ∨ b + n ≤ a

/-- A pointer that a request for `n` bytes returns stands for `n` bytes of the heap
that no other allocation asked for and that hold no header. -/
def SoundRequest (image : KernelImage) (w : World) (caller : Caller) (n : Word) : Prop :=
  ∀ h p, request image caller w.heap n = some (h,p) → p ≠ 0 →
    (w.heap.heapStart.toNat ≤ p.toNat ∧
      p.toNat + n.toNat ≤ w.heap.heapStart.toNat + heapSize.toNat) ∧
    (∀ a ∈ w.live, Apart p.toNat n.toNat a.ptr.toNat a.size.toNat) ∧
    ∀ blocks, walk h = some blocks → ∀ b ∈ blocks, Apart p.toNat n.toNat b.addr.toNat 12

def SoundStep (image : KernelImage) (w : World) : Op → Prop
  | .malloc caller n => SoundRequest image w caller n
  | .free _ => True

def NoFreeBlock (h : Heap) : Prop := ∀ blocks, walk h = some blocks → ∀ b ∈ blocks, b.isFree = 0

/-- The size can be rounded up, or there is nothing to hand out. -/
def RoundsUp (w : World) : Op → Prop
  | .malloc _ n => n.toNat ≤ 0xFFFFFFFC ∨ NoFreeBlock w.heap
  | .free _ => True

section

variable {image : KernelImage} {w w' : World} {op : Op} {arena : HeapArena} {n : Word}

theorem align4_ge (small : n.toNat ≤ 0xFFFFFFFC) : n.toNat ≤ (align4 n).toNat := by
  rw [align4_toNat]
  omega

theorem align4_wraps (large : 0xFFFFFFFC < n.toNat) : (align4 n).toNat = 0 := by
  have := n.isLt
  rw [align4_toNat]
  omega

theorem noFreeBlock_iff (tracks : Tracks image w arena) :
    NoFreeBlock w.heap ↔ ∀ b ∈ arena.blocks, b.free = false := by
  have flags := forall_visits_isFree (heapAddr image).toNat arena.blocks fun f => f = 0
  simp only [NoFreeBlock,walk_tracks tracks,Option.some.injEq,forall_eq']
  rw [flags]
  refine forall₂_congr fun b _ => ?_
  cases b.free <;> decide

/-- Only a request that rounds up as a number is served from a block. -/
theorem small_of_served (tracks : Tracks image w arena) {caller : Caller}
    (fits : RoundsUp w (.malloc caller n))
    (served : FirstFit.allocate 12 16 (align4 n).toNat (heapAddr image).toNat arena.blocks ≠ none) :
    n.toNat ≤ 0xFFFFFFFC := by
  refine fits.resolve_right fun full => served (allocate_eq_none_iff.mpr ?_)
  intro b member large
  simp [(noFreeBlock_iff tracks).mp full b member] at large

/-- Each live allocation has a block of at least the size it asked for. -/
structure Backed (image : KernelImage) (w : World) (arena : HeapArena) : Prop extends
    Tracks image w arena where
  backed : ∀ a ∈ w.live, ∃ size, (a.ptr.toNat,size) ∈ payloads image arena ∧ a.size.toNat ≤ size

theorem boot_backed (image : KernelImage) (h : Heap) : Backed image (boot image h) freshArena :=
  ⟨boot_tracks image h,by simp [boot]⟩

theorem step_backed (before : Backed image w arena) (fits : RoundsUp w op)
    (moved : Step image w op w') : ∃ next, Backed image w' next := by
  rcases step_cases before.toTracks moved with rfl | took | given
  · exact ⟨arena,before⟩
  · obtain ⟨caller,n,h,p,size,front,back,next,rfl,rfl,tracks,enough,served,old,new⟩ := took
    have covers := Nat.le_trans (align4_ge (small_of_served before.toTracks fits served)) enough
    refine ⟨next,tracks,List.forall_mem_cons.mpr ⟨⟨size,by simp [new],covers⟩,fun a member => ?_⟩⟩
    obtain ⟨size,inside,enough⟩ := before.backed a member
    rw [old] at inside
    rw [new]
    exact ⟨size,List.mem_append.mpr ((List.mem_append.mp inside).imp_right (List.mem_cons_of_mem _)),
      enough⟩
  · obtain ⟨a,h,member,rfl,rfl,tracks⟩ := given
    refine ⟨_,tracks,fun other kept => ?_⟩
    obtain ⟨kept,different⟩ := List.mem_filter.mp kept
    obtain ⟨size,inside,enough⟩ := before.backed other kept
    rw [payloads_release]
    refine ⟨size,List.mem_filter.mpr ⟨inside,?_⟩,enough⟩
    simpa [← BitVec.toNat_inj] using different

/-- A request that rounds up is served from a block of its own. -/
theorem sound_of_roundsUp (before : Backed image w arena) {caller : Caller}
    (fits : RoundsUp w (.malloc caller n)) : SoundRequest image w caller n := by
  intro h p ran nonzero
  rw [request_eq] at ran
  rcases kmalloc_cases before.toTracks n with ⟨failed,-⟩ | took
  · exact absurd (Prod.mk.inj (Option.some.inj (ran.symm.trans failed))).2 nonzero
  obtain ⟨h',p',size,front,back,next,took,-,held,enough,served,old,new⟩ := took
  obtain ⟨rfl,rfl⟩ := Prod.mk.inj (Option.some.inj (took.symm.trans ran))
  have covers := Nat.le_trans (align4_ge (small_of_served before.toTracks fits served)) enough
  have mine : (p'.toNat,size) ∈ payloads image next := by simp [new]
  have bounds := payload_bounds mine
  refine ⟨?_,fun a member => ?_,fun blocks walked b member => ?_⟩
  · rw [before.held.heapStart]
    simp only at bounds
    omega
  · obtain ⟨other,inside,enough⟩ := before.backed a member
    have apart := used_apart (by decide) new (old ▸ inside)
    simp only [Apart] at apart ⊢
    omega
  · have tracks : Tracks image ⟨h',⟨p',n⟩ :: w.live⟩ next := take_tracks before.toTracks held old new
    obtain rfl := Option.some.inj ((walk_tracks tracks).symm.trans walked)
    obtain ⟨entry,header,addr,-⟩ := mem_visits member
    have clear := used_clear_of_headers (by decide) mine header
    have inside := placed_within header
    have high := (heapAddr_bounds image).2
    rw [next.filled] at inside
    simp only [Block.stop] at inside
    rw [addr,Apart,BitVec.toNat_ofNat,Nat.mod_eq_of_lt (by rw [heapSize_toNat] at high; omega)]
    simp only at clear
    omega

/-- A larger request takes the first free block, however small. -/
theorem roundsUp_of_sound (tracks : Tracks image w arena) {caller : Caller}
    (sound : SoundRequest image w caller n) : RoundsUp w (.malloc caller n) := by
  refine or_iff_not_imp_left.mpr fun large => ?_
  rw [Nat.not_le] at large
  rcases kmalloc_cases tracks n with ⟨-,full⟩ | took
  · refine (noFreeBlock_iff tracks).mpr fun b member => ?_
    rw [align4_wraps large] at full
    simpa using allocate_eq_none_iff.mp full b member
  · obtain ⟨h,p,size,front,back,next,took,nonzero,-⟩ := took
    have inside := (sound h p ((request_eq ..).trans took) nonzero).1
    rw [heapSize_toNat] at inside
    omega

/-- Exactly the histories whose requests round up keep every allocation sound. -/
theorem requests_sound_iff (image : KernelImage) (h : Heap) {past : List (World × Op)} {w : World}
    (run : Run (Step image) (boot image h) past w) :
    (∀ entry ∈ past, SoundStep image entry.1 entry.2) ↔
      ∀ entry ∈ past, RoundsUp entry.1 entry.2 := by
  have kept : ∀ s a t, (∃ arena, Backed image s arena) → RoundsUp s a → Step image s a t →
      ∃ arena, Backed image t arena := fun _ _ _ ⟨_,before⟩ fits moved => step_backed before fits moved
  refine run.exact ⟨_,boot_backed image h⟩ kept ?_
  rintro s (⟨caller,n⟩ | p) ⟨arena,before⟩
  · exact ⟨roundsUp_of_sound before.toTracks,sound_of_roundsUp before⟩
  · exact Iff.rfl

theorem requests_sound_after_one : ∃ w,
    Run (Step default) (boot default blank) [(boot default blank,.malloc .program 100)] w ∧
      ∀ entry ∈ [(boot default blank,Op.malloc .program 100)],
        SoundStep default entry.1 entry.2 := by
  have allowed : Allowed (boot default blank) (.malloc .program 100) := trivial
  obtain ⟨w,moved⟩ := step_exists (boot_tracks default blank) allowed
  refine ⟨w,.single moved,(requests_sound_iff default blank (.single moved)).mpr ?_⟩
  exact List.forall_mem_singleton.mpr (.inl (by decide))

/-- A program that asks for 4294967293 bytes right after boot gets a pointer. -/
theorem wrapped_request_unsound :
    ¬∀ (image : KernelImage) (h : Heap) (past : List (World × Op)) (w : World),
      Run (Step image) (boot image h) past w →
        ∀ caller n, SoundRequest image w caller n := by
  intro claim
  have sound := claim default blank [] _ .nil .program 0xFFFFFFFD
  rcases roundsUp_of_sound (boot_tracks default blank) sound with small | full
  · exact absurd small (by decide)
  · have free := (noFreeBlock_iff (boot_tracks default blank)).mp full
    simp [freshArena,Arena.whole] at free

end

end NimrodOS.Memory
