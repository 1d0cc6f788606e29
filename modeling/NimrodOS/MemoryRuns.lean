import NimrodOS.MemoryBlocks
import NimrodOS.Lib.Run

/-! Histories of `kmalloc` and `kfree` from `memory_init` on: the block list found by
walking the heap, and what an allocation promises about its bytes. -/
namespace NimrodOS.Memory

open ByteMemory FirstFit Transition

/-- One block as a walk along the `next` pointers sees it. -/
structure Visit where
  addr : Word
  size : Word
  isFree : Byte
  next : Word
  deriving DecidableEq, Repr

def walkLoop : Nat → Memory → Word → Option (List Visit)
  | 0, _, _ => none
  | fuel + 1, m, current =>
    if current = 0 then some []
    else (walkLoop fuel m (next m current)).map
      fun rest => ⟨current,size m current,isFree m current,next m current⟩ :: rest

def walk (h : Heap) : Option (List Visit) := walkLoop maxBlocks h.mem h.heapStart

/-- The walk over a block list that starts at `start`. -/
def visits (start : Nat) : List Block → List Visit
  | [] => []
  | b :: bs =>
    ⟨BitVec.ofNat 32 start,BitVec.ofNat 32 b.size,flag b.free,link (b.stop 12 start) bs⟩ ::
      visits (b.stop 12 start) bs

section Walk

variable {m : Memory} {start fuel : Nat} {bs : List Block}

theorem walkLoop_holds (held : Holds m start bs) (positive : 0 < start)
    (fits : start + span 12 bs < 2^32) (enough : bs.length < fuel) :
    walkLoop fuel m (link start bs) = some (visits start bs) := by
  induction bs generalizing start fuel with
  | nil =>
    obtain ⟨fuel,rfl⟩ := Nat.exists_eq_succ_of_ne_zero (Nat.ne_of_gt enough)
    simp [walkLoop,link,visits]
  | cons b bs ih =>
    obtain ⟨fuel,rfl⟩ := Nat.exists_eq_succ_of_ne_zero (Nat.ne_of_gt (Nat.zero_lt_of_lt enough))
    simp only [span] at fits
    have onward := ih held.2 (by simp only [Block.stop]; omega) (by simp only [Block.stop]; omega)
      (by simpa using enough)
    have here : link start (b :: bs) = BitVec.ofNat 32 start := rfl
    rw [walkLoop,if_neg (link_ne_zero positive (by omega)),here,held.1.next,onward]
    simp only [Option.map_some,visits,held.1.size,held.1.isFree]

theorem sumLoop_holds (held : Holds m start bs) (positive : 0 < start)
    (fits : start + span 12 bs < 2^32) (enough : bs.length < fuel) {counts : Byte → Bool}
    {free : Bool} (selects : ∀ f, counts (flag f) = decide (f = free)) (sum : Word) :
    sumLoop counts fuel m (link start bs) sum = some (sum + BitVec.ofNat 32 (bytes free bs)) := by
  induction bs generalizing start fuel sum with
  | nil =>
    obtain ⟨fuel,rfl⟩ := Nat.exists_eq_succ_of_ne_zero (Nat.ne_of_gt enough)
    simp [sumLoop,link,bytes]
  | cons b bs ih =>
    obtain ⟨fuel,rfl⟩ := Nat.exists_eq_succ_of_ne_zero (Nat.ne_of_gt (Nat.zero_lt_of_lt enough))
    simp only [span] at fits
    have here : link start (b :: bs) = BitVec.ofNat 32 start := rfl
    rw [sumLoop,if_neg (link_ne_zero positive (by omega)),here,held.1.next,
      ih held.2 (by simp only [Block.stop]; omega) (by simp only [Block.stop]; omega)
        (by simpa using enough),held.1.isFree,selects,held.1.size]
    by_cases same : b.free = free
    · simp [same,bytes,BitVec.ofNat_add,BitVec.add_assoc]
    · simp [same,bytes]

theorem visits_length (start : Nat) (bs : List Block) : (visits start bs).length = bs.length := by
  induction bs generalizing start with
  | nil => rfl
  | cons b bs ih => simp [visits,ih]

theorem forall_visits_isFree (start : Nat) (bs : List Block) (P : Byte → Prop) :
    (∀ visit ∈ visits start bs, P visit.isFree) ↔ ∀ b ∈ bs, P (flag b.free) := by
  induction bs generalizing start with
  | nil => simp [visits]
  | cons b bs ih => simp [visits,ih]

theorem mem_visits {visit : Visit} (member : visit ∈ visits start bs) :
    ∃ entry ∈ placed 12 start bs, visit.addr = BitVec.ofNat 32 entry.1 ∧
      visit.size = BitVec.ofNat 32 entry.2.size ∧ visit.isFree = flag entry.2.free ∧
      entry.2 ∈ bs := by
  induction bs generalizing start with
  | nil => simp [visits] at member
  | cons b bs ih =>
    simp only [visits,List.mem_cons] at member
    rcases member with rfl | later
    · exact ⟨(start,b),List.mem_cons_self,rfl,rfl,rfl,List.mem_cons_self⟩
    · obtain ⟨entry,inside,addr,size,free,block⟩ := ih later
      exact ⟨entry,List.mem_cons_of_mem _ inside,addr,size,free,List.mem_cons_of_mem _ block⟩

/-- Every pointer is the end of the block it stands in, and the next block is there. -/
theorem visits_chained (fits : start + span 12 bs < 2^32) :
    (visits start bs).IsChain fun a b =>
      a.next = b.addr ∧ b.addr.toNat = a.addr.toNat + 12 + a.size.toNat := by
  induction bs generalizing start with
  | nil => exact .nil
  | cons b bs ih =>
    simp only [span] at fits
    have within : b.stop 12 start + span 12 bs < 2^32 := by simp only [Block.stop]; omega
    have rest := ih within
    cases bs with
    | nil => exact .singleton _
    | cons c bs =>
      refine List.isChain_cons_cons.mpr ⟨⟨rfl,?_⟩,rest⟩
      simp only [Block.stop,span] at fits ⊢
      rw [BitVec.toNat_ofNat,BitVec.toNat_ofNat,BitVec.toNat_ofNat]
      omega

theorem visits_last (fits : start + span 12 bs < 2^32) :
    ∀ b ∈ (visits start bs).getLast?,
      b.next = 0 ∧ b.addr.toNat + 12 + b.size.toNat = start + span 12 bs := by
  induction bs generalizing start with
  | nil => simp [visits]
  | cons b bs ih =>
    simp only [span] at fits ⊢
    have within : b.stop 12 start + span 12 bs < 2^32 := by simp only [Block.stop]; omega
    have rest := ih within
    cases bs with
    | nil =>
      simp only [visits,List.getLast?_singleton,Option.mem_some_iff,forall_eq',link,span,
        BitVec.toNat_ofNat,true_and]
      omega
    | cons c bs =>
      intro visit member
      obtain ⟨null,stop⟩ := rest visit (by simpa [visits] using member)
      exact ⟨null,by simp only [Block.stop] at stop; omega⟩

theorem visits_separated (apart : Separated bs) :
    (visits start bs).IsChain fun a b => ¬(a.isFree ≠ 0 ∧ b.isFree ≠ 0) := by
  induction bs generalizing start with
  | nil => exact .nil
  | cons b bs ih =>
    cases bs with
    | nil => exact .singleton _
    | cons c bs =>
      obtain ⟨first,rest⟩ := List.isChain_cons_cons.mp apart
      refine List.isChain_cons_cons.mpr ⟨?_,ih rest⟩
      simpa only [flag_ne_zero] using first

/-- The blocks a walk finds in use are the used payloads. -/
theorem visits_used (start : Nat) (bs : List Block) :
    ((visits start bs).filter (·.isFree = 0)).map (·.addr + 12) =
      (used 12 start bs).map fun entry => BitVec.ofNat 32 entry.1 := by
  induction bs generalizing start with
  | nil => rfl
  | cons b bs ih =>
    cases free : b.free
    · simp [visits,used,free,flag,BitVec.ofNat_add]
      exact ih _
    · simp [visits,used,free,flag]
      exact ih _

end Walk

/-! Histories. -/

/-- A pointer handed out, with the size that was asked for. -/
structure Allocation where
  ptr : Word
  size : Word
  deriving DecidableEq, Repr

/-- The heap with the allocations that have not been freed. -/
structure World where
  heap : Heap
  live : List Allocation

inductive Caller where
  | kernel
  | program
  deriving DecidableEq, Repr

/-- Programs reach `kmalloc` through `SYS_MALLOC`. -/
def request (image : KernelImage) (caller : Caller) (h : Heap) (n : Word) : Option (Heap × Word) :=
  match caller with
  | .kernel => kmalloc image h n
  | .program => sysMallocHandler image h n

@[simp] theorem request_eq (image : KernelImage) (caller : Caller) (h : Heap) (n : Word) :
    request image caller h n = kmalloc image h n := by
  cases caller <;> rfl

inductive Op where
  | malloc (caller : Caller) (n : Word)
  | free (p : Word)
  deriving DecidableEq, Repr

/-- `kfree` is given null or a pointer that has not been freed since. -/
def Allowed (w : World) : Op → Prop
  | .malloc _ _ => True
  | .free p => p = 0 ∨ ∃ a ∈ w.live, a.ptr = p

inductive Step (image : KernelImage) : World → Op → World → Prop where
  | malloc {w : World} {caller : Caller} {n p : Word} {h : Heap} :
      request image caller w.heap n = some (h,p) →
      Step image w (.malloc caller n) ⟨h,if p = 0 then w.live else ⟨p,n⟩ :: w.live⟩
  | free {w : World} {p : Word} {h : Heap} : Allowed w (.free p) → kfree w.heap p = some h →
      Step image w (.free p) ⟨h,w.live.filter (·.ptr ≠ p)⟩

/-- The state `memory_init` leaves, whatever memory held before. -/
def boot (image : KernelImage) (h : Heap) : World := ⟨memoryInit image h,[]⟩

section Histories

variable {image : KernelImage} {w w' : World} {op : Op} {arena : HeapArena}

/-- The used payloads of the heap. -/
abbrev payloads (image : KernelImage) (arena : HeapArena) : List (Nat × Nat) :=
  used 12 (heapAddr image).toNat arena.blocks

/-- The arena in memory, whose used payloads are the live allocations. -/
structure Tracks (image : KernelImage) (w : World) (arena : HeapArena) : Prop where
  held : Represents image w.heap arena
  live : (w.live.map (·.ptr.toNat)).Perm ((payloads image arena).map (·.1))

theorem payload_bounds {entry : Nat × Nat} (member : entry ∈ payloads image arena) :
    (heapAddr image).toNat + 12 ≤ entry.1 ∧
      entry.1 + entry.2 ≤ (heapAddr image).toNat + heapSize.toNat := by
  have bounds := used_above (by omega) member
  rw [arena.filled] at bounds
  exact bounds

theorem boot_tracks (image : KernelImage) (h : Heap) : Tracks image (boot image h) freshArena :=
  ⟨memoryInit_represents image h,.nil⟩

/-- What an allocation does: nothing, or one more payload of at least the aligned size. -/
theorem kmalloc_cases (tracks : Tracks image w arena) (n : Word) :
    (kmalloc image w.heap n = some (w.heap,0) ∧
      FirstFit.allocate 12 16 (align4 n).toNat (heapAddr image).toNat arena.blocks = none) ∨
    ∃ h p size before after next, kmalloc image w.heap n = some (h,p) ∧ p ≠ 0 ∧
      Represents image h next ∧ (align4 n).toNat ≤ size ∧
      FirstFit.allocate 12 16 (align4 n).toNat (heapAddr image).toNat arena.blocks ≠ none ∧
      payloads image arena = before ++ after ∧
      payloads image next = before ++ (p.toNat,size) :: after := by
  cases found : arena.allocate 16 (heapAddr image).toNat (align4 n).toNat (by decide) (align4_dvd n) with
  | none => exact .inl ⟨kmalloc_none tracks.held n found,Arena.allocate_eq_none.mp found⟩
  | some r =>
    obtain ⟨p,next⟩ := r
    obtain ⟨h,ran,held,-⟩ := kmalloc_some tracks.held n found
    obtain ⟨size,before,after,enough,old,new⟩ := used_allocate (Arena.allocate_eq_some found)
    have mine : (p,size) ∈ payloads image next := by
      rw [payloads,new]
      simp
    have bounds := payload_bounds mine
    have high := (heapAddr_bounds image).2
    simp only at bounds
    have value : (BitVec.ofNat 32 p).toNat = p := by
      rw [BitVec.toNat_ofNat,Nat.mod_eq_of_lt (by omega)]
    refine .inr ⟨h,BitVec.ofNat 32 p,size,before,after,next,ran,?_,held,enough,?_,old,?_⟩
    · intro zero
      rw [zero] at value
      have null : 0 = p := value
      omega
    · rw [Arena.allocate_eq_some found]
      exact Option.some_ne_none _
    · rw [payloads,new,value]

/-- A payload more, and an allocation more. -/
theorem take_tracks (tracks : Tracks image w arena) {h : Heap} {p n : Word} {size : Nat}
    {before after : List (Nat × Nat)} {next : HeapArena} (held : Represents image h next)
    (old : payloads image arena = before ++ after)
    (new : payloads image next = before ++ (p.toNat,size) :: after) :
    Tracks image ⟨h,⟨p,n⟩ :: w.live⟩ next := by
  refine ⟨held,?_⟩
  have live := tracks.live
  rw [old,List.map_append] at live
  rw [new,List.map_cons,List.map_append,List.map_cons]
  exact (live.cons _).trans List.perm_middle.symm

theorem payloads_release (p : Nat) :
    payloads image (arena.release (heapAddr image).toNat p (by decide)) =
      (payloads image arena).filter (·.1 ≠ p) := used_release (by decide)

theorem free_tracks (tracks : Tracks image w arena) {a : Allocation} (member : a ∈ w.live) :
    ∃ h, kfree w.heap a.ptr = some h ∧
      Tracks image ⟨h,w.live.filter (·.ptr ≠ a.ptr)⟩
        (arena.release (heapAddr image).toNat a.ptr.toNat (by decide)) := by
  have listed := tracks.live.subset (List.mem_map_of_mem member)
  obtain ⟨⟨p,size⟩,inside,same⟩ := List.mem_map.mp listed
  simp only at same
  subst same
  obtain ⟨h,ran,held,-⟩ := kfree_some tracks.held inside
  rw [BitVec.ofNat_toNat,BitVec.setWidth_eq] at ran
  refine ⟨h,ran,held,?_⟩
  have kept := tracks.live.filter (· ≠ a.ptr.toNat)
  rw [List.filter_map,List.filter_map] at kept
  rw [payloads_release]
  simpa [Function.comp_def,← BitVec.toNat_inj] using kept

theorem live_ne_null (tracks : Tracks image w arena) {a : Allocation} (member : a ∈ w.live) :
    a.ptr ≠ 0 := by
  have listed := tracks.live.subset (List.mem_map_of_mem member)
  obtain ⟨entry,inside,same⟩ := List.mem_map.mp listed
  have bounds := payload_bounds inside
  have low := (heapAddr_bounds image).1
  rintro zero
  rw [same,zero] at bounds
  have : (heapAddr image).toNat + 12 ≤ 0 := bounds.1
  omega

/-- All that a step can do: nothing, hand out one more payload, or take one back. -/
theorem step_cases (tracks : Tracks image w arena) (moved : Step image w op w') :
    w' = w ∨
    (∃ caller n h p size before after next, op = .malloc caller n ∧
      w' = ⟨h,⟨p,n⟩ :: w.live⟩ ∧ Tracks image w' next ∧ (align4 n).toNat ≤ size ∧
      FirstFit.allocate 12 16 (align4 n).toNat (heapAddr image).toNat arena.blocks ≠ none ∧
      payloads image arena = before ++ after ∧
      payloads image next = before ++ (p.toNat,size) :: after) ∨
    (∃ a h, a ∈ w.live ∧ op = .free a.ptr ∧ w' = ⟨h,w.live.filter (·.ptr ≠ a.ptr)⟩ ∧
      Tracks image w' (arena.release (heapAddr image).toNat a.ptr.toNat (by decide))) := by
  cases moved with
  | @malloc caller n p h ran =>
    rw [request_eq] at ran
    rcases kmalloc_cases tracks n with ⟨failed,-⟩ | ⟨h',p',size,before,after,next,took,nonzero,rest⟩
    · obtain ⟨rfl,rfl⟩ := Prod.mk.inj (Option.some.inj (failed.symm.trans ran))
      exact .inl (by simp)
    · obtain ⟨rfl,rfl⟩ := Prod.mk.inj (Option.some.inj (took.symm.trans ran))
      obtain ⟨held,enough,served,old,new⟩ := rest
      rw [if_neg nonzero]
      exact .inr (.inl ⟨caller,n,h',p',size,before,after,next,rfl,rfl,
        take_tracks tracks held old new,enough,served,old,new⟩)
  | @free p h allowed ran =>
    rcases allowed with rfl | ⟨a,member,rfl⟩
    · obtain rfl : w.heap = h := by simpa [kfree] using ran
      have all : w.live.filter (·.ptr ≠ 0) = w.live :=
        List.filter_eq_self.mpr fun a member => by simpa using live_ne_null tracks member
      exact .inl (by rw [all])
    · obtain ⟨h',took,next⟩ := free_tracks tracks member
      obtain rfl := Option.some.inj (took.symm.trans ran)
      exact .inr (.inr ⟨a,h',member,rfl,rfl,next⟩)

theorem step_tracks (tracks : Tracks image w arena) (moved : Step image w op w') :
    ∃ next, Tracks image w' next := by
  rcases step_cases tracks moved with rfl | took | given
  · exact ⟨arena,tracks⟩
  · obtain ⟨-,-,-,-,-,-,-,next,-,-,tracks,-⟩ := took
    exact ⟨next,tracks⟩
  · obtain ⟨a,h,-,-,-,next⟩ := given
    exact ⟨_,next⟩

/-- Every request to `kmalloc` and every allowed one to `kfree` comes to an end. -/
theorem step_exists (tracks : Tracks image w arena) (allowed : Allowed w op) :
    ∃ next, Step image w op next := by
  cases op with
  | malloc caller n =>
    rcases kmalloc_cases tracks n with ⟨ran,-⟩ | ⟨h,p,-,-,-,-,ran,-⟩
    · exact ⟨_,.malloc ((request_eq ..).trans ran)⟩
    · exact ⟨_,.malloc ((request_eq ..).trans ran)⟩
  | free p =>
    rcases allowed with rfl | ⟨a,member,rfl⟩
    · exact ⟨_,.free (.inl rfl) rfl⟩
    · obtain ⟨h,ran,-⟩ := free_tracks tracks member
      exact ⟨_,.free (.inr ⟨a,member,rfl⟩) ran⟩

theorem walk_represents {h : Heap} (held : Represents image h arena) :
    walk h = some (visits (heapAddr image).toNat arena.blocks) := by
  have low := (heapAddr_bounds image).1
  rw [walk,Represents.start_link held]
  exact walkLoop_holds held.holds (by omega) (arena_fits image arena) (arena_length arena)

theorem walk_tracks (tracks : Tracks image w arena) :
    walk w.heap = some (visits (heapAddr image).toNat arena.blocks) := walk_represents tracks.held

theorem sums_track (tracks : Tracks image w arena) :
    memoryUsed w.heap = some (BitVec.ofNat 32 (bytes false arena.blocks)) ∧
      memoryFree w.heap = some (BitVec.ofNat 32 (bytes true arena.blocks)) := by
  have low := (heapAddr_bounds image).1
  have used : sumLoop (fun f => f = 0) maxBlocks w.heap.mem
      (link (heapAddr image).toNat arena.blocks) 0#32 = some (0#32 + BitVec.ofNat 32 (bytes false arena.blocks)) :=
    sumLoop_holds tracks.held.holds (by omega) (arena_fits image arena) (arena_length arena) (by decide) _
  have free : sumLoop (fun f => f ≠ 0) maxBlocks w.heap.mem
      (link (heapAddr image).toNat arena.blocks) 0#32 = some (0#32 + BitVec.ofNat 32 (bytes true arena.blocks)) :=
    sumLoop_holds tracks.held.holds (by omega) (arena_fits image arena) (arena_length arena) (by decide) _
  rw [BitVec.zero_add,← tracks.held.start_link] at used free
  exact ⟨used,free⟩

/-- The block list found by a walk fills the heap, and the used blocks are the live
allocations. -/
structure Tiled (w : World) (blocks : List Visit) : Prop where
  nonempty : blocks ≠ []
  first : ∀ b ∈ blocks.head?, b.addr = w.heap.heapStart
  chained : blocks.IsChain fun a b =>
    a.next = b.addr ∧ b.addr.toNat = a.addr.toNat + 12 + a.size.toNat
  last : ∀ b ∈ blocks.getLast?, b.next = 0 ∧
    b.addr.toNat + 12 + b.size.toNat = w.heap.heapStart.toNat + heapSize.toNat
  aligned : ∀ b ∈ blocks, 4 ∣ b.size.toNat
  separated : blocks.IsChain fun a b => ¬(a.isFree ≠ 0 ∧ b.isFree ≠ 0)
  used : ((blocks.filter (·.isFree = 0)).map (·.addr + 12)).Perm (w.live.map (·.ptr))
  distinct : (w.live.map (·.ptr)).Nodup
  total : ∃ used free, memoryUsed w.heap = some used ∧ memoryFree w.heap = some free ∧
    used.toNat + free.toNat + 12 * blocks.length = heapSize.toNat

theorem size_bound {b : Block} (member : b ∈ arena.blocks) : b.size < 2^32 := by
  have sum : b.size ≤ span 12 arena.blocks := by
    obtain ⟨before,after,eq⟩ := List.append_of_mem member
    rw [eq,span_append]
    simp only [span]
    omega
  rw [arena.filled] at sum
  omega

theorem tiled_of_tracks (tracks : Tracks image w arena) :
    Tiled w (visits (heapAddr image).toNat arena.blocks) := by
  have fits := arena_fits image arena
  obtain ⟨b,bs,eq⟩ := List.exists_cons_of_ne_nil (arena_nonempty arena)
  have used : ((visits (heapAddr image).toNat arena.blocks).filter (·.isFree = 0)).map (·.addr + 12) |>.Perm
      (w.live.map (·.ptr)) := by
    have live := (tracks.live.symm).map (BitVec.ofNat 32)
    rw [List.map_map,List.map_map] at live
    rw [visits_used]
    simpa [Function.comp_def] using live
  constructor
  · simp [eq,visits]
  · simp [eq,visits,tracks.held.heapStart]
  · exact visits_chained fits
  · intro visit member
    obtain ⟨null,stop⟩ := visits_last fits visit member
    rw [arena.filled] at stop
    exact ⟨null,by rw [tracks.held.heapStart]; exact stop⟩
  · intro visit member
    obtain ⟨entry,-,-,size,-,block⟩ := mem_visits member
    rw [size,BitVec.toNat_ofNat,Nat.mod_eq_of_lt (size_bound block)]
    exact arena.grained _ block
  · exact visits_separated arena.separated
  · exact used
  · have distinct := used_nodup (show 0 < 12 by decide) (heapAddr image).toNat arena.blocks
    have pointers := tracks.live.nodup_iff.mpr distinct
    exact (List.pairwise_map.mp pointers).map _ fun a b different same => different (by rw [same])
  · obtain ⟨used,free⟩ := sums_track tracks
    have total := bytes_total 12 arena.blocks
    rw [arena.filled] at total
    refine ⟨_,_,used,free,?_⟩
    rw [visits_length,heapSize_toNat,BitVec.toNat_ofNat,BitVec.toNat_ofNat]
    omega

theorem run_tracks {past : List (World × Op)} {h : Heap}
    (run : Run (Step image) (boot image h) past w) : ∃ arena, Tracks image w arena := by
  have kept : ∀ s a t, (∃ arena, Tracks image s arena) → Step image s a t →
      ∃ arena, Tracks image t arena := fun _ _ _ ⟨_,tracks⟩ moved => step_tracks tracks moved
  exact run.invariant ⟨_,boot_tracks image h⟩ kept

/-- Every history leaves the heap tiled, and no further request gets stuck. -/
theorem heap_tiled (image : KernelImage) (h : Heap) {past : List (World × Op)} {w : World}
    (run : Run (Step image) (boot image h) past w) :
    (∃ blocks, walk w.heap = some blocks ∧ Tiled w blocks) ∧
      ∀ op, Allowed w op → ∃ next, Step image w op next := by
  obtain ⟨arena,tracks⟩ := run_tracks run
  exact ⟨⟨_,walk_tracks tracks,tiled_of_tracks tracks⟩,fun _ allowed => step_exists tracks allowed⟩

/-- A heap before `memory_init`. -/
def blank : Heap := ⟨fun _ => 0,0,false⟩

theorem heap_tiled_after_one : ∃ w,
    Run (Step default) (boot default blank) [(boot default blank,.malloc .program 100)] w ∧
      ∃ blocks, walk w.heap = some blocks ∧ Tiled w blocks := by
  have allowed : Allowed (boot default blank) (.malloc .program 100) := trivial
  obtain ⟨w,moved⟩ := step_exists (boot_tracks default blank) allowed
  exact ⟨w,.single moved,(heap_tiled default blank (.single moved)).1⟩

end Histories

end NimrodOS.Memory
