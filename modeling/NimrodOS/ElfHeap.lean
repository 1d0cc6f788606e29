import NimrodOS.ElfRuns
import NimrodOS.MemoryGaps
import NimrodOS.RamfsNames

/-! A block that is taken and given back leaves the heap as it was, so a call of
`elf_load_and_run` leaves no trace in the block list. -/
namespace NimrodOS.Elf

open FirstFit Memory Ramfs Transition

variable {image : KernelImage} {h : Heap} {arena : HeapArena} {n : Word}

/-- `kfree` undoes `kmalloc`. -/
theorem kfree_kmalloc (held : Represents image h arena) {h' : Heap} {p : Word}
    (ran : kmalloc image h n = some (h',p)) (nonzero : p ≠ 0) :
    ∃ restored, kfree h' p = some restored ∧ Represents image restored arena := by
  cases found : arena.allocate 16 (heapAddr image).toNat (align4 n).toNat (by decide) (align4_dvd n) with
  | none =>
    cases ran.symm.trans (kmalloc_none held n found)
    exact absurd rfl nonzero
  | some r =>
    obtain ⟨q,next⟩ := r
    obtain ⟨heap,ran',after,-⟩ := kmalloc_some held n found
    obtain ⟨rfl,rfl⟩ := Prod.mk.inj (Option.some.inj (ran'.symm.trans ran))
    obtain ⟨size,left,right,-,-,used⟩ := used_allocate (Arena.allocate_eq_some found)
    have mine : (q,size) ∈ payloads image next := by
      rw [payloads,used]
      exact List.mem_append_right _ List.mem_cons_self
    obtain ⟨restored,freed,held',-⟩ := kfree_some after mine
    rw [Arena.release_allocate (by decide) found] at held'
    exact ⟨restored,freed,held'⟩

/-- After any history of the heap: a request and the return of its block leave the block
list as it was, and so does every load that returns, whatever file it is given. -/
theorem malloc_free_restores (image : KernelImage) (h : Heap) {past : List (World × Memory.Op)} {w : World}
    (run : Run (Memory.Step image) (boot image h) past w) :
    ∃ blocks, walk w.heap = some blocks ∧
      (∀ caller n h' p, request image caller w.heap n = some (h',p) → p ≠ 0 →
        ∃ restored, kfree h' p = some restored ∧ walk restored = some blocks) ∧
      ∀ (elf : ElfImage) sym k name k' r files calls, elf.toKernelImage = image → k.heap = w.heap →
        Run Changes ramfsInit calls files → k.files = files →
        (elfLoadAndRun elf sym k name).result = .ok (k',r) → walk k'.heap = some blocks := by
  obtain ⟨arena,tracks⟩ := run_tracks run
  refine ⟨_,walk_tracks tracks,fun caller n h' p ran nonzero => ?_,?_⟩
  · obtain ⟨restored,freed,held⟩ := kfree_kmalloc tracks.held ((request_eq ..).symm.trans ran) nonzero
    exact ⟨restored,freed,walk_represents held⟩
  · rintro elf sym k name k' r files calls rfl heap wrote rfl result
    obtain ⟨after,held,⟨-,rfl,-⟩ | ⟨-,slot,-,same⟩⟩ :=
      load_cases (heap ▸ tracks.held) (run_fits wrote) result
    · exact walk_represents held
    · obtain ⟨rfl,-⟩ := Prod.mk.inj same
      exact walk_represents held

/-- 100 bytes after boot. -/
theorem malloc_free_restores_once : ∃ blocks h' p restored, walk (boot default blank).heap = some blocks ∧
    request default .kernel (boot default blank).heap 100 = some (h',p) ∧ p ≠ 0 ∧
      kfree h' p = some restored ∧ walk restored = some blocks := by
  have served : (kmalloc default (boot default blank).heap 100).map (·.2) = some 0x14000C := by
    decide +kernel
  obtain ⟨⟨h',p⟩,ran,rfl : p = 0x14000C⟩ := Option.map_eq_some_iff.mp served
  obtain ⟨blocks,walked,restores,-⟩ := malloc_free_restores default blank .nil
  obtain ⟨restored,freed,same⟩ := restores .kernel 100 h' _ ran (by decide)
  exact ⟨blocks,h',_,restored,walked,ran,by decide,freed,same⟩

end NimrodOS.Elf
