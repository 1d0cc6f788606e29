import NimrodOS.PagingMap

/-! Device memory, mapped to itself by `vmm_map_mmio`. The end of the region is rounded up
in 32 bits, so a region that reaches into the last page ends at 0. -/
namespace NimrodOS.Paging

open ByteMemory Memory Transition

/-- One round: a page that translates to 0 counts as free. -/
def mapMmioPage (s : Space) (addr : Word) : Space :=
  if vmmGetPhysical s.tables s.mem addr = 0 then mapPage s addr addr (ptePresent ||| pteWritable) else s

/-- The loop from `addr` on, if it ends within so many rounds. -/
def mapMmioPages : Nat → Space → Word → Word → Option Space
  | 0,s,addr,endAddr => if addr < endAddr then none else some s
  | rounds + 1,s,addr,endAddr =>
    if addr < endAddr then mapMmioPages rounds (mapMmioPage s addr) (addr + pageSize) endAddr
    else some s

def mmioEnd (physAddr size : Word) : Word := (physAddr + size + 0xFFF) &&& 0xFFFFF000

/-- There are 2^20 pages. -/
def vmmMapMmio (s : Space) (physAddr size : Word) : Option Space :=
  mapMmioPages 0x100000 s (physAddr &&& 0xFFFFF000) (mmioEnd physAddr size)

/-- The page of this address is not mapped, or to itself. -/
def Unclaimed (s : Space) (a : Word) : Prop :=
  ∀ frame, target (entry s a) = some frame → frame = a &&& 0xFFFFF000

/-- The tables that the addresses from `first` up to `last` lack. -/
def lacking (p : Tables) (first last : Nat) : Finset (Fin 1024) :=
  Finset.univ.filter fun i => ¬Present p i ∧ first / 2^22 ≤ i.val ∧ i.val * 2^22 < last

/-- The frames that `pmm_alloc_frame` may still hand out. -/
def spare (f : Frames) : Finset (Fin totalFrames) :=
  Finset.univ.filter fun i => f.firstFreeFrame.toNat ≤ i.val ∧ bitmapTest f.frameBitmap i = false

/-- What a driver expects of its registers. -/
structure Reaches (s t : Space) (physAddr size : Word) : Prop where
  region : ∀ a : Word, physAddr.toNat ≤ a.toNat → a.toNat < physAddr.toNat + size.toNat →
    vmmGetPhysical t.tables t.mem a = a
  others : ∀ a : Word, a.toNat / 4096 < physAddr.toNat / 4096 ∨
    (physAddr.toNat + size.toNat + 4095) / 4096 ≤ a.toNat / 4096 →
      vmmGetPhysical t.tables t.mem a = vmmGetPhysical s.tables s.mem a

section Spare

variable {f : Frames} {p : Tables} {first last : Nat} {i : Fin 1024}

theorem mem_spare {k : Fin totalFrames} : k ∈ spare f ↔
    f.firstFreeFrame.toNat ≤ k.val ∧ bitmapTest f.frameBitmap k = false := by
  rw [spare,Finset.mem_filter]
  exact and_iff_right (Finset.mem_univ k)

/-- The search of `pmm_alloc_frame`. -/
theorem spare_found (f : Frames) (k : Fin totalFrames) :
    (decide (f.firstFreeFrame.toNat ≤ k.val) && !bitmapTest f.frameBitmap k) = true ↔ k ∈ spare f := by
  rw [mem_spare,Bool.and_eq_true,decide_eq_true_eq,Bool.not_eq_true']

theorem freeFrame_spare {k : Fin totalFrames} (found : freeFrame f = some k) : k ∈ spare f := by
  unfold freeFrame at found
  exact (spare_found f k).mp (Fin.find?_eq_some_iff.mp found).1

theorem freeFrame_of_spare (left : 0 < (spare f).card) : ∃ k, freeFrame f = some k := by
  obtain ⟨k,member⟩ := Finset.card_pos.mp left
  apply Option.ne_none_iff_exists'.mp
  intro none
  unfold freeFrame at none
  have skipped := Fin.find?_eq_none_iff.mp none k
  rw [(spare_found f k).mpr member] at skipped
  exact Bool.noConfusion skipped

/-- Each frame that is handed out is one less. -/
theorem spare_set (f : Frames) (k : Fin totalFrames) :
    spare {f with frameBitmap := bitmapSet f.frameBitmap k} = (spare f).erase k := by
  ext j
  rw [Finset.mem_erase,mem_spare,mem_spare,bitmapTest_set,Bool.or_eq_false_iff,decide_eq_false_iff_not,
    ← Fin.ext_iff]
  exact and_left_comm

theorem mem_lacking : i ∈ lacking p first last ↔
    ¬Present p i ∧ first / 2^22 ≤ i.val ∧ i.val * 2^22 < last := by
  simp [lacking]

end Spare

section Pages

variable {image : PagingImage} {kernelEnd : KernelEnd image} {s t : Space} {held : Finset Word}
  {a b addr endAddr physAddr size physicalAddr flags virtualAddr : Word} {first last n : Nat}

theorem lacking_dir (missing : ¬Present s.tables (dirIndex virtualAddr)) (above : first ≤ virtualAddr.toNat)
    (below : virtualAddr.toNat < last) : dirIndex virtualAddr ∈ lacking s.tables first last := by
  have dir := dirIndex_val virtualAddr
  exact mem_lacking.mpr ⟨missing,by omega,by omega⟩

/-- A mapping uses at most one frame, and then there is one table less to make. -/
theorem Separate.mapPage_budget (separate : Separate image kernelEnd s.tables held)
    (physicalAddr flags : Word) (above : first ≤ virtualAddr.toNat) (below : virtualAddr.toNat < last)
    (enough : (lacking s.tables first last).card ≤ (spare s.tables.frames).card) :
    Effective s virtualAddr ∧
      (lacking (mapPage s virtualAddr physicalAddr flags).tables first last).card ≤
        (spare (mapPage s virtualAddr physicalAddr flags).tables.frames).card := by
  by_cases there : Present s.tables (dirIndex virtualAddr)
  · rw [mapPage_some (pageTable_present s.mem flags there)]
    exact ⟨.inl there,enough⟩
  have missing := lacking_dir there above below
  obtain ⟨k,found⟩ := freeFrame_of_spare (Nat.lt_of_lt_of_le (Finset.card_pos.mpr ⟨_,missing⟩) enough)
  have given : pmmAllocFrame s.tables.frames =
      ({s.tables.frames with frameBitmap := bitmapSet s.tables.frames.frameBitmap k},frameAddr k) := by
    rw [pmmAllocFrame,found]
    rfl
  have nonzero : frameAddr k ≠ 0 := by
    rcases separate.recorded.alloc_cases kernelEnd.positive with ⟨none,-⟩ | ⟨j,-,-,nonzero,same⟩
    · exact absurd ((separate.recorded.freeFrame_iff k).mp found).1 (none _)
    · rw [given] at same
      rw [(Prod.mk.inj same).2]
      exact nonzero
  have fewer : (lacking (setEntry s.tables {s.tables.frames with
        frameBitmap := bitmapSet s.tables.frames.frameBitmap k} (dirIndex virtualAddr)
          (tableEntry (frameAddr k) flags)) first last) ⊆
      (lacking s.tables first last).erase (dirIndex virtualAddr) := by
    intro i member
    obtain ⟨absent,range⟩ := mem_lacking.mp member
    have other : i ≠ dirIndex virtualAddr := by
      rintro rfl
      rw [Present,setEntry_same] at absent
      exact absent (tableEntry_present _ flags)
    rw [Present,setEntry_other other] at absent
    exact Finset.mem_erase.mpr ⟨other,mem_lacking.mpr ⟨absent,range⟩⟩
  have bound := Finset.card_le_card fewer
  rw [Finset.card_erase_of_mem missing] at bound
  have left := Finset.card_erase_of_mem (freeFrame_spare found)
  rw [← spare_set] at left
  rw [mapPage_some (pageTable_new s.mem flags (not_not.mp there) given nonzero)]
  refine ⟨.inr ?_,?_⟩
  · rw [given]
    exact nonzero
  · apply bound.trans
    apply (Nat.sub_le_sub_right enough 1).trans
    exact Nat.le_of_eq left.symm

/-! The rounds. -/

theorem entry_samePage (same : a >>> 12 = b >>> 12) : entry s a = entry s b := by
  obtain ⟨dir,index⟩ := samePage_iff.mp same
  rw [entry,entry,dir,entryAddr,entryAddr,index]

theorem mask_toNat (a : Word) : (a &&& 0xFFFFF000).toNat = a.toNat / 4096 * 4096 := by
  have mask : ~~~BitVec.ofNat 32 (2^12 - 1) = 0xFFFFF000 := by decide
  have cleared := clearLow_toNat a 12
  rwa [mask] at cleared

theorem page_mask (same : a >>> 12 = b >>> 12) : a &&& 0xFFFFF000 = b &&& 0xFFFFF000 := by
  have pages := congrArg BitVec.toNat same
  rw [page_toNat,page_toNat] at pages
  apply BitVec.eq_of_toNat_eq
  rw [mask_toNat,mask_toNat,pages]

theorem Unclaimed.samePage (unclaimed : Unclaimed s b) (same : a >>> 12 = b >>> 12) : Unclaimed s a := by
  rw [Unclaimed,entry_samePage same,page_mask same]
  exact unclaimed

/-- A page that does not translate to 0 is mapped. -/
theorem target_of_physical (unclaimed : Unclaimed s addr)
    (mapped : vmmGetPhysical s.tables s.mem addr ≠ 0) :
    target (entry s addr) = some (addr &&& 0xFFFFF000) := by
  rw [vmmGetPhysical_target] at mapped
  cases found : target (entry s addr) with
  | none =>
    rw [found] at mapped
    exact absurd rfl mapped
  | some frame => rw [unclaimed frame found]

/-- Afterwards the page is mapped to itself, and the others are as before. -/
theorem Separate.mapMmioPage_spec (separate : Separate image kernelEnd s.tables held)
    (unclaimed : Unclaimed s addr) (above : first ≤ addr.toNat) (below : addr.toNat < last)
    (enough : (lacking s.tables first last).card ≤ (spare s.tables.frames).card) :
    (∃ held', Separate image kernelEnd (mapMmioPage s addr).tables held') ∧
      (lacking (mapMmioPage s addr).tables first last).card ≤
        (spare (mapMmioPage s addr).tables.frames).card ∧
      ∀ a, target (entry (mapMmioPage s addr) a) =
        if a >>> 12 = addr >>> 12 then some (addr &&& 0xFFFFF000) else target (entry s a) := by
  by_cases free : vmmGetPhysical s.tables s.mem addr = 0
  · obtain ⟨effective,budget⟩ :=
      separate.mapPage_budget addr (ptePresent ||| pteWritable) above below enough
    rw [mapMmioPage,if_pos free]
    rcases separate.mapPage_cases addr addr (ptePresent ||| pteWritable) with
      ⟨full,-⟩ | ⟨-,separate',entries⟩
    · exact absurd effective full
    · refine ⟨separate',budget,fun a => ?_⟩
      rw [entries]
      split
      · exact target_mapped addr (by decide)
      · rfl
  · rw [mapMmioPage,if_neg free]
    refine ⟨⟨held,separate⟩,enough,fun a => ?_⟩
    split
    next same => rw [entry_samePage same,target_of_physical unclaimed free]
    next => rfl

/-- Whole runs of the loop, by induction on the rounds that are left. -/
theorem Separate.mapMmioPages_spec (separate : Separate image kernelEnd s.tables held)
    (aligned : 4096 ∣ addr.toNat) (alignedEnd : 4096 ∣ endAddr.toNat)
    (rounds : endAddr.toNat ≤ addr.toNat + 4096 * n) (inside : endAddr.toNat ≤ last)
    (unclaimed : ∀ a : Word, addr.toNat ≤ a.toNat → a.toNat < endAddr.toNat → Unclaimed s a)
    (start : first ≤ addr.toNat)
    (enough : (lacking s.tables first last).card ≤ (spare s.tables.frames).card) :
    ∃ t, mapMmioPages n s addr endAddr = some t ∧ ∀ a : Word, target (entry t a) =
      if addr.toNat ≤ a.toNat ∧ a.toNat < endAddr.toNat then some (a &&& 0xFFFFF000)
      else target (entry s a) := by
  induction n generalizing s held addr with
  | zero =>
    have ended : ¬addr < endAddr := by
      rw [BitVec.lt_def]
      omega
    refine ⟨s,if_neg ended,fun a => ?_⟩
    rw [if_neg (by omega)]
  | succ n ih =>
    by_cases ended : ¬addr < endAddr
    · refine ⟨s,if_neg ended,fun a => ?_⟩
      rw [BitVec.lt_def] at ended
      rw [if_neg (by omega)]
    have more := not_not.mp ended
    rw [mapMmioPages,if_pos more]
    rw [BitVec.lt_def] at more
    have small := endAddr.isLt
    have size : pageSize.toNat = 4096 := rfl
    have next : (addr + pageSize).toNat = addr.toNat + 4096 := by bv_omega
    obtain ⟨⟨held',separate'⟩,enough',targets⟩ :=
      separate.mapMmioPage_spec (unclaimed addr (Nat.le_refl _) more) start (by omega) enough
    have later : ∀ a : Word, (addr + pageSize).toNat ≤ a.toNat → a.toNat < endAddr.toNat →
        Unclaimed (mapMmioPage s addr) a := by
      intro a above below
      have other : a >>> 12 ≠ addr >>> 12 := by
        rw [ne_eq,← BitVec.toNat_inj,page_toNat,page_toNat]
        omega
      rw [Unclaimed,targets,if_neg other]
      exact unclaimed a (by omega) below
    obtain ⟨t,loop,rest⟩ := ih separate' (by omega) (by omega) later (by omega) enough'
    refine ⟨t,loop,fun a => ?_⟩
    have page : a >>> 12 = addr >>> 12 ↔ addr.toNat ≤ a.toNat ∧ a.toNat < addr.toNat + 4096 := by
      rw [← BitVec.toNat_inj,page_toNat,page_toNat]
      omega
    rw [rest,targets,next]
    by_cases here : a >>> 12 = addr >>> 12
    · have within := page.mp here
      rw [if_neg (by omega),if_pos here,if_pos (by omega),page_mask here]
    · rw [if_neg here]
      rw [page] at here
      split
      · rw [if_pos (by omega)]
      · rw [if_neg (by omega)]

/-! The region. -/

theorem mmioEnd_toNat (fits : physAddr.toNat + size.toNat ≤ 0xFFFFF000) :
    (mmioEnd physAddr size).toNat = (physAddr.toNat + size.toNat + 4095) / 4096 * 4096 := by
  have sum : (physAddr + size + 0xFFF).toNat = physAddr.toNat + size.toNat + 4095 := by bv_omega
  rw [mmioEnd,mask_toNat,sum]

/-- A region that reaches into the last page ends at 0, and the loop has no rounds. -/
theorem vmmMapMmio_wrapped (s : Space) (wraps : ¬physAddr.toNat + size.toNat ≤ 0xFFFFF000)
    (inside : physAddr.toNat + size.toNat ≤ 2^32) : vmmMapMmio s physAddr size = some s := by
  have ended : ¬physAddr &&& 0xFFFFF000 < mmioEnd physAddr size := by
    have sum : (physAddr + size + 0xFFF).toNat = physAddr.toNat + size.toNat + 4095 - 2^32 := by bv_omega
    rw [BitVec.lt_def,mmioEnd,mask_toNat (physAddr + size + 0xFFF),sum]
    omega
  exact if_neg ended

theorem mapMmioPage_run (s : Space) (addr : Word) : ∃ past, Run Space.Step s past (mapMmioPage s addr) := by
  unfold mapMmioPage
  split_ifs
  · have small : (ptePresent ||| pteWritable).toNat < 0x1000 := by decide
    exact ⟨_,Run.single (.map small)⟩
  · exact ⟨[],.nil⟩

theorem mapMmioPages_run {rounds : Nat} (mapped : mapMmioPages rounds s addr endAddr = some t) :
    ∃ past, Run Space.Step s past t := by
  induction rounds generalizing s addr with
  | zero =>
    rw [mapMmioPages] at mapped
    split_ifs at mapped
    obtain rfl := Option.some.inj mapped
    exact ⟨[],.nil⟩
  | succ rounds ih =>
    rw [mapMmioPages] at mapped
    split_ifs at mapped
    · obtain ⟨first,round⟩ := mapMmioPage_run s addr
      obtain ⟨rest,rounds⟩ := ih mapped
      exact ⟨_,round.trans rounds⟩
    · obtain rfl := Option.some.inj mapped
      exact ⟨[],.nil⟩

/-- The loop takes steps of the address space only, so what holds behind every run holds behind
it. -/
theorem vmmMapMmio_run {m : Memory} {past : List (Space × SpaceOp)}
    (run : Run Space.Step (bootSpace image kernelEnd m) past s)
    (mapped : vmmMapMmio s physAddr size = some t) :
    ∃ future, Run Space.Step (bootSpace image kernelEnd m) (past ++ future) t := by
  obtain ⟨future,loop⟩ := mapMmioPages_run mapped
  exact ⟨future,run.trans loop⟩

/-- Rounding to pages does not take in another table. -/
theorem lacking_rounded (p : Tables) (first last : Nat) :
    lacking p (first / 4096 * 4096) ((last + 4095) / 4096 * 4096) = lacking p first last := by
  ext i
  rw [mem_lacking,mem_lacking]
  refine and_congr_right fun _ => and_congr ?_ ?_
  · omega
  · omega

theorem physical_same (same : target (entry t a) = target (entry s a)) :
    vmmGetPhysical t.tables t.mem a = vmmGetPhysical s.tables s.mem a := by
  rw [vmmGetPhysical_target,vmmGetPhysical_target,same]

theorem physical_self (same : target (entry s a) = some (a &&& 0xFFFFF000)) :
    vmmGetPhysical s.tables s.mem a = a := by
  rw [vmmGetPhysical_target,same]
  dsimp only
  rw [← BitVec.and_or_distrib_left]
  exact BitVec.and_allOnes

theorem Separate.vmmMapMmio_reaches (separate : Separate image kernelEnd s.tables held)
    (positive : 0 < size.toNat) (fits : physAddr.toNat + size.toNat ≤ 0xFFFFF000)
    (unclaimed : ∀ a : Word, physAddr.toNat ≤ a.toNat → a.toNat < physAddr.toNat + size.toNat →
      Unclaimed s a)
    (enough : (lacking s.tables physAddr.toNat (physAddr.toNat + size.toNat)).card ≤
      (spare s.tables.frames).card) :
    ∃ t, vmmMapMmio s physAddr size = some t ∧ Reaches s t physAddr size := by
  have start := mask_toNat physAddr
  have stop := mmioEnd_toNat fits
  rw [← lacking_rounded,← start,← stop] at enough
  have rounded : ∀ a : Word, (physAddr &&& 0xFFFFF000).toNat ≤ a.toNat →
      a.toNat < (mmioEnd physAddr size).toNat → Unclaimed s a := by
    intro a above below
    have small := a.isLt
    by_cases first : a.toNat / 4096 = physAddr.toNat / 4096
    · refine (unclaimed physAddr (Nat.le_refl _) (by omega)).samePage ?_
      rw [← BitVec.toNat_inj,page_toNat,page_toNat,first]
    · have page := mask_toNat a
      refine (unclaimed (a &&& 0xFFFFF000) (by omega) (by omega)).samePage ?_
      rw [← BitVec.toNat_inj,page_toNat,page_toNat,page]
      omega
  obtain ⟨t,loop,targets⟩ := separate.mapMmioPages_spec (n := 0x100000) (by omega) (by omega) (by omega)
    (Nat.le_refl _) rounded (Nat.le_refl _) enough
  refine ⟨t,loop,fun a above below => ?_,fun a outside => ?_⟩
  · apply physical_self
    rw [targets,if_pos (by omega)]
  · apply physical_same
    rw [targets,if_neg (by omega)]

/-- The registers are reached unless the region reaches into the last page, where they are only
if they were before. -/
theorem mmio_reached_iff {m : Memory} {past : List (Space × SpaceOp)}
    (run : Run Space.Step (bootSpace image kernelEnd m) past s) (positive : 0 < size.toNat)
    (inside : physAddr.toNat + size.toNat ≤ 2^32)
    (unclaimed : ∀ a : Word, physAddr.toNat ≤ a.toNat → a.toNat < physAddr.toNat + size.toNat →
      Unclaimed s a)
    (enough : (lacking s.tables physAddr.toNat (physAddr.toNat + size.toNat)).card ≤
      (spare s.tables.frames).card) :
    (∃ t, vmmMapMmio s physAddr size = some t ∧ Reaches s t physAddr size) ↔
      physAddr.toNat + size.toNat ≤ 0xFFFFF000 ∨
        ∀ a : Word, physAddr.toNat ≤ a.toNat → a.toNat < physAddr.toNat + size.toNat →
          vmmGetPhysical s.tables s.mem a = a := by
  obtain ⟨held,separate⟩ := run_separate run
  by_cases fits : physAddr.toNat + size.toNat ≤ 0xFFFFF000
  · exact iff_of_true (separate.vmmMapMmio_reaches positive fits unclaimed enough) (.inl fits)
  · rw [vmmMapMmio_wrapped s fits inside]
    constructor
    · rintro ⟨t,same,reaches⟩
      obtain rfl := Option.some.inj same
      exact .inr reaches.region
    · rintro (before | before)
      · exact absurd before fits
      · exact ⟨s,rfl,before,fun _ _ => rfl⟩

/-! Regions of one table, at boot. -/

theorem lacking_one (p : Tables) (one : last ≤ (first / 2^22 + 1) * 2^22) :
    (lacking p first last).card ≤ 1 := by
  apply Finset.card_le_one.mpr
  intro i here j there
  have left := mem_lacking.mp here
  have right := mem_lacking.mp there
  apply Fin.ext
  omega

theorem boot_spare (m : Memory) (room : kernelEnd.val.toNat + 4096 ≤ 0x1000000) :
    0 < (spare (bootSpace image kernelEnd m).tables.frames).card := by
  have count := reserved_toNat kernelEnd.property.2
  have limit : totalFrames = 4096 := rfl
  have place : reserved kernelEnd < totalFrames := by
    unfold reserved
    omega
  refine Finset.card_pos.mpr ⟨⟨reserved kernelEnd,place⟩,mem_spare.mpr ⟨Nat.le_of_eq count,?_⟩⟩
  simp only [bootSpace,pmmInit,count,bitmapTest_reserve,Nat.lt_irrefl,decide_false]

theorem boot_budget (m : Memory) (room : kernelEnd.val.toNat + 4096 ≤ 0x1000000)
    (one : last ≤ (first / 2^22 + 1) * 2^22) :
    (lacking (bootSpace image kernelEnd m).tables first last).card ≤
      (spare (bootSpace image kernelEnd m).tables.frames).card :=
  (lacking_one _ one).trans (boot_spare m room)

theorem boot_target (m : Memory) (high : 0x1000000 ≤ a.toNat) :
    target (entry (bootSpace image kernelEnd m) a) = none := by
  have page := page_toNat a
  rw [bootSpace_shows,identity]
  exact if_neg (by omega)

theorem boot_unclaimed (m : Memory) (high : 0x1000000 ≤ a.toNat) :
    Unclaimed (bootSpace image kernelEnd m) a := by
  rw [Unclaimed,boot_target m high]
  intro frame found
  cases found

/-- The registers of a network card. -/
theorem mmio_reached_card : ∃ t,
    vmmMapMmio (bootSpace default ⟨0x500000,by decide⟩ fun _ => 0) 0xFEBC0000 0x20000 = some t ∧
      Reaches (bootSpace default ⟨0x500000,by decide⟩ fun _ => 0) t 0xFEBC0000 0x20000 := by
  have high : ∀ a : Word, (0xFEBC0000 : Word).toNat ≤ a.toNat → 0x1000000 ≤ a.toNat := by
    intro a above
    exact Nat.le_trans (by decide) above
  exact (mmio_reached_iff .nil (by decide) (by decide)
    (fun a above _ => boot_unclaimed _ (high a above))
    (boot_budget _ (by decide) (by decide))).mpr (.inl (by decide))

/-- The last page stays unmapped. -/
theorem last_page_unreached : ¬∀ (image : PagingImage) (kernelEnd : KernelEnd image) (m : Memory) past s,
    Run Space.Step (bootSpace image kernelEnd m) past s → ∀ physAddr size : Word, 0 < size.toNat →
      physAddr.toNat + size.toNat ≤ 2^32 →
      (∀ a : Word, physAddr.toNat ≤ a.toNat → a.toNat < physAddr.toNat + size.toNat → Unclaimed s a) →
      (lacking s.tables physAddr.toNat (physAddr.toNat + size.toNat)).card ≤
        (spare s.tables.frames).card →
      ∃ t, vmmMapMmio s physAddr size = some t ∧ Reaches s t physAddr size := by
  intro claim
  obtain ⟨t,same,reaches⟩ := claim default ⟨0x500000,by decide⟩ (fun _ => 0) [] _ .nil 0xFFFFF000 0x1000
    (by decide) (by decide) (fun a above _ => boot_unclaimed _ (Nat.le_trans (by decide) above))
    (boot_budget _ (by decide) (by decide))
  rw [vmmMapMmio_wrapped _ (by decide) (by decide)] at same
  obtain rfl := Option.some.inj same
  have reached := reaches.region 0xFFFFF000 (by decide) (by decide)
  rw [vmmGetPhysical_target,boot_target _ (by decide)] at reached
  exact absurd reached (by decide)

end Pages

end NimrodOS.Paging
