import NimrodOS.PagingPool

/-! The address map that the page tables stand for. Every table in use has a frame of its
own, so an entry belongs to one page. -/
namespace NimrodOS.Paging

open ByteMemory Memory Transition

/-- The tables with the memory that they lie in. -/
structure Space where
  tables : Tables
  mem : Memory

def Present (p : Tables) (i : Fin 1024) : Prop := p.pageDirectory i &&& ptePresent ≠ 0

instance (p : Tables) (i : Fin 1024) : Decidable (Present p i) := inferInstanceAs (Decidable (_ ≠ _))

/-- A byte of a table in use. -/
def TableMemory (p : Tables) (x : Word) : Prop :=
  ∃ i, Present p i ∧ x.toNat / 4096 = (p.pageDirectory i).toNat / 4096

inductive SpaceOp where
  | map (virtualAddr physicalAddr flags : Word)
  | unmap (virtualAddr : Word)
  /-- What others write to memory. -/
  | store (m : Memory)

def mapPage (s : Space) (virtualAddr physicalAddr flags : Word) : Space :=
  let mapped := vmmMapPage s.tables s.mem virtualAddr physicalAddr flags
  ⟨mapped.1,mapped.2⟩

/-- Tables are written by `vmm.c` only. -/
inductive Space.Step : Space → SpaceOp → Space → Prop where
  | map {s : Space} {virtualAddr physicalAddr flags : Word} (small : flags.toNat < 0x1000) :
      Step s (.map virtualAddr physicalAddr flags) (mapPage s virtualAddr physicalAddr flags)
  | unmap {s : Space} {virtualAddr : Word} :
      Step s (.unmap virtualAddr) ⟨s.tables,vmmUnmapPage s.tables s.mem virtualAddr⟩
  | store {s : Space} {m : Memory} (kept : ∀ x, TableMemory s.tables x → m x = s.mem x) :
      Step s (.store m) ⟨s.tables,m⟩

/-- Where the free frames may begin: behind the kernel, in which the first tables lie. -/
abbrev KernelEnd (image : PagingImage) :=
  {e : Word // image.kernelEnd.toNat ≤ e.toNat ∧ e.toNat ≤ 0x1000000}

/-- After `pmm_init` and `vmm_init`. -/
def bootSpace (image : PagingImage) (kernelEnd : KernelEnd image) (m : Memory) : Space :=
  ⟨⟨(vmmInit image m).2,pmmInit kernelEnd⟩,(vmmInit image m).1⟩

/-- The entry of a page, 0 where its table is missing. -/
def entry (s : Space) (a : Word) : Word :=
  if Present s.tables (dirIndex a) then
    load32 s.mem (entryAddr (s.tables.pageDirectory (dirIndex a)) a)
  else 0

/-- Whose table lies where. -/
structure Separate (image : PagingImage) (kernelEnd : KernelEnd image) (p : Tables)
    (held : Finset Word) : Prop where
  recorded : Recorded kernelEnd ⟨p.frames,held⟩
  low : ∀ i : Fin 1024, i.val < 4 → Present p i ∧
    (p.pageDirectory i).toNat / 4096 = image.identityTables.toNat / 4096 + i.val
  high : ∀ i : Fin 1024, 4 ≤ i.val → Present p i →
    frameAddr ((p.pageDirectory i).toNat / 4096) ∈ held
  apart : ∀ i j, Present p i → Present p j →
    (p.pageDirectory i).toNat / 4096 = (p.pageDirectory j).toNat / 4096 → i = j

section Pages

variable {a b : Word}

theorem dirIndex_val (a : Word) : (dirIndex a).val = a.toNat / 2^22 := by
  have small := a.isLt
  rw [dirIndex,Fin.val_ofNat,BitVec.toNat_ushiftRight,Nat.shiftRight_eq_div_pow]
  exact Nat.mod_eq_of_lt (by omega)

theorem tableIndex_toNat (a : Word) : (tableIndex a).toNat = a.toNat / 4096 % 1024 := by
  rw [tableIndex,BitVec.toNat_and,BitVec.toNat_ushiftRight,Nat.shiftRight_eq_div_pow]
  exact Nat.and_two_pow_sub_one_eq_mod _ 10

theorem page_toNat (a : Word) : (a >>> 12).toNat = a.toNat / 4096 := by
  rw [BitVec.toNat_ushiftRight,Nat.shiftRight_eq_div_pow]

/-- Two addresses lie in one page when they share both indices. -/
theorem samePage_iff : a >>> 12 = b >>> 12 ↔
    dirIndex a = dirIndex b ∧ tableIndex a = tableIndex b := by
  simp only [← BitVec.toNat_inj,Fin.ext_iff,page_toNat,dirIndex_val,tableIndex_toNat]
  omega

end Pages

section Entries

variable {image : PagingImage} {kernelEnd : KernelEnd image} {s : Space} {p : Tables} {m m' : Memory}
  {held : Finset Word} {a b v w : Word} {i : Fin 1024}

theorem entry_present (present : Present s.tables (dirIndex a)) :
    entry s a = load32 s.mem (entryAddr (s.tables.pageDirectory (dirIndex a)) a) := if_pos present

theorem entry_missing (missing : ¬Present s.tables (dirIndex a)) : entry s a = 0 := if_neg missing

theorem vmmGetPhysical_eq (s : Space) (a : Word) : vmmGetPhysical s.tables s.mem a =
    if entry s a &&& ptePresent = 0 then 0
    else (entry s a &&& 0xFFFFF000) ||| (a &&& 0xFFF) := by
  by_cases present : Present s.tables (dirIndex a)
  · rw [vmmGetPhysical,entry_present present]
    exact if_neg present
  · rw [vmmGetPhysical,entry_missing present]
    exact if_pos (not_not.mp present)

/-- Entries of different pages do not overlap. -/
theorem Separate.entries_apart (separate : Separate image kernelEnd p held)
    (here : Present p (dirIndex a)) (there : Present p (dirIndex b)) (other : a >>> 12 ≠ b >>> 12) :
    let x := (entryAddr (p.pageDirectory (dirIndex a)) a).toNat
    let y := (entryAddr (p.pageDirectory (dirIndex b)) b).toNat
    x + 4 ≤ y ∨ y + 4 ≤ x := by
  obtain ⟨inside,address⟩ := entryAddr_toNat (p.pageDirectory (dirIndex a)) a
  obtain ⟨inside',address'⟩ := entryAddr_toNat (p.pageDirectory (dirIndex b)) b
  intro x y
  have left : x = _ := address
  have right : y = _ := address'
  by_cases frame : (p.pageDirectory (dirIndex a)).toNat / 4096 = (p.pageDirectory (dirIndex b)).toNat / 4096
  · have dir := separate.apart _ _ here there frame
    have index : (tableIndex a).toNat ≠ (tableIndex b).toNat := by
      intro same
      exact other (samePage_iff.mpr ⟨dir,BitVec.eq_of_toNat_eq same⟩)
    omega
  · omega

theorem entryAddr_fits (e a : Word) : (entryAddr e a).toNat + 4 ≤ 2^32 := by
  obtain ⟨inside,address⟩ := entryAddr_toNat e a
  have small := e.isLt
  rw [entryAddr,address]
  omega

/-- A store to one entry leaves the others alone. -/
theorem Separate.entry_store (separate : Separate image kernelEnd p held)
    (present : Present p (dirIndex v)) :
    entry ⟨p,store32 m (entryAddr (p.pageDirectory (dirIndex v)) v) w⟩ a =
      if a >>> 12 = v >>> 12 then w else entry ⟨p,m⟩ a := by
  by_cases same : a >>> 12 = v >>> 12
  · obtain ⟨dir,index⟩ := samePage_iff.mp same
    have here : entryAddr (p.pageDirectory (dirIndex a)) a = entryAddr (p.pageDirectory (dirIndex v)) v := by
      rw [entryAddr,entryAddr,dir,index]
    rw [if_pos same,entry_present (dir ▸ present)]
    dsimp only
    rw [here,load32_store32]
  · rw [if_neg same]
    by_cases there : Present p (dirIndex a)
    · have apart := separate.entries_apart there present same
      have agree := agree_store32 m (entryAddr (p.pageDirectory (dirIndex v)) v) w (entryAddr_fits _ _) apart
      rw [entry_present there,entry_present there]
      exact (agree.load32 _ (Nat.le_refl _) (Nat.le_refl _) (entryAddr_fits _ _)).symm
    · rw [entry_missing there,entry_missing there]

/-- An entry is found through its directory entry alone. -/
theorem entry_dir {p' : Tables} (same : p'.pageDirectory (dirIndex a) = p.pageDirectory (dirIndex a)) :
    entry ⟨p',m⟩ a = entry ⟨p,m⟩ a := by
  by_cases there : Present p (dirIndex a)
  · have there' : Present p' (dirIndex a) := by rwa [Present,same]
    rw [entry_present there',entry_present there]
    dsimp only
    rw [same]
  · have missing : ¬Present p' (dirIndex a) := by rwa [Present,same]
    rw [entry_missing missing,entry_missing there]

/-- A byte of an entry belongs to its table. -/
theorem entry_congr (same : ∀ x, TableMemory p x → m' x = m x) : entry ⟨p,m'⟩ a = entry ⟨p,m⟩ a := by
  by_cases there : Present p (dirIndex a)
  · obtain ⟨inside,address⟩ := entryAddr_toNat (p.pageDirectory (dirIndex a)) a
    rw [entry_present there,entry_present there]
    have agree : Agree m' m (entryAddr (p.pageDirectory (dirIndex a)) a).toNat
        ((entryAddr (p.pageDirectory (dirIndex a)) a).toNat + 4) := by
      intro x above below
      rw [entryAddr,address] at above below
      exact same x ⟨dirIndex a,there,by omega⟩
    exact agree.load32 _ (Nat.le_refl _) (Nat.le_refl _) (entryAddr_fits _ _)
  · rw [entry_missing there,entry_missing there]

/-! A new table. -/

/-- No table lies in a free frame. -/
theorem Separate.free_apart (separate : Separate image kernelEnd p held) {k : Fin totalFrames}
    (free : Free kernelEnd ⟨p.frames,held⟩ (frameAddr k)) (there : Present p i) :
    (p.pageDirectory i).toNat / 4096 ≠ k.val := by
  intro same
  by_cases low : i.val < 4
  · have frame := (separate.low i low).2
    have static := image.static
    have covered := kernelEnd.property.1
    have above := free.above
    rw [frameAddr_toNat k.isLt] at above
    unfold reserved at above
    omega
  · exact free.unheld (same ▸ separate.high i (by omega) there)

/-- Memory after a frame is cleared. -/
structure Cleared (m m' : Memory) (f : Nat) : Prop where
  zero : ∀ x : Word, x.toNat / 4096 = f → m' x = 0
  kept : ∀ x : Word, x.toNat / 4096 ≠ f → m' x = m x

theorem clearFrame_cleared (m : Memory) {k : Nat} (inside : k < totalFrames) :
    Cleared m (clearFrame m (frameAddr k)) k := by
  have address := frameAddr_toNat inside
  have limit : totalFrames = 4096 := rfl
  have size : pageSize.toNat = 4096 := rfl
  have fits : (frameAddr k).toNat + pageSize.toNat ≤ 2^32 := by omega
  constructor
  · intro x within
    exact fillBytes_inside 0 m fits (by omega) (by omega)
  · intro x outside
    exact (fillBytes_outside 0 fits x (by omega)).symm

theorem Cleared.load32 {f : Nat} (cleared : Cleared m m' f) (within : a.toNat / 4096 = f)
    (whole : (a.toNat + 3) / 4096 = f) : load32 m' a = 0 := by
  rw [ByteMemory.load32,cleared.zero a within,cleared.zero (a + 1) (by bv_omega),
    cleared.zero (a + 2) (by bv_omega),cleared.zero (a + 3) (by bv_omega)]
  rfl

theorem KernelEnd.positive (kernelEnd : KernelEnd image) : 0 < kernelEnd.val.toNat := by
  have static := image.static
  have covered := kernelEnd.property.1
  omega

/-- The new table gets a free frame. -/
theorem Separate.grow (separate : Separate image kernelEnd p held) {k : Fin totalFrames}
    (free : Free kernelEnd ⟨p.frames,held⟩ (frameAddr k)) (missing : ¬Present p i) (flags : Word) :
    Separate image kernelEnd (setEntry p {p.frames with frameBitmap := bitmapSet p.frames.frameBitmap k} i
      (tableEntry (frameAddr k) flags)) (insert (frameAddr k) held) := by
  have frame : (tableEntry (frameAddr k) flags).toNat / 4096 = k.val := by
    rw [tableEntry_frame,frameAddr_toNat k.isLt]
    omega
  have kept {j : Fin 1024} (other : j ≠ i) {frames : Frames} {e : Word} :
      Present (setEntry p frames i e) j ↔ Present p j := by
    rw [Present,setEntry_other other,Present]
  have high : 4 ≤ i.val := by
    by_contra low
    exact missing (separate.low i (by omega)).1
  constructor
  · exact separate.recorded.alloc free
  · intro j low
    have other : j ≠ i := by
      rintro rfl
      omega
    rw [kept other,setEntry_other other]
    exact separate.low j low
  · intro j above there
    by_cases same : j = i
    · rw [same,setEntry_same,frame]
      exact Finset.mem_insert_self _ _
    · rw [setEntry_other same]
      exact Finset.mem_insert_of_mem (separate.high j above ((kept same).mp there))
  · intro j l here there equal
    by_cases first : j = i
    · by_cases second : l = i
      · rw [first,second]
      · rw [first,setEntry_same,setEntry_other second,frame] at equal
        exact absurd equal.symm (separate.free_apart free ((kept second).mp there))
    · by_cases second : l = i
      · rw [second,setEntry_same,setEntry_other first,frame] at equal
        exact absurd equal (separate.free_apart free ((kept first).mp here))
      · rw [setEntry_other first,setEntry_other second] at equal
        exact separate.apart j l ((kept first).mp here) ((kept second).mp there) equal

/-- It has no entries yet. -/
theorem Separate.entry_new (separate : Separate image kernelEnd p held) {k : Fin totalFrames}
    (free : Free kernelEnd ⟨p.frames,held⟩ (frameAddr k)) (missing : ¬Present p i) (flags : Word)
    (frames : Frames) (cleared : Cleared m m' k) :
    entry ⟨setEntry p frames i (tableEntry (frameAddr k) flags),m'⟩ a = entry ⟨p,m⟩ a := by
  by_cases here : dirIndex a = i
  · have there : (setEntry p frames i (tableEntry (frameAddr k) flags)).pageDirectory (dirIndex a) =
        tableEntry (frameAddr k) flags := by
      rw [here,setEntry_same]
    have present : Present (setEntry p frames i (tableEntry (frameAddr k) flags)) (dirIndex a) := by
      rw [Present,there]
      exact tableEntry_present _ flags
    obtain ⟨inside,place⟩ := entryAddr_toNat (tableEntry (frameAddr k) flags) a
    rw [tableEntry_frame,frameAddr_toNat k.isLt] at place
    rw [entry_present present,entry_missing (here ▸ missing),there,entryAddr]
    exact cleared.load32 (by omega) (by omega)
  · have same : (setEntry p frames i (tableEntry (frameAddr k) flags)).pageDirectory (dirIndex a) =
        p.pageDirectory (dirIndex a) := setEntry_other here
    rw [entry_dir same]
    apply entry_congr
    rintro x ⟨j,there,inside⟩
    have apart := separate.free_apart free there
    exact cleared.kept x (by omega)

/-! Mapping. -/

/-- There is a table for the page, or a frame to make one. -/
def Effective (s : Space) (virtualAddr : Word) : Prop :=
  Present s.tables (dirIndex virtualAddr) ∨ (pmmAllocFrame s.tables.frames).2 ≠ 0

instance (s : Space) (virtualAddr : Word) : Decidable (Effective s virtualAddr) :=
  inferInstanceAs (Decidable (_ ∨ _))

/-- The table that a mapping goes to. -/
theorem Separate.pageTable_cases (separate : Separate image kernelEnd p held) (m : Memory) (flags : Word) :
    (¬Effective ⟨p,m⟩ v ∧ pageTable p m (dirIndex v) flags = none) ∨
    Effective ⟨p,m⟩ v ∧ ∃ p' m' held', pageTable p m (dirIndex v) flags = some (p',m') ∧
      Separate image kernelEnd p' held' ∧ Present p' (dirIndex v) ∧
      (∀ a, entry ⟨p',m'⟩ a = entry ⟨p,m⟩ a) ∧
      (∀ j, Present p j → p'.pageDirectory j = p.pageDirectory j) ∧
      ∀ j, ¬Present p j → Present p' j →
        ∃ k : Fin totalFrames, j = dirIndex v ∧ p'.pageDirectory j = tableEntry (frameAddr k) flags := by
  by_cases there : Present p (dirIndex v)
  · exact .inr ⟨.inl there,p,m,held,pageTable_present m flags there,separate,there,fun _ => rfl,
      fun _ _ => rfl,fun j missing present => absurd present missing⟩
  have missing := not_not.mp there
  rcases separate.recorded.alloc_cases kernelEnd.positive with ⟨-,full⟩ | ⟨k,free,-,nonzero,given⟩
  · refine .inl ⟨?_,pageTable_full m flags missing full⟩
    rintro (present | served)
    · exact there present
    · exact served (congrArg Prod.snd full)
  · refine .inr ⟨.inr ?_,_,_,_,pageTable_new m flags missing given nonzero,
      separate.grow free there flags,?_,fun a =>
        separate.entry_new free there flags _ (clearFrame_cleared m k.isLt),?_,?_⟩
    · rw [given]
      exact nonzero
    · rw [Present,setEntry_same]
      exact tableEntry_present _ flags
    · intro j present
      exact setEntry_other fun same => there (same ▸ present)
    · intro j absent present
      by_cases same : j = dirIndex v
      · rw [same,setEntry_same]
        exact ⟨k,rfl,rfl⟩
      · rw [Present,setEntry_other same] at present
        exact absurd present absent

theorem mapPage_none {virtualAddr physicalAddr flags : Word}
    (none : pageTable s.tables s.mem (dirIndex virtualAddr) flags = none) :
    mapPage s virtualAddr physicalAddr flags = s := by
  simp only [mapPage,vmmMapPage,none]

theorem mapPage_some {virtualAddr physicalAddr flags : Word}
    (some : pageTable s.tables s.mem (dirIndex virtualAddr) flags = some (p,m)) :
    mapPage s virtualAddr physicalAddr flags =
      ⟨p,store32 m (entryAddr (p.pageDirectory (dirIndex virtualAddr)) virtualAddr)
        ((physicalAddr &&& 0xFFFFF000) ||| (flags ||| ptePresent))⟩ := by
  simp only [mapPage,vmmMapPage,some]
  rfl

/-- A mapping leaves the tables in use where they are. -/
theorem Separate.mapPage_dirs (separate : Separate image kernelEnd s.tables held)
    (virtualAddr physicalAddr flags : Word) (j : Fin 1024) :
    (Present s.tables j →
      (mapPage s virtualAddr physicalAddr flags).tables.pageDirectory j = s.tables.pageDirectory j) ∧
    (¬Present s.tables j → Present (mapPage s virtualAddr physicalAddr flags).tables j →
      ∃ k : Fin totalFrames, j = dirIndex virtualAddr ∧
        (mapPage s virtualAddr physicalAddr flags).tables.pageDirectory j =
          tableEntry (frameAddr k) flags) := by
  rcases separate.pageTable_cases s.mem flags (v := virtualAddr) with
    ⟨-,none⟩ | ⟨-,p',m',held',found,-,-,-,kept,made⟩
  · rw [mapPage_none none]
    exact ⟨fun _ => rfl,fun missing there => absurd there missing⟩
  · rw [mapPage_some found]
    exact ⟨kept j,made j⟩

theorem Separate.mapPage_present (separate : Separate image kernelEnd s.tables held)
    {virtualAddr : Word} (physicalAddr flags : Word) (effective : Effective s virtualAddr) :
    Present (mapPage s virtualAddr physicalAddr flags).tables (dirIndex virtualAddr) := by
  rcases separate.pageTable_cases s.mem flags (v := virtualAddr) with
    ⟨full,-⟩ | ⟨-,p',m',held',found,-,there,-⟩
  · exact absurd effective full
  · rw [mapPage_some found]
    exact there

/-- What a mapping does to the entries. -/
theorem Separate.mapPage_cases (separate : Separate image kernelEnd s.tables held)
    (virtualAddr physicalAddr flags : Word) :
    (¬Effective s virtualAddr ∧ mapPage s virtualAddr physicalAddr flags = s) ∨
    Effective s virtualAddr ∧
      (∃ held', Separate image kernelEnd (mapPage s virtualAddr physicalAddr flags).tables held') ∧
      ∀ a, entry (mapPage s virtualAddr physicalAddr flags) a =
        if a >>> 12 = virtualAddr >>> 12 then (physicalAddr &&& 0xFFFFF000) ||| (flags ||| ptePresent)
        else entry s a := by
  rcases separate.pageTable_cases s.mem flags (v := virtualAddr) with
    ⟨full,none⟩ | ⟨effective,p',m',held',found,separate',there,same,-⟩
  · exact .inl ⟨full,mapPage_none none⟩
  · rw [mapPage_some found]
    refine .inr ⟨effective,⟨held',separate'⟩,fun a => ?_⟩
    rw [separate'.entry_store there,same]

theorem Separate.unmap_entry (separate : Separate image kernelEnd s.tables held) (virtualAddr : Word) :
    entry ⟨s.tables,vmmUnmapPage s.tables s.mem virtualAddr⟩ a =
      if a >>> 12 = virtualAddr >>> 12 then 0 else entry s a := by
  by_cases there : Present s.tables (dirIndex virtualAddr)
  · have stored : vmmUnmapPage s.tables s.mem virtualAddr =
        store32 s.mem (entryAddr (s.tables.pageDirectory (dirIndex virtualAddr)) virtualAddr) 0 := if_neg there
    rw [stored]
    exact separate.entry_store there
  · have kept : vmmUnmapPage s.tables s.mem virtualAddr = s.mem := if_pos (not_not.mp there)
    rw [kept]
    split
    · rename_i same
      rw [← (samePage_iff.mp same).1] at there
      exact entry_missing there
    · rfl

end Entries

/-! The address map. -/

/-- Where the frame of a page is, by page number. -/
abbrev AddressMap := Word → Option Word

/-- The first 16 MB are mapped to themselves. -/
def identity : AddressMap := fun page => if page.toNat < 4096 then some (page <<< 12) else none

/-- A mapping that takes effect replaces the one before. -/
def remember (map : AddressMap) : Space × SpaceOp → AddressMap
  | (s,.map virtualAddr physicalAddr _) =>
    if Effective s virtualAddr then
      Function.update map (virtualAddr >>> 12) (some (physicalAddr &&& 0xFFFFF000))
    else map
  | (_,.unmap virtualAddr) => Function.update map (virtualAddr >>> 12) none
  | (_,.store _) => map

def addressMap (past : List (Space × SpaceOp)) : AddressMap := past.foldl remember identity

def translate (map : AddressMap) (a : Word) : Word :=
  match map (a >>> 12) with
  | none => 0
  | some frame => frame ||| (a &&& 0xFFF)

/-- The frame that an entry points to. -/
def target (e : Word) : Option Word := if e &&& ptePresent = 0 then none else some (e &&& 0xFFFFF000)

def SpaceOp.page : SpaceOp → Option Word
  | .map virtualAddr _ _ | .unmap virtualAddr => some (virtualAddr >>> 12)
  | .store _ => none

/-- The tables as a user of `vmm.c` sees them. -/
structure Refines (past : List (Space × SpaceOp)) (s : Space) : Prop where
  translates : ∀ a, vmmGetPhysical s.tables s.mem a = translate (addressMap past) a
  failed : ∀ virtualAddr physicalAddr flags, ¬Effective s virtualAddr →
    mapPage s virtualAddr physicalAddr flags = s
  others : ∀ op t, Space.Step s op t → ∀ a : Word, op.page ≠ some (a >>> 12) →
    vmmGetPhysical t.tables t.mem a = vmmGetPhysical s.tables s.mem a

section Map

variable {image : PagingImage} {kernelEnd : KernelEnd image} {s t : Space} {op : SpaceOp}
  {past : List (Space × SpaceOp)} {map : AddressMap} {a e flags : Word} {m : Memory}

theorem vmmGetPhysical_target (s : Space) (a : Word) : vmmGetPhysical s.tables s.mem a =
    match target (entry s a) with
    | none => 0
    | some frame => frame ||| (a &&& 0xFFF) := by
  rw [vmmGetPhysical_eq,target]
  split
  · rfl
  · rfl

theorem low_flags (small : flags.toNat < 0x1000) : (flags ||| ptePresent).toNat < 2^12 := by
  rw [BitVec.toNat_or]
  exact Nat.or_lt_two_pow small (by decide)

/-- Flags do not reach into the address of a frame. -/
theorem frame_or (e : Word) (small : flags.toNat < 2^12) :
    ((e &&& 0xFFFFF000) ||| flags) &&& 0xFFFFF000 = e &&& 0xFFFFF000 := by
  have mask : ~~~BitVec.ofNat 32 (2^12 - 1) = 0xFFFFF000 := by decide
  have high (x : Word) : (x &&& 0xFFFFF000).toNat = x.toNat / 2^12 * 2^12 := by
    have cleared := clearLow_toNat x 12
    rwa [mask] at cleared
  apply BitVec.eq_of_toNat_eq
  rw [high,Bits.or_div small,high]
  omega

theorem target_mapped (e : Word) (small : flags.toNat < 0x1000) :
    target ((e &&& 0xFFFFF000) ||| (flags ||| ptePresent)) = some (e &&& 0xFFFFF000) := by
  have present : ((e &&& 0xFFFFF000) ||| (flags ||| ptePresent)) &&& ptePresent = ptePresent := by
    rw [← BitVec.or_assoc]
    exact Bits.or_last _ _
  rw [target,present,if_neg (by decide),frame_or e (low_flags small)]

/-! The first 16 MB. -/

theorem identityMap_load (image : PagingImage) (m : Memory) {n : Nat} (inside : n < 4096) :
    load32 (identityMap image m) (image.identityTables + BitVec.ofNat 32 (4 * n)) =
      (BitVec.ofNat 32 n * pageSize ||| ptePresent ||| pteWritable) := by
  have static := image.static
  have room := image.room
  have address (k : Nat) (below : k < 4096) : (image.identityTables + BitVec.ofNat 32 (4 * k)).toNat =
      image.identityTables.toNat + 4 * k := offset_toNat (by omega)
  have prefixes (k : Nat) (le : k ≤ 4096) (done : n < k) :
      load32 ((List.range k).foldl (identityEntry image) m)
        (image.identityTables + BitVec.ofNat 32 (4 * n)) =
          (BitVec.ofNat 32 n * pageSize ||| ptePresent ||| pteWritable) := by
    induction k with
    | zero => omega
    | succ k ih =>
      rw [List.range_succ,List.foldl_append,List.foldl_cons,List.foldl_nil]
      have last := address k (by omega)
      have here := address n inside
      by_cases new : n = k
      · rw [new]
        exact load32_store32 _ _ _
      · rw [← ih (by omega) (by omega)]
        apply Eq.symm
        exact (agree_store32 _ _ _ (by omega) (by omega)).load32 _ (Nat.le_refl _) (Nat.le_refl _) (by omega)
  unfold identityMap
  exact prefixes 4096 (Nat.le_refl _) inside

theorem bootSpace_separate (image : PagingImage) (kernelEnd : KernelEnd image) (m : Memory) :
    Separate image kernelEnd (bootSpace image kernelEnd m).tables ∅ := by
  have absent {i : Fin 1024} (there : Present (bootSpace image kernelEnd m).tables i) : i.val < 4 := by
    by_contra high
    apply there
    change (vmmInit image m).2 i &&& ptePresent = 0
    rw [vmmInit_high image m (Nat.le_of_not_lt high)]
    decide
  constructor
  · exact pmmInit_recorded kernelEnd.property.2
  · intro i low
    exact vmmInit_low image m low
  · intro i high there
    have low := absent there
    omega
  · intro i j here there same
    have left : ((bootSpace image kernelEnd m).tables.pageDirectory i).toNat / 4096 = _ :=
      (vmmInit_low image m (absent here)).2
    have right : ((bootSpace image kernelEnd m).tables.pageDirectory j).toNat / 4096 = _ :=
      (vmmInit_low image m (absent there)).2
    exact Fin.ext (by omega)

theorem bootSpace_entry (image : PagingImage) (kernelEnd : KernelEnd image) (m : Memory) (a : Word) :
    entry (bootSpace image kernelEnd m) a =
      if a.toNat < 0x1000000 then
        BitVec.ofNat 32 (a.toNat / 4096) * pageSize ||| ptePresent ||| pteWritable
      else 0 := by
  have dir := dirIndex_val a
  have index := tableIndex_toNat a
  split
  · have low : (dirIndex a).val < 4 := by omega
    obtain ⟨there,frame⟩ := vmmInit_low image m low
    have present : Present (bootSpace image kernelEnd m).tables (dirIndex a) := there
    have aligned := image.aligned
    have static := image.static
    have room := image.room
    obtain ⟨-,place⟩ := entryAddr_toNat ((vmmInit image m).2 (dirIndex a)) a
    have address : (image.identityTables + BitVec.ofNat 32 (4 * (a.toNat / 4096))).toNat =
        image.identityTables.toNat + 4 * (a.toNat / 4096) := offset_toNat (by omega)
    have same : entryAddr ((vmmInit image m).2 (dirIndex a)) a =
        image.identityTables + BitVec.ofNat 32 (4 * (a.toNat / 4096)) := by
      apply BitVec.eq_of_toNat_eq
      rw [entryAddr,place,address]
      omega
    rw [entry_present present,← identityMap_load image m (by omega),← same]
    rfl
  · apply entry_missing
    intro there
    apply there
    change (vmmInit image m).2 (dirIndex a) &&& ptePresent = 0
    rw [vmmInit_high image m (by omega)]
    decide

theorem bootSpace_shows (image : PagingImage) (kernelEnd : KernelEnd image) (m : Memory) (a : Word) :
    target (entry (bootSpace image kernelEnd m) a) = identity (a >>> 12) := by
  have page := page_toNat a
  have size : pageSize.toNat = 4096 := rfl
  rw [bootSpace_entry,identity,page]
  by_cases low : a.toNat < 0x1000000
  · have same : BitVec.ofNat 32 (a.toNat / 4096) * pageSize = a &&& 0xFFFFF000 := by
      have mask : ~~~BitVec.ofNat 32 (2^12 - 1) = 0xFFFFF000 := by decide
      have cleared := clearLow_toNat a 12
      rw [mask] at cleared
      apply BitVec.eq_of_toNat_eq
      rw [cleared,BitVec.toNat_mul,BitVec.toNat_ofNat,size]
      omega
    have shifted : (a >>> 12) <<< 12 = a &&& 0xFFFFF000 := by
      rw [← same]
      apply BitVec.eq_of_toNat_eq
      rw [BitVec.toNat_shiftLeft,page,BitVec.toNat_mul,BitVec.toNat_ofNat,size,Nat.shiftLeft_eq]
      omega
    have flags : ptePresent ||| pteWritable = pteWritable ||| ptePresent := by decide
    rw [if_pos low,if_pos (by omega),same,shifted,BitVec.or_assoc,flags]
    exact target_mapped a (by decide)
  · rw [if_neg low,if_neg (by omega)]
    rfl

/-! Whole runs. -/

theorem Separate.step {held : Finset Word} (separate : Separate image kernelEnd s.tables held)
    (moved : Space.Step s op t) : ∃ held', Separate image kernelEnd t.tables held' := by
  cases moved with
  | @map virtualAddr physicalAddr flags small =>
    rcases separate.mapPage_cases virtualAddr physicalAddr flags with ⟨-,same⟩ | ⟨-,separate',-⟩
    · rw [same]
      exact ⟨held,separate⟩
    · exact separate'
  | unmap => exact ⟨held,separate⟩
  | store kept => exact ⟨held,separate⟩

theorem run_separate (run : Run Space.Step (bootSpace image kernelEnd m) past s) :
    ∃ held, Separate image kernelEnd s.tables held := by
  let inv : Space → Prop := fun s => ∃ held, Separate image kernelEnd s.tables held
  have start : inv (bootSpace image kernelEnd m) := ⟨∅,bootSpace_separate image kernelEnd m⟩
  apply run.invariant start
  · rintro s op t ⟨held,separate⟩ moved
    exact separate.step moved

/-- A step and its effect on the map. -/
theorem Separate.shows_step {held : Finset Word} (separate : Separate image kernelEnd s.tables held)
    (shows' : ∀ a, target (entry s a) = map (a >>> 12)) (moved : Space.Step s op t) (a : Word) :
    target (entry t a) = remember map (s,op) (a >>> 12) := by
  cases moved with
  | @map virtualAddr physicalAddr flags small =>
    rcases separate.mapPage_cases virtualAddr physicalAddr flags with ⟨full,same⟩ | ⟨effective,-,entries⟩
    · rw [same,remember,if_neg full,shows']
    · rw [remember,if_pos effective,entries,Function.update_apply]
      split
      · exact target_mapped physicalAddr small
      · exact shows' a
  | @unmap virtualAddr =>
    rw [separate.unmap_entry,remember,Function.update_apply]
    split
    · rfl
    · exact shows' a
  | store kept =>
    rw [entry_congr kept]
    exact shows' a

theorem run_shows (run : Run Space.Step (bootSpace image kernelEnd m) past s) (a : Word) :
    target (entry s a) = addressMap past (a >>> 12) := by
  induction run generalizing a with
  | nil => exact bootSpace_shows image kernelEnd m a
  | @snoc before state next label prior moved ih =>
    obtain ⟨held,separate⟩ := run_separate prior
    rw [addressMap,List.foldl_append]
    exact separate.shows_step ih moved a

theorem translates_of_shows (shows' : ∀ a, target (entry s a) = map (a >>> 12)) (a : Word) :
    vmmGetPhysical s.tables s.mem a = translate map a := by
  rw [vmmGetPhysical_target,shows',translate]

theorem remember_other (map : AddressMap) (s : Space) {page : Word} (other : op.page ≠ some page) :
    remember map (s,op) page = map page := by
  cases op with
  | map virtualAddr physicalAddr flags =>
    have apart : page ≠ virtualAddr >>> 12 := fun same => other (congrArg some same.symm)
    rw [remember]
    split
    · exact Function.update_of_ne apart _ _
    · rfl
  | unmap virtualAddr =>
    have apart : page ≠ virtualAddr >>> 12 := fun same => other (congrArg some same.symm)
    exact Function.update_of_ne apart _ _
  | store m => rfl

/-- The page tables stand for the map of the calls so far. -/
theorem tables_refine (run : Run Space.Step (bootSpace image kernelEnd m) past s) : Refines past s := by
  have reached := run_shows run
  obtain ⟨held,separate⟩ := run_separate run
  constructor
  · exact translates_of_shows reached
  · intro virtualAddr physicalAddr flags full
    rcases separate.mapPage_cases virtualAddr physicalAddr flags with ⟨-,same⟩ | ⟨effective,-⟩
    · exact same
    · exact absurd effective full
  · intro op t moved a other
    rw [translates_of_shows reached,translates_of_shows (separate.shows_step reached moved),translate,
      remember_other _ s other]
    rfl

/-- A device page behind the first 16 MB, with the table that is made for it. -/
theorem tables_refine_device : Refines
    [(bootSpace default ⟨0x500000,by decide⟩ fun _ => 0,.map 0xFEBC0000 0xFEBC0000 3)]
    (mapPage (bootSpace default ⟨0x500000,by decide⟩ fun _ => 0) 0xFEBC0000 0xFEBC0000 3) :=
  tables_refine (Run.single (.map (by decide)))

end Map

end NimrodOS.Paging
