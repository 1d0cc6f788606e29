import Mathlib.Tactic.IntervalCases
import NimrodOS.Lib.Checked
import NimrodOS.Lib.Wire

/-! The table of PCI functions that `drivers/pci.c` fills, with the configuration space as a
device behind its two ports. -/
namespace NimrodOS.Pci

open Wire Checked

structure PciDevice where
  bus : Byte
  slot : Byte
  func : Byte
  vendorId : Half
  deviceId : Half
  classCode : Byte
  subclass : Byte
  progIf : Byte
  revision : Byte
  irqLine : Byte
  bar : Fin 6 → Word

/-- The registers by bus, slot, function and number. -/
abbrev ConfigSpace := BitVec 8 → BitVec 5 → BitVec 3 → BitVec 6 → Word

/-- `PCI_CONFIG_DATA` once an address was written to `PCI_CONFIG_ADDR`. -/
def configData (config : ConfigSpace) (addr : Word) : Word :=
  if addr.getLsbD 31 then config (addr.extractLsb' 16 8) (addr.extractLsb' 11 5) (addr.extractLsb' 8 3)
    (addr.extractLsb' 2 6)
  else 0xFFFFFFFF

def configAddr (bus slot func offset : Byte) : Word :=
  1 <<< 31 ||| bus.setWidth 32 <<< 16 ||| slot.setWidth 32 <<< 11 ||| func.setWidth 32 <<< 8 |||
    (offset &&& 0xFC).setWidth 32

def pciRead32 (config : ConfigSpace) (bus slot func offset : Byte) : Word :=
  configData config (configAddr bus slot func offset)

structure Table where
  devices : Fin 32 → PciDevice
  numDevices : Int

/-- The entry for a function, each field from a read of its own. -/
def readDevice (config : ConfigSpace) (bus slot func : Byte) : PciDevice :=
  let reg0 := pciRead32 config bus slot func 0x00
  let reg2 := pciRead32 config bus slot func 0x08
  let reg3c := pciRead32 config bus slot func 0x3C
  { bus := bus
    slot := slot
    func := func
    vendorId := (reg0 &&& 0xFFFF).setWidth 16
    deviceId := (reg0 >>> 16 &&& 0xFFFF).setWidth 16
    revision := (reg2 &&& 0xFF).setWidth 8
    progIf := (reg2 >>> 8 &&& 0xFF).setWidth 8
    subclass := (reg2 >>> 16 &&& 0xFF).setWidth 8
    classCode := (reg2 >>> 24 &&& 0xFF).setWidth 8
    irqLine := (reg3c &&& 0xFF).setWidth 8
    bar := fun i => pciRead32 config bus slot func (0x10 + BitVec.ofNat 8 (i * 4)) }

def pciScanDevice (config : ConfigSpace) (t : Table) (bus slot func : Byte) : Except OutOfRange Table :=
  let vendor : Half := (pciRead32 config bus slot func 0x00 &&& 0xFFFF).setWidth 16
  if vendor = 0xFFFF then return t
  else if t.numDevices ≥ 32 then return t
  else do
    let devices ← Checked.set t.devices t.numDevices (readDevice config bus slot func)
    return ⟨devices,t.numDevices + 1⟩

/-- The body of the loops in `pci_init`. -/
def scanSlot (config : ConfigSpace) (t : Table) (bus slot : Byte) : Except OutOfRange Table :=
  if pciRead32 config bus slot 0 0x00 &&& 0xFFFF = 0xFFFF then return t
  else do
    let t ← pciScanDevice config t bus slot 0
    let header := pciRead32 config bus slot 0 0x0C
    if header >>> 16 &&& 0x80 ≠ 0 then
      (List.range' 1 7).foldlM (fun t (func : Nat) => pciScanDevice config t bus slot (BitVec.ofNat 8 func)) t
    else return t

def pciInit (config : ConfigSpace) (t : Table) : Except OutOfRange Table :=
  (List.range 256).foldlM (fun t (bus : Nat) =>
    (List.range 32).foldlM (fun t (slot : Nat) =>
      scanSlot config t (BitVec.ofNat 8 bus) (BitVec.ofNat 8 slot)) t) {t with numDevices := 0}

/-! The functions on the buses. -/

structure PciFunction where
  bus : BitVec 8
  slot : BitVec 5
  func : BitVec 3

/-- The place in the order by bus, slot and function. -/
def PciFunction.number (f : PciFunction) : Nat := f.bus.toNat * 256 + f.slot.toNat * 8 + f.func.toNat

/-! The functions of one slot, of one bus and of all. -/

def place (bus slot func : Nat) : PciFunction := ⟨BitVec.ofNat 8 bus,BitVec.ofNat 5 slot,BitVec.ofNat 3 func⟩

def slotFunctions (bus slot : Nat) : List PciFunction := (List.range 8).map (place bus slot)

def busFunctions (bus : Nat) : List PciFunction := (List.range 32).flatMap (slotFunctions bus)

def allFunctions : List PciFunction := (List.range 256).flatMap busFunctions

def register (config : ConfigSpace) (f : PciFunction) (n : BitVec 6) : Word := config f.bus f.slot f.func n

/-- A vendor's number stands in the first register. -/
def Answers (config : ConfigSpace) (f : PciFunction) : Prop := (register config f 0).extractLsb' 0 16 ≠ 0xFFFF

/-- The header type is the third byte of its register, with the bit on top. -/
def MultiFunction (config : ConfigSpace) (f : PciFunction) : Prop :=
  ((register config f 3).extractLsb' 16 8).getLsbD 7 = true

/-- It answers, and where it is not the first one of its slot that one shows it. -/
def Present (config : ConfigSpace) (f : PciFunction) : Prop :=
  Answers config f ∧ (f.func = 0 ∨ Answers config {f with func := 0} ∧ MultiFunction config {f with func := 0})

instance (config : ConfigSpace) (f : PciFunction) : Decidable (Answers config f) :=
  inferInstanceAs (Decidable (_ ≠ _))

instance (config : ConfigSpace) (f : PciFunction) : Decidable (MultiFunction config f) :=
  inferInstanceAs (Decidable (_ = _))

instance (config : ConfigSpace) (f : PciFunction) : Decidable (Present config f) :=
  inferInstanceAs (Decidable (_ ∧ _))

def functionsOf (config : ConfigSpace) : List PciFunction := allFunctions.filter fun f => Present config f

/-- An entry as the function's own registers have it. -/
def decode (config : ConfigSpace) (f : PciFunction) : PciDevice where
  bus := f.bus
  slot := f.slot.setWidth 8
  func := f.func.setWidth 8
  vendorId := (register config f 0).extractLsb' 0 16
  deviceId := (register config f 0).extractLsb' 16 16
  revision := (register config f 2).extractLsb' 0 8
  progIf := (register config f 2).extractLsb' 8 8
  subclass := (register config f 2).extractLsb' 16 8
  classCode := (register config f 2).extractLsb' 24 8
  irqLine := (register config f 15).extractLsb' 0 8
  bar := fun i => register config f (4 + BitVec.ofNat 6 i)

variable {config : ConfigSpace} {t : Table} {l : List PciDevice} {f : PciFunction} {bus slot func : Nat}

/-! One register. -/

section Address

variable (bus : BitVec 8) (slot : BitVec 5) (func : BitVec 3) (offset : Byte)

theorem configAddr_enabled : (configAddr bus (slot.setWidth 8) (func.setWidth 8) offset).getLsbD 31 = true := by
  simp [configAddr]

theorem configAddr_bus :
    (configAddr bus (slot.setWidth 8) (func.setWidth 8) offset).extractLsb' 16 8 = bus := by
  apply BitVec.eq_of_getLsbD_eq
  intro i inside
  simp only [configAddr]
  interval_cases i <;> simp

theorem configAddr_slot :
    (configAddr bus (slot.setWidth 8) (func.setWidth 8) offset).extractLsb' 11 5 = slot := by
  apply BitVec.eq_of_getLsbD_eq
  intro i inside
  simp only [configAddr]
  interval_cases i <;> simp

theorem configAddr_func :
    (configAddr bus (slot.setWidth 8) (func.setWidth 8) offset).extractLsb' 8 3 = func := by
  apply BitVec.eq_of_getLsbD_eq
  intro i inside
  simp only [configAddr]
  interval_cases i <;> simp

theorem configAddr_register : (configAddr bus (slot.setWidth 8) (func.setWidth 8) offset).extractLsb' 2 6 =
    offset.extractLsb' 2 6 := by
  apply BitVec.eq_of_getLsbD_eq
  intro i inside
  simp only [configAddr]
  interval_cases i <;> simp

/-- The packed address names bus, slot, function and register, and no other ones. -/
theorem pciRead32_eq (config : ConfigSpace) : pciRead32 config bus (slot.setWidth 8) (func.setWidth 8) offset =
    config bus slot func (offset.extractLsb' 2 6) := by
  rw [pciRead32,configData,if_pos (configAddr_enabled ..),configAddr_bus,configAddr_slot,
    configAddr_func,configAddr_register]

end Address

/-- The four bytes of a register read at any of its offsets. -/
theorem pciRead32_register (config : ConfigSpace) (f : PciFunction) (offset : Byte) :
    pciRead32 config f.bus (f.slot.setWidth 8) (f.func.setWidth 8) offset =
      register config f (offset.extractLsb' 2 6) := pciRead32_eq ..

/-! A shift and a mask select bytes of a register. -/

theorem low_half (w : Word) : (w &&& 0xFFFF).setWidth 16 = w.extractLsb' 0 16 := by
  apply BitVec.eq_of_getLsbD_eq
  intro i inside
  interval_cases i <;> simp

theorem low_byte (w : Word) : (w &&& 0xFF).setWidth 8 = w.extractLsb' 0 8 := by
  apply BitVec.eq_of_getLsbD_eq
  intro i inside
  interval_cases i <;> simp

theorem low_ones (w : Word) : w &&& 0xFFFF = 0xFFFF ↔ w.extractLsb' 0 16 = 0xFFFF := by
  rw [← low_half]
  constructor
  · intro ones
    rw [ones]
    rfl
  · intro ones
    have small : (w &&& 0xFFFF).toNat < 2^16 := by
      rw [BitVec.toNat_and]
      exact Nat.lt_of_le_of_lt Nat.and_le_right (by decide)
    have number := congrArg BitVec.toNat ones
    rw [BitVec.toNat_setWidth,Nat.mod_eq_of_lt small] at number
    exact BitVec.eq_of_toNat_eq number

theorem header_bit (w : Word) : w >>> 16 &&& 0x80 ≠ 0 ↔ (w.extractLsb' 16 8).getLsbD 7 = true := by
  have power : (0x80 : Word) = BitVec.twoPow 32 7 := by decide
  have nonzero : BitVec.twoPow 32 7 ≠ 0 := by decide
  have bit : (w >>> 16).getLsbD 7 = (w.extractLsb' 16 8).getLsbD 7 := by simp
  rw [power,BitVec.and_twoPow,bit]
  by_cases on : (w.extractLsb' 16 8).getLsbD 7 = true
  · rw [if_pos on]
    exact iff_of_true nonzero on
  · rw [if_neg on]
    exact iff_of_false (fun other => other rfl) on

/-! One function. -/

theorem first_register (config : ConfigSpace) (f : PciFunction) :
    pciRead32 config f.bus (f.slot.setWidth 8) (f.func.setWidth 8) 0 = register config f 0 :=
  pciRead32_register ..

theorem readDevice_eq (config : ConfigSpace) (f : PciFunction) :
    readDevice config f.bus (f.slot.setWidth 8) (f.func.setWidth 8) = decode config f := by
  have bars : ∀ i : Fin 6, (0x10 + BitVec.ofNat 8 (i * 4)).extractLsb' 2 6 = 4 + BitVec.ofNat 6 i := by
    decide
  simp only [readDevice,pciRead32_register,low_half,low_byte,bars]
  rfl

/-- The first entries of the table. -/
structure Holds (t : Table) (l : List PciDevice) : Prop where
  count : t.numDevices = l.length
  room : l.length ≤ 32
  entries : ∀ i (inside : i < l.length), t.devices ⟨i,inside.trans_le room⟩ = l[i]

/-- What a scan of the function adds. -/
def entriesOf (config : ConfigSpace) (f : PciFunction) : List PciDevice :=
  if Answers config f then [decode config f] else []

theorem Holds.push (holds : Holds t l) (room : l.length < 32) (d : PciDevice) :
    ∃ devices, Checked.set t.devices t.numDevices d = .ok devices ∧
      Holds ⟨devices,t.numDevices + 1⟩ (l ++ [d]) := by
  have count := holds.count
  refine ⟨_,set_at (j := ⟨l.length,room⟩) count,?_,?_,?_⟩
  · show t.numDevices + 1 = ((l ++ [d]).length : Int)
    rw [List.length_append,count]
    rfl
  · rw [List.length_append]
    exact room
  · intro i inside
    rw [List.length_append,List.length_singleton] at inside
    by_cases before : i < l.length
    · have apart : (⟨i,by omega⟩ : Fin 32) ≠ ⟨l.length,room⟩ := fun same =>
        before.ne (congrArg Fin.val same)
      rw [List.getElem_append_left before]
      exact (Function.update_of_ne apart ..).trans (holds.entries i before)
    · obtain rfl : i = l.length := by omega
      simp

theorem pciScanDevice_holds (config : ConfigSpace) (holds : Holds t (l.take 32)) (f : PciFunction) :
    ∃ t', pciScanDevice config t f.bus (f.slot.setWidth 8) (f.func.setWidth 8) = .ok t' ∧
      Holds t' ((l ++ entriesOf config f).take 32) := by
  have count := holds.count
  rw [List.length_take] at count
  rw [pciScanDevice,entriesOf,first_register,low_half]
  by_cases answers : Answers config f
  · rw [if_neg answers,if_pos answers]
    by_cases full : 32 ≤ l.length
    · have many : t.numDevices ≥ 32 := by omega
      rw [if_pos many,List.take_append_of_le_length full]
      exact ⟨t,rfl,holds⟩
    · have few : ¬t.numDevices ≥ 32 := by omega
      rw [List.take_of_length_le (by omega)] at holds
      obtain ⟨devices,done,pushed⟩ := holds.push (Nat.lt_of_not_le full) (decode config f)
      have whole : (l ++ [decode config f]).take 32 = l ++ [decode config f] := by
        apply List.take_of_length_le
        rw [List.length_append,List.length_singleton]
        omega
      rw [if_neg few,readDevice_eq,done,whole]
      exact ⟨_,rfl,pushed⟩
  · have none : (register config f 0).extractLsb' 0 16 = 0xFFFF := not_not.mp answers
    rw [if_neg answers,List.append_nil]
    exact ⟨t,if_pos none,holds⟩

/-- What is found in the parts of a loop is found one after the other. -/
theorem foldlM_holds {items : List Nat} {scan : Table → Nat → Except OutOfRange Table}
    {found : Nat → List PciDevice}
    (each : ∀ t l, ∀ i ∈ items, Holds t (l.take 32) →
      ∃ t', scan t i = .ok t' ∧ Holds t' ((l ++ found i).take 32))
    (holds : Holds t (l.take 32)) :
    ∃ t', items.foldlM scan t = .ok t' ∧ Holds t' ((l ++ items.flatMap found).take 32) := by
  induction items generalizing t l with
  | nil =>
    rw [List.flatMap_nil,List.append_nil]
    exact ⟨t,rfl,holds⟩
  | cons i items ih =>
    obtain ⟨next,scanned,holds'⟩ := each t l i List.mem_cons_self holds
    obtain ⟨last,done,final⟩ := ih (fun t l j member => each t l j (List.mem_cons_of_mem i member)) holds'
    rw [List.foldlM_cons,scanned,List.flatMap_cons,← List.append_assoc]
    exact ⟨last,done,final⟩

/-! The slots. -/

def entries (config : ConfigSpace) (functions : List PciFunction) : List PciDevice :=
  (functions.filter fun f => Present config f).map (decode config)

theorem slot_byte (small : slot < 32) : BitVec.ofNat 8 slot = (BitVec.ofNat 5 slot).setWidth 8 := by
  apply BitVec.eq_of_toNat_eq
  rw [BitVec.toNat_setWidth,BitVec.toNat_ofNat,BitVec.toNat_ofNat]
  omega

theorem func_byte (small : func < 8) : BitVec.ofNat 8 func = (BitVec.ofNat 3 func).setWidth 8 := by
  apply BitVec.eq_of_toNat_eq
  rw [BitVec.toNat_setWidth,BitVec.toNat_ofNat,BitVec.toNat_ofNat]
  omega

theorem present_first : Present config (place bus slot 0) ↔ Answers config (place bus slot 0) :=
  and_iff_left (.inl rfl)

theorem present_later (config : ConfigSpace) (bus slot : Nat) {func : Nat} (later : 1 ≤ func ∧ func < 8) :
    Present config (place bus slot func) ↔
    Answers config (place bus slot func) ∧ Answers config (place bus slot 0) ∧
      MultiFunction config (place bus slot 0) := by
  have other : (place bus slot func).func ≠ 0 := by
    intro same
    have number := congrArg BitVec.toNat same
    have zero : (0 : BitVec 3).toNat = 0 := rfl
    simp only [place,BitVec.toNat_ofNat,zero] at number
    omega
  refine and_congr_right fun _ => ?_
  exact or_iff_right other

/-- The scan over functions 1 to 7 finds those that are present. -/
theorem entries_later {funcs : List Nat} (later : ∀ func ∈ funcs, 1 ≤ func ∧ func < 8)
    (first : Answers config (place bus slot 0)) (multi : MultiFunction config (place bus slot 0)) :
    entries config (funcs.map (place bus slot)) =
      funcs.flatMap fun func => entriesOf config (place bus slot func) := by
  induction funcs with
  | nil => rfl
  | cons func funcs ih =>
    rw [List.forall_mem_cons] at later
    have here := present_later config bus slot later.1
    rw [List.flatMap_cons,← ih later.2,entriesOf,entries,List.map_cons,List.filter_cons]
    by_cases answers : Answers config (place bus slot func)
    · rw [if_pos answers,if_pos (decide_eq_true (here.mpr ⟨answers,first,multi⟩))]
      rfl
    · have absent : ¬Present config (place bus slot func) := fun present => answers (here.mp present).1
      rw [if_neg answers,if_neg (by simpa using absent)]
      rfl

/-- Where the first function does not call for it, no other one is present. -/
theorem entries_none {funcs : List Nat} (later : ∀ func ∈ funcs, 1 ≤ func ∧ func < 8)
    (single : ¬(Answers config (place bus slot 0) ∧ MultiFunction config (place bus slot 0))) :
    entries config (funcs.map (place bus slot)) = [] := by
  rw [entries,List.map_eq_nil_iff,List.filter_eq_nil_iff]
  intro f member
  obtain ⟨func,inside,rfl⟩ := List.mem_map.mp member
  simpa using fun present => single ((present_later _ _ _ (later func inside)).mp present).2

/-- The first function and the others of its slot. -/
theorem entries_slot (config : ConfigSpace) (bus slot : Nat) : entries config (slotFunctions bus slot) =
    entriesOf config (place bus slot 0) ++ entries config ((List.range' 1 7).map (place bus slot)) := by
  have parts : slotFunctions bus slot = place bus slot 0 :: (List.range' 1 7).map (place bus slot) := rfl
  rw [parts,entries,List.filter_cons,entriesOf]
  by_cases answers : Answers config (place bus slot 0)
  · rw [if_pos answers,if_pos (decide_eq_true (present_first.mpr answers))]
    rfl
  · have absent : ¬Present config (place bus slot 0) := fun present => answers (present_first.mp present)
    rw [if_neg answers,if_neg (by simpa using absent)]
    rfl

theorem scanSlot_holds (small : slot < 32) (holds : Holds t (l.take 32)) :
    ∃ t', scanSlot config t (BitVec.ofNat 8 bus) (BitVec.ofNat 8 slot) = .ok t' ∧
      Holds t' ((l ++ entries config (slotFunctions bus slot)).take 32) := by
  have later : ∀ func ∈ List.range' 1 7, 1 ≤ func ∧ func < 8 := by
    intro func member
    rw [List.mem_range'_1] at member
    omega
  have reads (offset : Byte) : pciRead32 config (BitVec.ofNat 8 bus) ((BitVec.ofNat 5 slot).setWidth 8) 0 offset =
      register config (place bus slot 0) (offset.extractLsb' 2 6) :=
    pciRead32_register config (place bus slot 0) offset
  have vendor : register config (place bus slot 0) ((0x00 : Byte).extractLsb' 2 6) &&& 0xFFFF = 0xFFFF ↔
      ¬Answers config (place bus slot 0) := (low_ones _).trans not_not.symm
  have header : register config (place bus slot 0) ((0x0C : Byte).extractLsb' 2 6) >>> 16 &&& 0x80 ≠ 0 ↔
      MultiFunction config (place bus slot 0) := header_bit _
  rw [scanSlot,slot_byte small,reads,reads,entries_slot]
  simp only [vendor,header]
  by_cases answers : Answers config (place bus slot 0)
  · obtain ⟨first,scanned,holds'⟩ := pciScanDevice_holds config holds (place bus slot 0)
    have scanned' : pciScanDevice config t (BitVec.ofNat 8 bus) ((BitVec.ofNat 5 slot).setWidth 8) 0 = .ok first :=
      scanned
    rw [if_neg (not_not.mpr answers),scanned']
    by_cases multi : MultiFunction config (place bus slot 0)
    · have each : ∀ t l, ∀ func ∈ List.range' 1 7, Holds t (l.take 32) → ∃ t',
          pciScanDevice config t (BitVec.ofNat 8 bus) ((BitVec.ofNat 5 slot).setWidth 8) (BitVec.ofNat 8 func) =
            .ok t' ∧ Holds t' ((l ++ entriesOf config (place bus slot func)).take 32) := by
        intro t l func member holds
        rw [func_byte (later func member).2]
        exact pciScanDevice_holds config holds (place bus slot func)
      rw [entries_later later answers multi,← List.append_assoc]
      obtain ⟨last,done,final⟩ := foldlM_holds each holds'
      refine ⟨last,?_,final⟩
      simp only [bind,Except.bind,if_pos multi,done]
    · rw [entries_none later fun both => multi both.2,List.append_nil]
      refine ⟨first,?_,holds'⟩
      simp only [bind,Except.bind,if_neg multi,pure,Except.pure]
  · rw [if_pos answers,entries_none later fun both => answers both.1,entriesOf,if_neg answers]
    simp only [List.append_nil]
    exact ⟨t,rfl,holds⟩

theorem entries_flatMap {items : List Nat} (functions : Nat → List PciFunction) :
    entries config (items.flatMap functions) = items.flatMap fun i => entries config (functions i) := by
  rw [entries,List.filter_flatMap,List.map_flatMap]
  rfl

theorem pciInit_holds (config : ConfigSpace) (t : Table) :
    ∃ t', pciInit config t = .ok t' ∧ Holds t' ((entries config allFunctions).take 32) := by
  have empty : Holds {t with numDevices := 0} (([] : List PciDevice).take 32) := ⟨rfl,by decide,nofun⟩
  have busEach : ∀ t l, ∀ bus ∈ List.range 256, Holds t (l.take 32) → ∃ t',
      (List.range 32).foldlM (fun t (slot : Nat) =>
        scanSlot config t (BitVec.ofNat 8 bus) (BitVec.ofNat 8 slot)) t = .ok t' ∧
        Holds t' ((l ++ entries config (busFunctions bus)).take 32) := by
    intro t l bus _ holds
    rw [busFunctions,entries_flatMap]
    refine foldlM_holds (fun t l slot member holds => ?_) holds
    exact scanSlot_holds (List.mem_range.mp member) holds
  obtain ⟨t',done,holds⟩ := foldlM_holds busEach empty
  rw [List.nil_append,← entries_flatMap] at holds
  exact ⟨t',done,holds⟩

/-! The list of all functions. -/

theorem place_number (busSmall : bus < 256) (slotSmall : slot < 32) (funcSmall : func < 8) :
    (place bus slot func).number = bus * 256 + slot * 8 + func := by
  simp only [place,PciFunction.number,BitVec.toNat_ofNat]
  omega

theorem mem_slotFunctions : f ∈ slotFunctions bus slot ↔ ∃ func < 8, place bus slot func = f := by
  simp [slotFunctions]

theorem mem_busFunctions : f ∈ busFunctions bus ↔ ∃ slot < 32, ∃ func < 8, place bus slot func = f := by
  simp [busFunctions,mem_slotFunctions]

theorem mem_allFunctions (f : PciFunction) : f ∈ allFunctions := by
  rw [allFunctions,List.mem_flatMap]
  refine ⟨f.bus.toNat,List.mem_range.mpr f.bus.isLt,mem_busFunctions.mpr ?_⟩
  refine ⟨f.slot.toNat,f.slot.isLt,f.func.toNat,f.func.isLt,?_⟩
  simp [place]

theorem slotFunctions_ordered (busSmall : bus < 256) (slotSmall : slot < 32) :
    (slotFunctions bus slot).Pairwise fun f g => f.number < g.number := by
  rw [slotFunctions,List.pairwise_map]
  refine List.Pairwise.imp_of_mem (fun before after lt => ?_) List.pairwise_lt_range
  rw [place_number busSmall slotSmall (List.mem_range.mp before),
    place_number busSmall slotSmall (List.mem_range.mp after)]
  omega

theorem busFunctions_ordered (busSmall : bus < 256) :
    (busFunctions bus).Pairwise fun f g => f.number < g.number := by
  rw [busFunctions,List.pairwise_flatMap]
  constructor
  · intro slot member
    exact slotFunctions_ordered busSmall (List.mem_range.mp member)
  · refine List.Pairwise.imp_of_mem (fun before after lt f inF g inG => ?_) List.pairwise_lt_range
    obtain ⟨func,small,rfl⟩ := mem_slotFunctions.mp inF
    obtain ⟨func',small',rfl⟩ := mem_slotFunctions.mp inG
    rw [place_number busSmall (List.mem_range.mp before) small,
      place_number busSmall (List.mem_range.mp after) small']
    omega

/-- By bus, slot and function. -/
theorem allFunctions_ordered : allFunctions.Pairwise fun f g => f.number < g.number := by
  rw [allFunctions,List.pairwise_flatMap]
  constructor
  · intro bus member
    exact busFunctions_ordered (List.mem_range.mp member)
  · refine List.Pairwise.imp_of_mem (fun before after lt f inF g inG => ?_) List.pairwise_lt_range
    obtain ⟨slot,slotSmall,func,small,rfl⟩ := mem_busFunctions.mp inF
    obtain ⟨slot',slotSmall',func',small',rfl⟩ := mem_busFunctions.mp inG
    rw [place_number (List.mem_range.mp before) slotSmall small,
      place_number (List.mem_range.mp after) slotSmall' small']
    omega

/-- Whatever the registers hold, the table has the first 32 of the functions that are present, in
the order of bus, slot and function, each with what its own registers hold. -/
theorem devices_enumerated (config : ConfigSpace) (t : Table) : ∃ t', pciInit config t = .ok t' ∧
    t'.numDevices = (min 32 (functionsOf config).length : Nat) ∧
    (∀ i (inside : i < 32) (there : i < (functionsOf config).length),
      t'.devices ⟨i,inside⟩ = decode config (functionsOf config)[i]) ∧
    (functionsOf config).Pairwise (fun f g => f.number < g.number) ∧
    ∀ f, f ∈ functionsOf config ↔ Present config f := by
  obtain ⟨t',done,holds⟩ := pciInit_holds config t
  have found : entries config allFunctions = (functionsOf config).map (decode config) := rfl
  rw [found] at holds
  refine ⟨t',done,?_,?_,allFunctions_ordered.filter _,?_⟩
  · rw [holds.count,List.length_take,List.length_map]
  · intro i inside there
    have entry := holds.entries i (by simpa using ⟨inside,there⟩)
    rw [List.getElem_take,List.getElem_map] at entry
    exact entry
  · intro f
    simp [functionsOf,mem_allFunctions]

end NimrodOS.Pci
