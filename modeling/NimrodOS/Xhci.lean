import NimrodOS.PagingMmio
import NimrodOS.Pci

/-! The walk over the extended capabilities of an xHCI controller, `xhci_preserve_legacy` of
`drivers/usb_kbd.c`. -/
namespace NimrodOS.Xhci

open Paging Pci

def biosOwned : Word := 1 <<< 16

/-- What `vmm_map_mmio` is asked for. -/
def windowSize : Word := 0x2000

/-- The registers that were read, with the value that `legacy_preserved` gets. -/
structure Walk where
  reads : List Word
  legacyPreserved : Bool
  deriving DecidableEq

def capId (extVal : Word) : Byte := extVal.setWidth 8

def nextField (extVal : Word) : Byte := (extVal >>> 8).setWidth 8

/-- `while (ext_offset > 0)`, if it ends within so many rounds. -/
def walk (regs : Word → Word) (bar0 : Word) (preserved : Bool) : Nat → Word → Option Walk
  | rounds,extOffset =>
    if extOffset > 0 then
      match rounds with
      | 0 => none
      | rounds + 1 =>
        let extVal := regs (bar0 + extOffset)
        if capId extVal = 1 then
          some ⟨[bar0 + extOffset],preserved || extVal &&& biosOwned ≠ 0⟩
        else if nextField extVal = 0 then some ⟨[bar0 + extOffset],preserved⟩
        else (walk regs bar0 preserved rounds (extOffset + (nextField extVal).setWidth 32 <<< 2)).map
          fun w => {w with reads := (bar0 + extOffset) :: w.reads}
    else some ⟨[],preserved⟩

def xhciBar (dev : PciDevice) : Word := dev.bar 0 &&& ~~~0xF

/-- Where the list of capabilities begins. -/
def headOffset (regs : Word → Word) (bar0 : Word) : Word := (regs (bar0 + 0x10) >>> 16 &&& 0xFFFF) <<< 2

def xhciPreserveLegacy (regs : Word → Word) (dev : PciDevice) (preserved : Bool) (rounds : Nat) :
    Option Walk :=
  let bar0 := xhciBar dev
  if bar0 = 0 then some ⟨[],preserved⟩
  else (walk regs bar0 preserved rounds (headOffset regs bar0)).map
    fun w => {w with reads := (bar0 + 0x10) :: w.reads}

/-- All four bytes lie inside of the window. -/
def InWindow (bar0 a : Word) : Prop :=
  bar0.toNat ≤ a.toNat ∧ a.toNat + 4 ≤ bar0.toNat + windowSize.toNat

instance (bar0 a : Word) : Decidable (InWindow bar0 a) := inferInstanceAs (Decidable (_ ∧ _))

/-- The walk ends, and it has read nothing outside. -/
def Safe (regs : Word → Word) (dev : PciDevice) (preserved : Bool) : Prop := ∃ rounds w,
  xhciPreserveLegacy regs dev preserved rounds = some w ∧ ∀ a ∈ w.reads, InWindow (xhciBar dev) a

/-! The list of capabilities, with its offsets as natural numbers. -/

def capability (regs : Word → Word) (bar0 : Word) (o : Nat) : Word := regs (bar0 + BitVec.ofNat 32 o)

/-- The walk does not go on behind this one. -/
def IsLast (extVal : Word) : Prop := capId extVal = 1 ∨ nextField extVal = 0

def Link (regs : Word → Word) (bar0 : Word) (o p : Nat) : Prop :=
  ¬IsLast (capability regs bar0 o) ∧ p = o + 4 * (nextField (capability regs bar0 o)).toNat

/-- There is a last capability, and it stands inside of the window and below the end of memory. -/
def EndsInside (regs : Word → Word) (bar0 : Word) (first : Nat) : Prop := ∃ last,
  Relation.ReflTransGen (Link regs bar0) first last ∧ IsLast (capability regs bar0 last) ∧
    last + 4 ≤ windowSize.toNat ∧ bar0.toNat + last < 2^32

variable {regs : Word → Word} {bar0 : Word} {preserved : Bool} {o p : Nat}

theorem inWindow_iff (bar0 offset : Word) : InWindow bar0 (bar0 + offset) ↔
    bar0.toNat + offset.toNat < 2^32 ∧ offset.toNat + 4 ≤ windowSize.toNat := by
  have window : windowSize.toNat = 0x2000 := rfl
  have low := bar0.isLt
  have sum := BitVec.toNat_add bar0 offset
  unfold InWindow
  omega

theorem inWindow_offset (small : o < 2^32) : InWindow bar0 (bar0 + BitVec.ofNat 32 o) ↔
    bar0.toNat + o < 2^32 ∧ o + 4 ≤ windowSize.toNat := by
  have same : (BitVec.ofNat 32 o).toNat = o := Nat.mod_eq_of_lt small
  rw [inWindow_iff,same]

/-! One round. -/

theorem offset_positive (positive : 0 < o) (small : o < 2^32) : BitVec.ofNat 32 o > 0 := by
  have same : (BitVec.ofNat 32 o).toNat = o := Nat.mod_eq_of_lt small
  exact BitVec.lt_def.mpr (by rw [same]; exact positive)

theorem walk_last (preserved : Bool) (positive : BitVec.ofNat 32 o > 0) (last : IsLast (capability regs bar0 o))
    (rounds : Nat) : ∃ after, walk regs bar0 preserved (rounds + 1) (BitVec.ofNat 32 o) =
      some ⟨[bar0 + BitVec.ofNat 32 o],after⟩ := by
  rw [walk,if_pos positive]
  by_cases legacy : capId (regs (bar0 + BitVec.ofNat 32 o)) = 1
  · exact ⟨_,if_pos legacy⟩
  · exact ⟨_,(if_neg legacy).trans (if_pos (last.resolve_left legacy))⟩

theorem walk_link (positive : BitVec.ofNat 32 o > 0) (link : Link regs bar0 o p) (rounds : Nat) :
    walk regs bar0 preserved (rounds + 1) (BitVec.ofNat 32 o) =
      (walk regs bar0 preserved rounds (BitVec.ofNat 32 p)).map
        fun w => {w with reads := (bar0 + BitVec.ofNat 32 o) :: w.reads} := by
  obtain ⟨more,rfl⟩ := link
  have next (b : Byte) : BitVec.ofNat 32 o + b.setWidth 32 <<< 2 = BitVec.ofNat 32 (o + 4 * b.toNat) := by
    have wide : (b.setWidth 32).toNat = b.toNat := BitVec.toNat_setWidth_of_le (by decide)
    apply BitVec.eq_of_toNat_eq
    rw [BitVec.toNat_add,BitVec.toNat_shiftLeft,wide,Nat.shiftLeft_eq,BitVec.toNat_ofNat,
      BitVec.toNat_ofNat]
    omega
  rw [walk,if_pos positive,← next]
  exact (if_neg fun legacy => more (.inl legacy)).trans (if_neg fun none => more (.inr none))

theorem link_longer (link : Link regs bar0 o p) : o < p := by
  obtain ⟨more,rfl⟩ := link
  have nonzero : (nextField (capability regs bar0 o)).toNat ≠ 0 := fun zero =>
    more (.inr (BitVec.eq_of_toNat_eq zero))
  omega

theorem path_le (path : Relation.ReflTransGen (Link regs bar0) o p) : o ≤ p := by
  induction path with
  | refl => exact le_rfl
  | tail _ link ih => exact ih.trans (link_longer link).le

/-- A walk that has stayed inside has come to the last capability there. -/
theorem walk_endsInside {rounds : Nat} {w : Walk} (positive : 0 < o) (small : o < 2^32)
    (ended : walk regs bar0 preserved rounds (BitVec.ofNat 32 o) = some w)
    (inside : ∀ a ∈ w.reads, InWindow bar0 a) : EndsInside regs bar0 o := by
  induction rounds generalizing o w with
  | zero =>
    rw [walk,if_pos (offset_positive positive small)] at ended
    cases ended
  | succ rounds ih =>
    have nonzero := offset_positive positive small
    by_cases last : IsLast (capability regs bar0 o)
    · obtain ⟨after,same⟩ := walk_last preserved nonzero last rounds
      obtain rfl := Option.some.inj (same.symm.trans ended)
      obtain ⟨below,room⟩ := (inWindow_offset small).mp (inside _ List.mem_cons_self)
      exact ⟨o,.refl,last,room,below⟩
    · have link : Link regs bar0 o _ := ⟨last,rfl⟩
      rw [walk_link nonzero link,Option.map_eq_some_iff] at ended
      obtain ⟨rest,went,rfl⟩ := ended
      obtain ⟨below,room⟩ := (inWindow_offset small).mp (inside _ List.mem_cons_self)
      have window : windowSize.toNat = 0x2000 := rfl
      have step := (nextField (capability regs bar0 o)).isLt
      obtain ⟨end',path,ends⟩ := ih (by omega) (by omega) went fun a member =>
        inside a (List.mem_cons_of_mem _ member)
      exact ⟨end',.head link path,ends⟩

/-- Up to a last capability in the window the offsets grow, so that the walk stays inside. -/
theorem EndsInside.walked (ends : EndsInside regs bar0 o) (positive : 0 < o) (preserved : Bool) :
    ∃ rounds w, walk regs bar0 preserved rounds (BitVec.ofNat 32 o) = some w ∧
      ∀ a ∈ w.reads, InWindow bar0 a := by
  obtain ⟨last,path,stops,room,below⟩ := ends
  have window : windowSize.toNat = 0x2000 := rfl
  induction path using Relation.ReflTransGen.head_induction_on with
  | refl =>
    obtain ⟨after,same⟩ := walk_last preserved (offset_positive positive (by omega)) stops 0
    refine ⟨1,_,same,fun a member => ?_⟩
    rw [List.mem_singleton.mp member]
    exact (inWindow_offset (by omega)).mpr ⟨below,room⟩
  | @head o p link path ih =>
    have before := path_le path
    have longer := link_longer link
    obtain ⟨rounds,w,went,inside⟩ := ih (by omega)
    refine ⟨rounds + 1,{w with reads := (bar0 + BitVec.ofNat 32 o) :: w.reads},?_,?_⟩
    · rw [walk_link (offset_positive positive (by omega)) link,went]
      rfl
    · rintro a (_ | ⟨_,member⟩)
      · exact (inWindow_offset (by omega)).mpr ⟨by omega,by omega⟩
      · exact inside a member

/-- Nothing outside of the window is read, and the walk ends, where there is nothing to read, the
list is empty, or its last capability stands inside. -/
theorem xhci_safe_iff (regs : Word → Word) (dev : PciDevice) (preserved : Bool) :
    Safe regs dev preserved ↔ xhciBar dev = 0 ∨ (xhciBar dev).toNat + 0x10 < 2^32 ∧
      (headOffset regs (xhciBar dev) = 0 ∨
        EndsInside regs (xhciBar dev) (headOffset regs (xhciBar dev)).toNat) := by
  unfold Safe xhciPreserveLegacy
  generalize xhciBar dev = bar0
  by_cases none : bar0 = 0
  · simp [none]
  · generalize offset : headOffset regs bar0 = head
    have same : BitVec.ofNat 32 head.toNat = head := by simp
    have parameters : InWindow bar0 (bar0 + 0x10) ↔ bar0.toNat + 0x10 < 2^32 :=
      (inWindow_iff bar0 0x10).trans (and_iff_left (by decide))
    simp only [none,offset,false_or,if_false]
    constructor
    · rintro ⟨rounds,w,ended,inside⟩
      obtain ⟨rest,went,rfl⟩ := Option.map_eq_some_iff.mp ended
      refine ⟨parameters.mp (inside _ List.mem_cons_self),?_⟩
      by_cases empty : head = 0
      · exact .inl empty
      · have positive : 0 < head.toNat := Nat.pos_of_ne_zero fun zero => empty (BitVec.eq_of_toNat_eq zero)
        rw [← same] at went
        exact .inr (walk_endsInside positive head.isLt went fun a member =>
          inside a (List.mem_cons_of_mem _ member))
    · rintro ⟨low,ends⟩
      have walked : ∃ rounds w, walk regs bar0 preserved rounds head = some w ∧
          ∀ a ∈ w.reads, InWindow bar0 a := by
        by_cases empty : head = 0
        · refine ⟨0,⟨[],preserved⟩,?_,by simp⟩
          rw [empty,walk,if_neg (by decide)]
        · have positive : 0 < head.toNat := Nat.pos_of_ne_zero fun zero =>
            empty (BitVec.eq_of_toNat_eq zero)
          have walked := (ends.resolve_left empty).walked positive preserved
          rwa [same] at walked
      obtain ⟨rounds,w,went,inside⟩ := walked
      refine ⟨rounds,{w with reads := (bar0 + 0x10) :: w.reads},by rw [went]; rfl,?_⟩
      rintro a (_ | ⟨_,member⟩)
      · exact parameters.mpr low
      · exact inside a member

/-- A head that points behind the window. -/
def strayRegs : Word → Word := fun a => if a = 0xFEB00010 then 0x20000000 else 0

def strayDevice : PciDevice :=
  ⟨0,0,0,0x1B36,0x000D,0x0C,0x03,0x30,0,0,fun _ => 0xFEB00000⟩

theorem xhci_reads_outside : ¬∀ regs dev preserved, Safe regs dev preserved := by
  intro safe
  obtain ⟨rounds,w,ended,inside⟩ := safe strayRegs strayDevice false
  cases rounds with
  | zero => cases ended
  | succ rounds =>
    have same : xhciPreserveLegacy strayRegs strayDevice false (rounds + 1) =
      some ⟨[0xFEB00010,0xFEB08000],false⟩ := rfl
    obtain rfl := Option.some.inj (same.symm.trans ended)
    exact absurd (inside 0xFEB08000 (by simp)) (by decide)

/-- Once `vmm_map_mmio` has mapped the window, what is read there are the controller's registers. -/
theorem Safe.mapped {s t : Space} {dev : PciDevice} (safe : Safe regs dev preserved)
    (mapped : Reaches s t (xhciBar dev) windowSize) : ∃ rounds w,
      xhciPreserveLegacy regs dev preserved rounds = some w ∧
        ∀ a ∈ w.reads, vmmGetPhysical t.tables t.mem a = a := by
  obtain ⟨rounds,w,ended,inside⟩ := safe
  refine ⟨rounds,w,ended,fun a member => ?_⟩
  obtain ⟨above,below⟩ := inside a member
  exact mapped.region a above (by omega)

end NimrodOS.Xhci
