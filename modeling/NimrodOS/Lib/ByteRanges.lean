import NimrodOS.Lib.Wire

/-! Ranges of a byte memory: what a pointer points to, and loops that write one byte
after the other from the lowest address on. -/
namespace ByteMemory

/-- The bytes behind a pointer. -/
def pointee (m : Memory) (a : Word) : Nat → Byte := fun i => m (a + BitVec.ofNat 32 i)

/-! An address and its distance from a pointer. -/

theorem offset_toNat {a : Word} {k : Nat} (noWrap : a.toNat + k < 2^32) :
    (a + BitVec.ofNat 32 k).toNat = a.toNat + k := by
  bv_omega

theorem distance_offset (a : Word) {k : Nat} (small : k < 2^32) :
    (a + BitVec.ofNat 32 k - a).toNat = k := by
  bv_omega

theorem offset_distance (a x : Word) : a + BitVec.ofNat 32 (x - a).toNat = x := by
  bv_omega

/-- Ranges may overlap: a byte that was written is read again as it is then. -/
def copyBytes : Nat → Memory → Word → Word → Memory
  | 0, m, _, _ => m
  | n + 1, m, dest, src => copyBytes n (store8 m dest (m src)) (dest + 1) (src + 1)

def fillBytes (v : Byte) : Nat → Memory → Word → Memory
  | 0, m, _ => m
  | n + 1, m, dest => fillBytes v n (store8 m dest v) (dest + 1)

/-- Two memories differ at most from `lo` up to `hi`. -/
def AgreeOutside (m m' : Memory) (lo hi : Nat) : Prop :=
  ∀ x : Word, x.toNat < lo ∨ hi ≤ x.toNat → m x = m' x

variable {m m' m₁ m₂ m₃ : Memory} {lo hi i j n : Nat} {a dest src : Word}

theorem AgreeOutside.refl (m : Memory) : AgreeOutside m m lo hi := fun _ _ => rfl

theorem AgreeOutside.trans (first : AgreeOutside m₁ m₂ lo hi) (second : AgreeOutside m₂ m₃ lo hi) :
    AgreeOutside m₁ m₃ lo hi :=
  fun x outside => (first x outside).trans (second x outside)

theorem AgreeOutside.symm (same : AgreeOutside m m' lo hi) : AgreeOutside m' m lo hi :=
  fun x outside => (same x outside).symm

theorem AgreeOutside.mono (same : AgreeOutside m m' lo hi) (left : i ≤ lo) (right : hi ≤ j) :
    AgreeOutside m m' i j :=
  fun x outside => same x (by omega)

theorem AgreeOutside.agree (same : AgreeOutside m m' lo hi) (apart : j ≤ lo ∨ hi ≤ i) :
    Agree m m' i j :=
  fun x above below => same x (by omega)

theorem agreeOutside_iff : AgreeOutside m m' lo hi ↔
    ∀ i j, j ≤ lo ∨ hi ≤ i → Agree m m' i j := by
  constructor
  · intro same i j apart
    exact same.agree apart
  · intro same x outside
    exact same x.toNat (x.toNat + 1) (by omega) x (Nat.le_refl _) (Nat.lt_succ_self _)

theorem agreeOutside_store8 (m : Memory) (a : Word) (v : Byte) (left : lo ≤ a.toNat)
    (right : a.toNat + 1 ≤ hi) : AgreeOutside m (store8 m a v) lo hi :=
  fun x outside => (store8_outside m a v x (by omega)).symm

theorem copyBytes_outside (noWrap : dest.toNat + n ≤ 2^32) :
    AgreeOutside m (copyBytes n m dest src) dest.toNat (dest.toNat + n) := by
  induction n generalizing m dest src with
  | zero => exact AgreeOutside.refl m
  | succ n ih =>
    have here : AgreeOutside m (store8 m dest (m src)) dest.toNat (dest.toNat + (n + 1)) :=
      agreeOutside_store8 m dest (m src) (Nat.le_refl _) (by omega)
    cases n with
    | zero => exact here
    | succ n =>
      have next : (dest + 1).toNat = dest.toNat + 1 := by bv_omega
      exact here.trans ((ih (by omega)).mono (by omega) (by omega))

/-- A copy onto a range behind the source repeats the bytes in between. -/
theorem copyBytes_byte (m : Memory) {dest src : Word} {k : Nat} (noWrap : dest.toNat + n ≤ 2^32)
    (inside : k < n) : copyBytes n m dest src (dest + BitVec.ofNat 32 k) =
      m (src + BitVec.ofNat 32 (k % (dest - src).toNat)) := by
  induction n generalizing m dest src k with
  | zero => omega
  | succ n ih =>
    cases k with
    | zero =>
      cases n with
      | zero => simp [copyBytes]
      | succ n =>
        have next : (dest + 1).toNat = dest.toNat + 1 := by bv_omega
        have kept : AgreeOutside (store8 m dest (m src)) (copyBytes (n + 1) (store8 m dest (m src))
            (dest + 1) (src + 1)) (dest + 1).toNat ((dest + 1).toNat + (n + 1)) :=
          copyBytes_outside (by omega)
        simpa [copyBytes] using (kept dest (by omega)).symm
    | succ k =>
      have next : (dest + 1).toNat = dest.toNat + 1 := by bv_omega
      have step (a : Word) (k : Nat) : a + BitVec.ofNat 32 (k + 1) = a + 1 + BitVec.ofNat 32 k := by bv_omega
      have distance : (dest + 1 - (src + 1)).toNat = (dest - src).toNat := by bv_omega
      have small := (dest - src).isLt
      have round : src + BitVec.ofNat 32 (dest - src).toNat = dest := by bv_omega
      rw [step,copyBytes,ih (store8 m dest (m src)) (by omega) (by omega),distance,← step]
      generalize (dest - src).toNat = d at *
      rcases Nat.eq_zero_or_pos d with rfl | positive
      · have apart : src + BitVec.ofNat 32 (k + 1) ≠ dest := by bv_omega
        rw [Nat.mod_zero,Nat.mod_zero]
        exact store8_other _ _ _ _ apart
      have below := Nat.mod_lt k positive
      by_cases again : k % d + 1 = d
      · have start : (k + 1) % d = 0 := by rw [← Nat.mod_add_mod,again,Nat.mod_self]
        rw [again,round,store8_same,start]
        simp
      · have goes : (k + 1) % d = k % d + 1 := by
          rw [← Nat.mod_add_mod]
          exact Nat.mod_eq_of_lt (by omega)
        have apart : src + BitVec.ofNat 32 (k % d + 1) ≠ dest := by bv_omega
        rw [goes]
        exact store8_other _ _ _ _ apart

/-- A byte that is copied from below is as it was. -/
theorem copyBytes_inside (m : Memory) {dest src : Word} {k : Nat} (noWrap : dest.toNat + n ≤ 2^32)
    (source : src.toNat + k < dest.toNat) (inside : k < n) :
    copyBytes n m dest src (dest + BitVec.ofNat 32 k) = m (src + BitVec.ofNat 32 k) := by
  have near : k < (dest - src).toNat := by bv_omega
  rw [copyBytes_byte m noWrap inside,Nat.mod_eq_of_lt near]

theorem fillBytes_outside (v : Byte) (noWrap : dest.toNat + n ≤ 2^32) :
    AgreeOutside m (fillBytes v n m dest) dest.toNat (dest.toNat + n) := by
  induction n generalizing m dest with
  | zero => exact AgreeOutside.refl m
  | succ n ih =>
    have here : AgreeOutside m (store8 m dest v) dest.toNat (dest.toNat + (n + 1)) :=
      agreeOutside_store8 m dest v (Nat.le_refl _) (by omega)
    cases n with
    | zero => exact here
    | succ n =>
      have next : (dest + 1).toNat = dest.toNat + 1 := by bv_omega
      exact here.trans ((ih (by omega)).mono (by omega) (by omega))

theorem fillBytes_inside (v : Byte) (m : Memory) {dest x : Word} (noWrap : dest.toNat + n ≤ 2^32)
    (above : dest.toNat ≤ x.toNat) (below : x.toNat < dest.toNat + n) : fillBytes v n m dest x = v := by
  induction n generalizing m dest with
  | zero => omega
  | succ n ih =>
    cases n with
    | zero =>
      obtain rfl : x = dest := BitVec.eq_of_toNat_eq (by omega)
      exact store8_same m x v
    | succ n =>
      have next : (dest + 1).toNat = dest.toNat + 1 := by bv_omega
      by_cases first : x = dest
      · subst first
        have kept : AgreeOutside (store8 m x v) (fillBytes v (n + 1) (store8 m x v) (x + 1))
            (x + 1).toNat ((x + 1).toNat + (n + 1)) := fillBytes_outside v (by omega)
        exact (kept x (by omega)).symm.trans (store8_same m x v)
      · have beyond : x.toNat ≠ dest.toNat := fun same => first (BitVec.eq_of_toNat_eq same)
        exact ih (store8 m dest v) (by omega) (by omega) (by omega)

end ByteMemory
