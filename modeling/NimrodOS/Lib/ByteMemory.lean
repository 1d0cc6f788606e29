import Mathlib.Data.Nat.Bitwise

/-! A byte memory addressed by 32-bit words, with little-endian word access. Frame
facts are stated over half-open ranges of natural numbers: a store leaves every byte
outside its range alone, and a load reads only the bytes of its own range. -/

abbrev Byte := BitVec 8
abbrev Word := BitVec 32

/-- Clearing the low `k` bits rounds down to a multiple of `2^k`. -/
theorem clearLow_toNat (x : BitVec w) (k : Nat) :
    (x &&& ~~~BitVec.ofNat w (2^k - 1)).toNat = x.toNat / 2^k * 2^k := by
  have shifted : x &&& ~~~BitVec.ofNat w (2^k - 1) = (x >>> k) <<< k := by
    ext i inside
    have mask : (BitVec.ofNat w (2^k - 1))[i] = decide (i < k) := by
      rw [← BitVec.getLsbD_eq_getElem,BitVec.getLsbD_ofNat,Nat.testBit_two_pow_sub_one]
      simp [inside]
    by_cases low : i < k
    · simp [mask,low]
    · simp [mask,low,BitVec.getLsbD_eq_getElem inside,Nat.add_sub_cancel' (Nat.le_of_not_lt low)]
  have small : x.toNat / 2^k * 2^k < 2^w := Nat.lt_of_le_of_lt (Nat.div_mul_le_self ..) x.isLt
  rw [shifted,BitVec.toNat_shiftLeft,BitVec.toNat_ushiftRight,Nat.shiftRight_eq_div_pow,
    Nat.shiftLeft_eq,Nat.mod_eq_of_lt small]

/-- Rounding up to a multiple of `2^k`, where the addition wraps. -/
theorem roundUp_toNat (x : Word) (k : Nat) (fits : k ≤ 32) :
    ((x + BitVec.ofNat 32 (2^k - 1)) &&& ~~~BitVec.ofNat 32 (2^k - 1)).toNat =
      (x.toNat + (2^k - 1)) % 2^32 / 2^k * 2^k := by
  have small : 2^k - 1 < 2^32 := by
    have : 2^k ≤ 2^32 := Nat.pow_le_pow_right (by decide) fits
    omega
  rw [clearLow_toNat,BitVec.toNat_add,BitVec.toNat_ofNat,Nat.mod_eq_of_lt small]

namespace ByteMemory

abbrev Memory := Word → Byte

def store8 (m : Memory) (a : Word) (v : Byte) : Memory := fun x => if x = a then v else m x

def load32 (m : Memory) (a : Word) : Word := m (a + 3) ++ m (a + 2) ++ m (a + 1) ++ m a

def store32 (m : Memory) (a v : Word) : Memory :=
  store8 (store8 (store8 (store8 m a (v.extractLsb' 0 8)) (a + 1) (v.extractLsb' 8 8))
    (a + 2) (v.extractLsb' 16 8)) (a + 3) (v.extractLsb' 24 8)

@[simp] theorem store8_same (m : Memory) (a : Word) (v : Byte) : store8 m a v a = v := by
  simp [store8]

theorem store8_other (m : Memory) (a : Word) (v : Byte) (x : Word) (h : x ≠ a) :
    store8 m a v x = m x := by simp [store8,h]

theorem store8_outside (m : Memory) (a : Word) (v : Byte) (x : Word)
    (apart : x.toNat < a.toNat ∨ a.toNat + 1 ≤ x.toNat) : store8 m a v x = m x := by
  apply store8_other
  rintro rfl
  omega

theorem store32_outside (m : Memory) (a v x : Word) (noWrap : a.toNat + 4 ≤ 2^32)
    (apart : x.toNat < a.toNat ∨ a.toNat + 4 ≤ x.toNat) : store32 m a v x = m x := by
  simp only [store32]
  iterate 4 rw [store8_other _ _ _ _ (by bv_omega)]

@[simp] theorem load32_store32 (m : Memory) (a v : Word) : load32 (store32 m a v) a = v := by
  have one : a + 1 ≠ a + 2 ∧ a + 1 ≠ a + 3 ∧ a + 2 ≠ a + 3 := by bv_omega
  have two : a ≠ a + 1 ∧ a ≠ a + 2 ∧ a ≠ a + 3 := by bv_omega
  simp only [load32,store32,store8,one,two,if_true,if_false]
  ext i inside
  simp only [BitVec.getElem_append,BitVec.getElem_extractLsb']
  rw [← BitVec.getLsbD_eq_getElem]
  split_ifs <;> congr 1 <;> omega

/-- Two memories hold the same bytes from `lo` up to `hi`. -/
def Agree (m m' : Memory) (lo hi : Nat) : Prop :=
  ∀ x : Word, lo ≤ x.toNat → x.toNat < hi → m x = m' x

theorem Agree.mono {m m' : Memory} {lo hi lo' hi' : Nat} (h : Agree m m' lo hi)
    (left : lo ≤ lo') (right : hi' ≤ hi) : Agree m m' lo' hi' :=
  fun x above below => h x (Nat.le_trans left above) (Nat.lt_of_lt_of_le below right)

theorem Agree.trans {m₁ m₂ m₃ : Memory} {lo hi : Nat} (first : Agree m₁ m₂ lo hi)
    (second : Agree m₂ m₃ lo hi) : Agree m₁ m₃ lo hi :=
  fun x above below => (first x above below).trans (second x above below)

theorem Agree.load32 {m m' : Memory} {lo hi : Nat} (h : Agree m m' lo hi) (a : Word)
    (left : lo ≤ a.toNat) (right : a.toNat + 4 ≤ hi) (noWrap : a.toNat + 4 ≤ 2^32) :
    load32 m a = load32 m' a := by
  simp only [ByteMemory.load32]
  rw [h a (by omega) (by omega),h (a + 1) (by bv_omega) (by bv_omega),
    h (a + 2) (by bv_omega) (by bv_omega),h (a + 3) (by bv_omega) (by bv_omega)]

theorem agree_store8 (m : Memory) (a : Word) (v : Byte) {i j : Nat}
    (apart : j ≤ a.toNat ∨ a.toNat + 1 ≤ i) : Agree m (store8 m a v) i j := by
  intro x above below
  exact (store8_outside m a v x (by omega)).symm

theorem agree_store32 (m : Memory) (a v : Word) {i j : Nat} (noWrap : a.toNat + 4 ≤ 2^32)
    (apart : j ≤ a.toNat ∨ a.toNat + 4 ≤ i) : Agree m (store32 m a v) i j := by
  intro x above below
  exact (store32_outside m a v x noWrap (by omega)).symm

end ByteMemory
