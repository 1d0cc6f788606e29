import NimrodOS.Lib.ByteMemory

/-! Single bits of a byte, and words whose low bits are flags. -/
namespace Bits

/-- A one-bit mask tests that bit, -/
theorem and_mask (b : Byte) {k : Nat} (small : k < 8) : (b &&& (1 : Byte) <<< k != 0) = b.getLsbD k := by
  have power : (1 : Byte) <<< k = BitVec.twoPow 8 k := (BitVec.twoPow_eq 8 k).symm
  have nonzero : BitVec.twoPow 8 k ≠ 0 := by
    intro zero
    have bit : (BitVec.twoPow 8 k).getLsbD k = (0 : Byte).getLsbD k := by rw [zero]
    simp [small] at bit
  rw [power,BitVec.and_twoPow]
  cases b.getLsbD k with
  | true => simpa using nonzero
  | false => rfl

/-- and sets it. -/
theorem or_mask (b : Byte) {k l : Nat} (small : l < 8) :
    (b ||| (1 : Byte) <<< k).getLsbD l = (decide (k = l) || b.getLsbD l) := by
  have power : (1 : Byte) <<< k = BitVec.twoPow 8 k := (BitVec.twoPow_eq 8 k).symm
  rw [power,BitVec.getLsbD_or,BitVec.getLsbD_twoPow,Bool.or_comm]
  by_cases same : k = l
  · simp [same,small]
  · simp [same]

/-- Its complement clears it. -/
theorem clear_mask (b : Byte) {k l : Nat} (small : l < 8) :
    (b &&& ~~~((1 : Byte) <<< k)).getLsbD l = (!decide (k = l) && b.getLsbD l) := by
  have power : (1 : Byte) <<< k = BitVec.twoPow 8 k := (BitVec.twoPow_eq 8 k).symm
  rw [power,BitVec.getLsbD_and,BitVec.getLsbD_not,BitVec.getLsbD_twoPow,Bool.and_comm]
  by_cases same : k = l
  · simp [same,small]
  · simp [same,small]

/-- Flags that were set are set. -/
theorem or_and_same (x flags : BitVec w) : (x ||| flags) &&& flags = flags := by
  ext i inside
  simp only [BitVec.getElem_and,BitVec.getElem_or]
  cases flags[i] <;> simp

/-- Flags below an aligned address do not change it. -/
theorem or_div {a low : Word} {k : Nat} (small : low.toNat < 2^k) :
    (a ||| low).toNat / 2^k = a.toNat / 2^k := by
  have none : low.toNat >>> k = 0 := by
    rw [Nat.shiftRight_eq_div_pow,Nat.div_eq_of_lt small]
  rw [BitVec.toNat_or,← Nat.shiftRight_eq_div_pow,Nat.shiftRight_or_distrib,none,Nat.or_zero,
    Nat.shiftRight_eq_div_pow]

/-- An aligned address has no bits where the flags are. -/
theorem and_low {a low : Word} {k : Nat} (aligned : 2^k ∣ a.toNat) (small : low.toNat < 2^k) :
    a &&& low = 0 := by
  obtain ⟨q,same⟩ := aligned
  apply BitVec.eq_of_toNat_eq
  rw [BitVec.toNat_and,same]
  apply Nat.eq_of_testBit_eq
  intro i
  rw [Nat.testBit_and,Nat.testBit_two_pow_mul]
  by_cases high : k ≤ i
  · have none := Nat.testBit_lt_two_pow (Nat.lt_of_lt_of_le small (Nat.pow_le_pow_right (by decide) high))
    simp [none]
  · simp [high]

theorem or_flag (a b flag : Word) : (a ||| flag ||| b) &&& flag = flag := by
  ext i inside
  simp only [BitVec.getElem_and,BitVec.getElem_or]
  cases flag[i] <;> simp

theorem or_last (a flag : Word) : (a ||| flag) &&& flag = flag := by
  ext i inside
  simp only [BitVec.getElem_and,BitVec.getElem_or]
  cases flag[i] <;> simp

/-- A single flag is set or not. -/
theorem one_flag (a : Word) (k : Nat) :
    a &&& BitVec.twoPow 32 k = 0 ∨ a &&& BitVec.twoPow 32 k = BitVec.twoPow 32 k := by
  rw [BitVec.and_twoPow]
  split
  · exact .inr rfl
  · exact .inl rfl

end Bits
