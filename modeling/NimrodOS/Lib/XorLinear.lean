import Mathlib.Algebra.Order.Ring.Nat
import Mathlib.Logic.Function.Iterate

/-! Maps on words that respect exclusive or, given by what they make of the single bits.
Many steps of such a map are computed by doubling. -/
namespace XorLinear

open Function

def apply : List Nat → Nat → Nat
  | [], _ => 0
  | c :: cs, x => (x % 2 * c) ^^^ apply cs (x / 2)

/-- `k` steps, for `k` below the power of two that `fuel` gives. -/
def leap : List Nat → Nat → Nat → Nat → Nat
  | _, 0, _, x => x
  | m, fuel + 1, k, x => leap (m.map (apply m)) fuel (k / 2) (if k % 2 = 1 then apply m x else x)

variable {w : Nat} {f g : BitVec w → BitVec w}

def columns (f : BitVec w → BitVec w) : List Nat :=
  (List.range w).map fun i => (f (BitVec.ofNat w (2 ^ i))).toNat

def Linear (f : BitVec w → BitVec w) : Prop := ∀ x y, f (x ^^^ y) = f x ^^^ f y

namespace Linear

theorem zero (linear : Linear f) : f 0 = 0 := by
  have twice := linear 0 0
  rwa [BitVec.xor_self,BitVec.xor_self] at twice

theorem comp (outer : Linear f) (inner : Linear g) : Linear (f ∘ g) := by
  intro x y
  rw [comp_apply,inner,outer]
  rfl

/-- The low bit and the rest of what is left of a word. -/
theorem split_bit (i x : Nat) : BitVec.ofNat w (2 ^ i * x) =
    BitVec.ofNat w (2 ^ i * (x % 2)) ^^^ BitVec.ofNat w (2 ^ (i + 1) * (x / 2)) := by
  have whole : 2 ^ i * x = (2 ^ i * (x % 2)) ^^^ (2 ^ (i + 1) * (x / 2)) := by
    apply Nat.eq_of_testBit_eq
    intro j
    simp only [Nat.testBit_xor,Nat.testBit_two_pow_mul,Nat.testBit_div_two]
    by_cases here : j = i
    · subst here
      simp
    · by_cases above : i < j
      · obtain ⟨d,rfl⟩ := Nat.exists_eq_add_of_lt above
        have one : i + d + 1 - i = d + 1 := by omega
        have past : i ≤ i + d + 1 := by omega
        simp [one,past,Nat.testBit_mod_two_pow x 1 (d + 1)]
      · have low : ¬i ≤ j := by omega
        have low' : ¬i + 1 ≤ j := by omega
        simp [low,low']
  apply BitVec.eq_of_toNat_eq
  rw [BitVec.toNat_xor,BitVec.toNat_ofNat,BitVec.toNat_ofNat,BitVec.toNat_ofNat,← Nat.xor_mod_two_pow,← whole]

theorem apply_from (linear : Linear f) (n i x : Nat) (inside : i + n = w) :
    apply ((List.range' i n).map fun i => (f (BitVec.ofNat w (2 ^ i))).toNat) x =
      (f (BitVec.ofNat w (2 ^ i * x))).toNat := by
  induction n generalizing i x with
  | zero =>
    have none : BitVec.ofNat w (2 ^ i * x) = 0 := by
      apply BitVec.eq_of_toNat_eq
      obtain rfl : i = w := by omega
      simp
    rw [none,linear.zero]
    rfl
  | succ n ih =>
    rw [List.range'_succ,List.map_cons,apply,ih (i + 1) (x / 2) (by omega),split_bit i x,linear,
      BitVec.toNat_xor]
    congr 1
    rcases Nat.mod_two_eq_zero_or_one x with even | odd
    · have none : BitVec.ofNat w (2 ^ i * 0) = 0 := rfl
      rw [even,Nat.zero_mul,none,linear.zero]
      rfl
    · rw [odd,Nat.one_mul,Nat.mul_one]

theorem apply_columns (linear : Linear f) (x : BitVec w) : apply (columns f) x.toNat = (f x).toNat := by
  have whole := linear.apply_from w 0 x.toNat (Nat.zero_add w)
  rwa [Nat.pow_zero,Nat.one_mul,BitVec.ofNat_toNat,BitVec.setWidth_eq,← List.range_eq_range'] at whole

theorem columns_twice (linear : Linear f) : columns (f ∘ f) = (columns f).map (apply (columns f)) := by
  simp only [columns,List.map_map]
  refine List.map_congr_left fun i _ => ?_
  exact (linear.apply_columns _).symm

theorem leap_columns (linear : Linear f) (fuel k : Nat) (small : k < 2 ^ fuel) (x : BitVec w) :
    leap (columns f) fuel k x.toNat = (f^[k] x).toNat := by
  induction fuel generalizing f k x with
  | zero =>
    obtain rfl : k = 0 := by simpa using small
    rfl
  | succ fuel ih =>
    have half : k / 2 < 2 ^ fuel := by
      rw [Nat.pow_succ] at small
      omega
    have whole := Nat.div_add_mod k 2
    have doubled (y : BitVec w) : (f ∘ f)^[k / 2] y = f^[2 * (k / 2)] y := by
      rw [iterate_mul]
      rfl
    rw [leap,← columns_twice linear]
    rcases Nat.mod_two_eq_zero_or_one k with even | odd
    · rw [if_neg (by omega),ih (linear.comp linear) _ half,doubled]
      congr 2
      omega
    · rw [if_pos odd,linear.apply_columns,ih (linear.comp linear) _ half,doubled,← iterate_succ_apply]
      congr 2
      omega

/-- A map that sends nothing else to zero keeps words apart. -/
theorem injective (linear : Linear f) (kernel : ∀ x, f x = 0 → x = 0) : Function.Injective f := by
  intro x y same
  have none : f (x ^^^ y) = 0 := by
    rw [linear,same]
    exact BitVec.xor_self
  exact BitVec.xor_eq_zero_iff.mp (kernel _ none)

end Linear

theorem shiftLeft_kernel {k : Nat} (moves : 0 < k) {x : BitVec w} (none : x ^^^ x <<< k = 0) :
    x = 0 := by
  have same : x = x <<< k := BitVec.xor_eq_zero_iff.mp none
  have bits (i : Nat) : x.getLsbD i = false := by
    induction i using Nat.strongRecOn with
    | ind i ih =>
      rw [same,BitVec.getLsbD_shiftLeft]
      by_cases low : i < k
      · simp [low]
      · simp [ih (i - k) (by omega)]
  exact BitVec.eq_of_getLsbD_eq fun i _ => by simp [bits i]

theorem shiftRight_kernel {k : Nat} (moves : 0 < k) {x : BitVec w} (none : x ^^^ x >>> k = 0) :
    x = 0 := by
  have same : x = x >>> k := BitVec.xor_eq_zero_iff.mp none
  have bits (n i : Nat) (far : w - i ≤ n) : x.getLsbD i = false := by
    induction n generalizing i with
    | zero => exact BitVec.getLsbD_of_ge x i (by omega)
    | succ n ih =>
      rw [same,BitVec.getLsbD_ushiftRight]
      exact ih (k + i) (by omega)
  exact BitVec.eq_of_getLsbD_eq fun i _ => by simp [bits w i (by omega)]

end XorLinear
