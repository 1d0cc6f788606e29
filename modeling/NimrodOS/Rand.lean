import Mathlib.Data.Int.CardIntervalMod
import Mathlib.Tactic.NormNum.Prime
import NimrodOS.Lib.ByteMemory
import NimrodOS.Lib.Orbit
import NimrodOS.Lib.XorLinear

/-! The numbers of `libc/rand.c`: a generator on 32 bits whose state goes through every word
but zero, and the ranges that are cut from it. -/
namespace NimrodOS.Rand

open ByteMemory Function XorLinear

def randSeed (seed : Word) : Word := if seed = 0 then 1 else seed

/-- `rand_next` returns the new state. -/
def randNext (state : Word) : Word :=
  let state := state ^^^ state <<< 13
  let state := state ^^^ state >>> 17
  state ^^^ state <<< 5

/-- The processor's fault on a division by zero is the error. -/
def randRange (state min max : Word) : Except Unit (Word × Word) :=
  if min ≥ max then .ok (min,state)
  else
    let state := randNext state
    let size := max - min + 1
    if size = 0 then .error () else .ok (min + state % size,state)

theorem shiftLeft_linear (k : Nat) : Linear fun x : Word => x ^^^ x <<< k := by
  intro x y
  simp only [BitVec.shiftLeft_xor_distrib]
  ac_rfl

theorem shiftRight_linear (k : Nat) : Linear fun x : Word => x ^^^ x >>> k := by
  intro x y
  simp only [BitVec.ushiftRight_xor_distrib]
  ac_rfl

theorem randNext_linear : Linear randNext :=
  (shiftLeft_linear 5).comp ((shiftRight_linear 17).comp (shiftLeft_linear 13))

def period : Nat := 2 ^ 32 - 1

theorem prime_divisors {p : Nat} (prime : p.Prime) (divides : p ∣ period) :
    p = 3 ∨ p = 5 ∨ p = 17 ∨ p = 257 ∨ p = 65537 := by
  have factors : period = 3 * 5 * 17 * 257 * 65537 := by decide
  have only {q : Nat} (other : q.Prime) : p ∣ q → p = q := (Nat.prime_dvd_prime_iff_eq prime other).mp
  rw [factors,prime.dvd_mul,prime.dvd_mul,prime.dvd_mul,prime.dvd_mul] at divides
  rcases divides with (((three | five) | seventeen) | next) | last
  · exact .inl (only (by norm_num) three)
  · exact .inr (.inl (only (by norm_num) five))
  · exact .inr (.inr (.inl (only (by norm_num) seventeen)))
  · exact .inr (.inr (.inr (.inl (only (by norm_num) next))))
  · exact .inr (.inr (.inr (.inr (only (by norm_num) last))))

/-- Steps from the first state, by doubling. -/
theorem iterate_one {k v : Nat} (small : k < 2 ^ 32) (lands : leap (columns randNext) 32 k 1 = v) :
    (randNext^[k] 1).toNat = v := by
  rw [← randNext_linear.leap_columns 32 k small]
  exact lands

theorem minimalPeriod_one : minimalPeriod randNext 1 = period := by
  refine Orbit.minimalPeriod_eq ?_ fun p prime divides early => ?_
  · exact BitVec.eq_of_toNat_eq (iterate_one (by decide) (by decide +kernel))
  · have stays : (randNext^[period / p] 1).toNat = 1 := congrArg BitVec.toNat early
    rw [← randNext_linear.leap_columns 32 _ (Nat.lt_of_le_of_lt (Nat.div_le_self ..) (by decide))] at stays
    revert stays
    rcases prime_divisors prime divides with rfl | rfl | rfl | rfl | rfl
    all_goals
      change leap (columns randNext) 32 _ 1 ≠ 1
      decide +kernel

theorem randNext_kernel {s : Word} (none : randNext s = 0) : s = 0 :=
  shiftLeft_kernel (by decide) (shiftRight_kernel (by decide) (shiftLeft_kernel (by decide) none))

theorem randNext_injective : Injective randNext :=
  randNext_linear.injective fun _ none => randNext_kernel none

/-! One cycle. -/

def states : Finset Word := (Finset.Ioc 0 period).image (BitVec.ofNat 32)

theorem ofNat_injOn : Set.InjOn (BitVec.ofNat 32) (Finset.Ioc 0 period) := by
  intro a low b low' same
  simp only [Finset.coe_Ioc,Set.mem_Ioc,period] at low low'
  have values := congrArg BitVec.toNat same
  rwa [BitVec.toNat_ofNat,BitVec.toNat_ofNat,Nat.mod_eq_of_lt (by omega),Nat.mod_eq_of_lt (by omega)] at values

theorem card_states : states.card = period := by
  rw [states,Finset.card_image_of_injOn ofNat_injOn,Nat.card_Ioc,Nat.sub_zero]

theorem mem_states {s : Word} : s ∈ states ↔ s ≠ 0 := by
  constructor
  · rintro member rfl
    obtain ⟨k,low,zero⟩ := Finset.mem_image.mp member
    simp only [Finset.mem_Ioc,period] at low
    have value := congrArg BitVec.toNat zero
    rw [BitVec.toNat_ofNat,Nat.mod_eq_of_lt (by omega)] at value
    exact absurd value (by simpa using low.1.ne')
  · intro live
    have some' : 0 < s.toNat := Nat.pos_of_ne_zero fun zero => live (BitVec.eq_of_toNat_eq zero)
    have small := s.isLt
    refine Finset.mem_image.mpr ⟨s.toNat,Finset.mem_Ioc.mpr ⟨some',?_⟩,BitVec.ofNat_toNat ..⟩
    rw [period]
    omega

theorem states_kept : ∀ s ∈ states, randNext s ∈ states := by
  intro s live
  rw [mem_states] at live ⊢
  exact fun none => live (randNext_kernel none)

variable {s v : Word}

theorem minimalPeriod_live (live : s ≠ 0) : minimalPeriod randNext s = period := by
  have first : (1 : Word) ∈ states := mem_states.mpr (by decide)
  rw [← card_states]
  exact Orbit.minimalPeriod_of_mem states_kept first (minimalPeriod_one.trans card_states.symm)
    (mem_states.mpr live)

theorem randSeed_live (seed : Word) : randSeed seed ≠ 0 := by
  unfold randSeed
  split_ifs with none
  · decide
  · exact none

theorem iterate_live (seed : Word) (k : Nat) : randNext^[k] (randSeed seed) ≠ 0 := by
  induction k with
  | zero => exact randSeed_live seed
  | succ k ih =>
    rw [iterate_succ_apply']
    exact fun none => ih (randNext_kernel none)

/-- After `rand_seed` the calls of `rand_next` never return zero, and of any 2 ^ 32 - 1 calls
in a row exactly one returns any other given word. -/
theorem rand_next_cycle (seed : Word) (before : Nat) :
    randNext^[before + 1] (randSeed seed) ≠ 0 ∧
    ∀ v, v ≠ 0 → ∃! k, k < period ∧ randNext^[before + 1 + k] (randSeed seed) = v := by
  have live := iterate_live seed (before + 1)
  have whole := minimalPeriod_live live
  refine ⟨live,fun v other => ?_⟩
  have reached := Orbit.image_iterate states_kept (mem_states.mpr live) (whole.trans card_states.symm)
  have member := reached.symm ▸ mem_states.mpr other
  obtain ⟨k,small,rfl⟩ := Finset.mem_image.mp member
  rw [card_states,Finset.mem_range] at small
  have later (j : Nat) : randNext^[before + 1 + j] (randSeed seed) =
      randNext^[j] (randNext^[before + 1] (randSeed seed)) := by
    rw [Nat.add_comm,iterate_add_apply]
  refine ⟨k,⟨small,later k⟩,?_⟩
  rintro j ⟨small',same⟩
  rw [later] at same
  exact Orbit.injOn_iterate whole (by simpa using small') (by simpa using small) same

/-! Ranges. -/

/-- The words that leave the remainder. -/
theorem count_residue {n size u : Nat} (some' : 0 < size) (small : u < size) :
    ((Finset.Ioc 0 n).filter fun k => k % size = u).card = n / size ∨
      ((Finset.Ioc 0 n).filter fun k => k % size = u).card = n / size + 1 := by
  have residue : (u + size) % size = u := by rw [Nat.add_mod_right,Nat.mod_eq_of_lt small]
  have turn : u + (size - 1) + 1 = u + size := by omega
  have shift (j : Nat) : j ≡ u + (size - 1) [MOD size] ↔ (j + 1) % size = u := by
    constructor
    · intro same
      have next := same.add_right 1
      rw [turn] at next
      exact Eq.trans next residue
    · intro same
      apply Nat.ModEq.add_right_cancel' 1
      rw [turn]
      exact same.trans residue.symm
  have moved : (Finset.Ioc 0 n).filter (fun k => k % size = u) =
      ((Finset.range n).filter fun k => k ≡ u + (size - 1) [MOD size]).image (· + 1) := by
    ext k
    simp only [Finset.mem_filter,Finset.mem_Ioc,Finset.mem_image,Finset.mem_range]
    constructor
    · rintro ⟨⟨low,high⟩,same⟩
      obtain ⟨j,rfl⟩ := Nat.exists_eq_add_of_le' low
      exact ⟨j,⟨high,(shift j).mpr same⟩,rfl⟩
    · rintro ⟨j,⟨inside,same⟩,rfl⟩
      exact ⟨⟨Nat.succ_pos j,inside⟩,(shift j).mp same⟩
  rw [moved,Finset.card_image_of_injective _ (Nat.succ_injective),← Nat.count_eq_card_filter_range,
    Nat.count_modEq_card _ some']
  split_ifs
  · exact .inr rfl
  · exact .inl rfl

section Ranges

variable {s v min max : Word}

/-- The size that `rand_range` computes is right but for the range of all words. -/
theorem size_eq (below : min < max) (part : ¬(min = 0 ∧ max = 0xFFFFFFFF)) :
    (max - min + 1).toNat = max.toNat - min.toNat + 1 := by
  have small := max.isLt
  have order : min.toNat < max.toNat := below
  have room : max.toNat - min.toNat + 1 < 2 ^ 32 := by
    by_contra whole
    apply part
    constructor
    · apply BitVec.eq_of_toNat_eq
      simp
      omega
    · apply BitVec.eq_of_toNat_eq
      simp
      omega
  rw [BitVec.toNat_add,BitVec.toNat_sub_of_le order.le]
  exact Nat.mod_eq_of_lt room

/-- What a call returns in the other cases, and that it goes one step on. -/
theorem randRange_ok (below : min < max) (part : ¬(min = 0 ∧ max = 0xFFFFFFFF)) :
    randRange s min max = .ok (min + randNext s % (max - min + 1),randNext s) := by
  unfold randRange
  have size : max - min + 1 ≠ 0 := by
    intro none
    have value := size_eq below part
    rw [none] at value
    exact absurd value (by simp)
  have order : ¬min ≥ max := BitVec.not_le.mpr below
  rw [if_neg order]
  exact if_neg size

theorem randRange_error : randRange s min max = .error () ↔ min = 0 ∧ max = 0xFFFFFFFF := by
  constructor
  · intro traps
    by_contra part
    by_cases below : min < max
    · rw [randRange_ok below part] at traps
      cases traps
    · have order : min ≥ max := BitVec.not_lt.mp below
      rw [randRange,if_pos order] at traps
      cases traps
  · rintro ⟨rfl,rfl⟩
    rfl

/-- The words behind the value. -/
theorem range_value (below : min < max) (part : ¬(min = 0 ∧ max = 0xFFFFFFFF)) (x : Word) :
    min + x % (max - min + 1) = v ↔
      (min ≤ v ∧ v ≤ max) ∧ x.toNat % (max.toNat - min.toNat + 1) = v.toNat - min.toNat := by
  have small := max.isLt
  have order : min.toNat < max.toNat := below
  have rest : x.toNat % (max.toNat - min.toNat + 1) < max.toNat - min.toNat + 1 :=
    Nat.mod_lt _ (Nat.succ_pos _)
  have sum : (min + x % (max - min + 1)).toNat =
      min.toNat + x.toNat % (max.toNat - min.toNat + 1) := by
    rw [BitVec.toNat_add,BitVec.toNat_umod,size_eq below part]
    exact Nat.mod_eq_of_lt (by omega)
  rw [← BitVec.toNat_inj,sum,BitVec.le_def,BitVec.le_def]
  omega

/-- The calls of a period that return the value. -/
def hits (s min max v : Word) : Finset Nat :=
  (Finset.range period).filter fun k => randRange (randNext^[k] s) min max = .ok (v,randNext^[k + 1] s)

theorem card_hits (live : s ≠ 0) (below : min < max) (part : ¬(min = 0 ∧ max = 0xFFFFFFFF)) :
    (hits s min max v).card = ((Finset.Ioc 0 period).filter fun k => (min ≤ v ∧ v ≤ max) ∧
      k % (max.toNat - min.toNat + 1) = v.toNat - min.toNat).card := by
  have next : randNext s ≠ 0 := fun none => live (randNext_kernel none)
  have whole := (minimalPeriod_live next).trans card_states.symm
  have returned : hits s min max v = (Finset.range states.card).filter fun k =>
      min + randNext^[k] (randNext s) % (max - min + 1) = v := by
    rw [hits,card_states]
    refine Finset.filter_congr fun k _ => ?_
    rw [randRange_ok below part,← iterate_succ_apply,iterate_succ_apply']
    simp
  rw [returned,Orbit.card_filter_iterate states_kept (mem_states.mpr next) whole
    fun x => min + x % (max - min + 1) = v,states,Finset.filter_image,
    Finset.card_image_of_injOn (ofNat_injOn.mono (Finset.coe_subset.mpr (Finset.filter_subset ..)))]
  refine congrArg Finset.card (Finset.filter_congr fun k inside => ?_)
  have small : k < 2 ^ 32 := by
    have high := (Finset.mem_Ioc.mp inside).2
    rw [period] at high
    omega
  rw [range_value below part,BitVec.toNat_ofNat,Nat.mod_eq_of_lt small]

/-- Whatever the seed and the calls so far: of 2 ^ 32 - 1 calls of `rand_range` in a row,
every value of the range is returned by as many as any other, or by one more, and no other
value by any. The range of all words alone divides by zero. -/
theorem rand_range_fair (seed : Word) (before : Nat) (below : min < max) :
    (min = 0 ∧ max = 0xFFFFFFFF →
      randRange (randNext^[before] (randSeed seed)) min max = .error ()) ∧
    (¬(min = 0 ∧ max = 0xFFFFFFFF) → ∀ v,
      if min ≤ v ∧ v ≤ max then
        (hits (randNext^[before] (randSeed seed)) min max v).card =
            period / (max.toNat - min.toNat + 1) ∨
          (hits (randNext^[before] (randSeed seed)) min max v).card =
            period / (max.toNat - min.toNat + 1) + 1
      else (hits (randNext^[before] (randSeed seed)) min max v).card = 0) := by
  refine ⟨fun all => randRange_error.mpr all,fun part v => ?_⟩
  rw [card_hits (iterate_live seed before) below part]
  split_ifs with inside
  · have last : v.toNat ≤ max.toNat := inside.2
    simp only [inside,true_and]
    exact count_residue (Nat.succ_pos _) (by omega)
  · simp [inside]

/-- The die of the shell. -/
theorem rand_range_fair_die : (hits (randNext^[0] (randSeed 7)) 1 6 3).card = 715827882 ∨
    (hits (randNext^[0] (randSeed 7)) 1 6 3).card = 715827883 := by
  have fair := (@rand_range_fair 1 6 7 0 (by decide)).2 (by decide) 3
  rwa [if_pos (by decide)] at fair

end Ranges

end NimrodOS.Rand
