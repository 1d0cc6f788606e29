import Mathlib.Data.Nat.Prime.Basic
import Mathlib.Dynamics.PeriodicPts.Defs

/-! Points of a map whose period is known, and what they reach. -/
namespace Orbit

open Function

variable {α : Type} {f : α → α} {x y : α} {n : Nat}

/-- It is enough to look at the greatest proper divisors. -/
theorem minimalPeriod_eq (returns : f^[n] x = x)
    (early : ∀ p, p.Prime → p ∣ n → f^[n / p] x ≠ x) : minimalPeriod f x = n := by
  have periodic : IsPeriodicPt f n x := returns
  obtain ⟨q,whole⟩ := periodic.minimalPeriod_dvd
  by_contra other
  have more : q ≠ 1 := by
    rintro rfl
    exact other (by rw [whole,Nat.mul_one])
  obtain ⟨p,prime,r,rfl⟩ := Nat.exists_prime_and_dvd more
  have turns : n / p = minimalPeriod f x * r := by
    rw [whole,Nat.mul_left_comm,Nat.mul_div_cancel_left _ prime.pos]
  refine early p prime ⟨minimalPeriod f x * r,by rw [whole,Nat.mul_left_comm]⟩ ?_
  rw [turns]
  exact (isPeriodicPt_minimalPeriod f x).mul_const r

theorem injOn_iterate {N : Nat} (period : minimalPeriod f x = N) :
    Set.InjOn (f^[·] x) (Finset.range N) := by
  intro a small b small' same
  rw [Finset.coe_range,← period] at small small'
  exact iterate_injOn_Iio_minimalPeriod small small' same

/-- A map that keeps as many points as a period is long goes through all of them. -/
theorem image_iterate [DecidableEq α] {S : Finset α} (kept : ∀ y ∈ S, f y ∈ S) (member : x ∈ S)
    (period : minimalPeriod f x = S.card) : (Finset.range S.card).image (f^[·] x) = S := by
  have inside (k : Nat) : f^[k] x ∈ S := by
    induction k with
    | zero => exact member
    | succ k ih =>
      rw [iterate_succ_apply']
      exact kept _ ih
  apply Finset.eq_of_subset_of_card_le
  · intro y reached
    obtain ⟨k,-,rfl⟩ := Finset.mem_image.mp reached
    exact inside k
  · rw [Finset.card_image_of_injOn (injOn_iterate period),Finset.card_range]

/-- Counting over a period is counting over the points. -/
theorem card_filter_iterate [DecidableEq α] {S : Finset α} (kept : ∀ y ∈ S, f y ∈ S) (member : x ∈ S)
    (period : minimalPeriod f x = S.card) (p : α → Prop) [DecidablePred p] :
    ((Finset.range S.card).filter fun k => p (f^[k] x)).card = (S.filter p).card := by
  conv_rhs => rw [← image_iterate kept member period,Finset.filter_image]
  refine (Finset.card_image_of_injOn ?_).symm
  exact (injOn_iterate period).mono (Finset.coe_subset.mpr (Finset.filter_subset ..))

/-- All that a period goes through have that period. -/
theorem minimalPeriod_of_mem [DecidableEq α] {S : Finset α} (kept : ∀ y ∈ S, f y ∈ S) (member : x ∈ S)
    (period : minimalPeriod f x = S.card) (inside : y ∈ S) : minimalPeriod f y = S.card := by
  rw [← image_iterate kept member period] at inside
  obtain ⟨k,-,rfl⟩ := Finset.mem_image.mp inside
  have some' : 0 < minimalPeriod f x := period ▸ Finset.card_pos.mpr ⟨x,member⟩
  rw [minimalPeriod_apply_iterate (minimalPeriod_pos_iff_mem_periodicPts.mp some') k,period]

end Orbit
