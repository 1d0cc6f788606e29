import Mathlib.Data.Nat.ModEq

/-! Addition with end-around carry: what overflows a digit is added back at its low end,
until one digit is left. In base `b + 1` this counts modulo `b`. -/
namespace EndAround

variable {b s t : Nat}

theorem carry_lt (base : 0 < b) (large : b < s) : s % (b + 1) + s / (b + 1) < s := by
  have whole := Nat.mod_add_div s (b + 1)
  have positive : 0 < s / (b + 1) := Nat.div_pos (by omega) (Nat.succ_pos b)
  have grows : s / (b + 1) < (b + 1) * (s / (b + 1)) := by
    calc s / (b + 1) = 1 * (s / (b + 1)) := (Nat.one_mul _).symm
      _ < (b + 1) * (s / (b + 1)) := Nat.mul_lt_mul_of_pos_right (by omega) positive
  omega

def fold (b s : Nat) : Nat :=
  if large : 0 < b ∧ b < s then fold b (s % (b + 1) + s / (b + 1)) else s
termination_by s
decreasing_by exact carry_lt large.1 large.2

theorem fold_of_le (small : s ≤ b) : fold b s = s := by
  rw [fold,dif_neg]
  omega

theorem fold_carry (base : 0 < b) (large : b < s) :
    fold b s = fold b (s % (b + 1) + s / (b + 1)) := by
  rw [fold,dif_pos ⟨base,large⟩]

/-- Folding ends with a single digit. -/
theorem fold_le (base : 0 < b) (s : Nat) : fold b s ≤ b := by
  induction s using Nat.strong_induction_on with
  | _ s ih =>
    rcases Nat.lt_or_ge b s with large | small
    · rw [fold_carry base large]
      exact ih _ (carry_lt base large)
    · rw [fold_of_le small]
      exact small

theorem carry_modEq (b s : Nat) : s % (b + 1) + s / (b + 1) ≡ s [MOD b] := by
  have unit : b + 1 ≡ 1 [MOD b] := by simp [Nat.ModEq]
  have scaled := (unit.mul_right (s / (b + 1))).symm
  rw [Nat.one_mul] at scaled
  calc s % (b + 1) + s / (b + 1) ≡ s % (b + 1) + (b + 1) * (s / (b + 1)) [MOD b] :=
        scaled.add_left _
    _ = s := Nat.mod_add_div s (b + 1)

theorem fold_modEq (base : 0 < b) (s : Nat) : fold b s ≡ s [MOD b] := by
  induction s using Nat.strong_induction_on with
  | _ s ih =>
    rcases Nat.lt_or_ge b s with large | small
    · rw [fold_carry base large]
      exact (ih _ (carry_lt base large)).trans (carry_modEq b s)
    · rw [fold_of_le small]

/-- A sum that is not zero does not fold to zero. -/
theorem fold_pos (base : 0 < b) (positive : 0 < s) : 0 < fold b s := by
  induction s using Nat.strong_induction_on with
  | _ s ih =>
    rcases Nat.lt_or_ge b s with large | small
    · have quotient : 0 < s / (b + 1) := Nat.div_pos (by omega) (Nat.succ_pos b)
      rw [fold_carry base large]
      exact ih _ (carry_lt base large) (by omega)
    · rw [fold_of_le small]
      exact positive

theorem fold_eq_zero (base : 0 < b) : fold b s = 0 ↔ s = 0 := by
  constructor
  · intro zero
    by_contra positive
    exact Nat.ne_of_gt (fold_pos base (Nat.pos_of_ne_zero positive)) zero
  · rintro rfl
    exact fold_of_le (Nat.zero_le b)

/-- Folding gives the one digit that is congruent to the sum and zero just when the sum is. -/
theorem fold_unique {x : Nat} (base : 0 < b) (digit : x ≤ b) (same : x ≡ s [MOD b])
    (zero : x = 0 ↔ s = 0) : fold b s = x := by
  have congruent : fold b s ≡ x [MOD b] := (fold_modEq base s).trans same.symm
  have bound := fold_le base s
  have zero := zero.trans (fold_eq_zero base).symm
  cases x with
  | zero => exact zero.mp rfl
  | succ x =>
    obtain ⟨y,digit'⟩ := Nat.exists_eq_succ_of_ne_zero (mt zero.mpr (Nat.succ_ne_zero x))
    rw [digit'] at congruent bound ⊢
    rw [(Nat.ModEq.add_right_cancel' 1 congruent).eq_of_lt_of_lt bound digit]

theorem fold_add_fold (base : 0 < b) (s t : Nat) : fold b (fold b s + t) = fold b (s + t) := by
  refine (fold_unique base (fold_le base _) ?_ ?_).symm
  · exact (fold_modEq base _).trans ((fold_modEq base s).add_right t)
  · rw [fold_eq_zero base,Nat.add_eq_zero_iff,Nat.add_eq_zero_iff,fold_eq_zero base]

/-- Folding at every addition gives what folding the whole sum does. -/
theorem foldl_fold (base : 0 < b) (digits : List Nat) (s : Nat) :
    digits.foldl (fun sum d => fold b (sum + d)) (fold b s) = fold b (s + digits.sum) := by
  induction digits generalizing s with
  | nil => simp
  | cons d digits ih =>
    rw [List.foldl_cons,fold_add_fold base,ih,List.sum_cons,Nat.add_assoc]

/-- A sum to which the complement of its folding is added folds to the largest digit. -/
theorem fold_complement (base : 0 < b) (s : Nat) : fold b (s + (b - fold b s)) = b := by
  have bound := fold_le base s
  have zero : s + (b - fold b s) ≡ 0 [MOD b] := by
    calc s + (b - fold b s) ≡ fold b s + (b - fold b s) [MOD b] :=
          ((fold_modEq base s).symm).add_right _
      _ = b := Nat.add_sub_cancel' bound
      _ ≡ 0 [MOD b] := by simp [Nat.ModEq]
  have divides : b ∣ fold b (s + (b - fold b s)) :=
    (Nat.modEq_zero_iff_dvd).mp ((fold_modEq base _).trans zero)
  have positive : 0 < s + (b - fold b s) := by
    rcases Nat.eq_zero_or_pos s with rfl | positive
    · rw [fold_of_le (Nat.zero_le b)]
      omega
    · omega
  exact Nat.le_antisymm (fold_le base _) (Nat.le_of_dvd (fold_pos base positive) divides)

end EndAround
