import Mathlib.Algebra.GroupWithZero.Nat
import Mathlib.Data.Fin.Basic
import Mathlib.Data.List.OfFn

/-! Searches that go once round a circular table, starting behind a given slot and
ending with it. -/
namespace Cyclic

variable {n : Nat} {c t y : Fin n} {p : Fin n → Bool}

/-- How many places `t` comes after `c`, a full turn for `c` itself. -/
def gap (c t : Fin n) : Nat := if c < t then t - c else t + n - c

theorem gap_pos : 0 < gap c t := by
  have := c.isLt
  unfold gap
  split
  · rename_i below
    exact Nat.sub_pos_of_lt below
  · omega

theorem gap_le : gap c t ≤ n := by
  have := t.isLt
  unfold gap
  split
  · omega
  · rename_i above
    rw [Fin.lt_def] at above
    omega

theorem gap_lt (apart : c ≠ t) : gap c t < n := by
  have := t.isLt
  have other : (c : Nat) ≠ t := fun same => apart (Fin.ext same)
  unfold gap
  split
  · omega
  · rename_i above
    rw [Fin.lt_def] at above
    omega

/-- Going on from a slot that comes before `t`, the rest of the way is left. -/
theorem gap_of_lt (before : gap c y < gap c t) : gap y t = gap c t - gap c y := by
  have := c.isLt
  have := t.isLt
  have := y.isLt
  simp only [gap,Fin.lt_def] at before ⊢
  split_ifs at before ⊢ <;> omega

variable [NeZero n]

/-- The slot `i` places after `c`. -/
def after (c : Fin n) (i : Nat) : Fin n := Fin.ofNat n (c + i)

/-- The slots in the order of the search. -/
def order (c : Fin n) : List (Fin n) := (List.range' 1 n).map (after c)

def search (c : Fin n) (p : Fin n → Bool) : Option (Fin n) := (order c).find? p

theorem after_gap : after c (gap c t) = t := by
  have := c.isLt
  have := t.isLt
  apply Fin.ext
  simp only [after,gap,Fin.val_ofNat,Fin.lt_def]
  split
  · rw [Nat.mod_eq_of_lt (by omega)]
    omega
  · have turn : (c : Nat) + (t + n - c) = t + n := by omega
    rw [turn,Nat.add_mod_right,Nat.mod_eq_of_lt t.isLt]

theorem gap_after {i : Nat} (pos : 0 < i) (le : i ≤ n) : gap c (after c i) = i := by
  have := c.isLt
  simp only [after,gap,Fin.val_ofNat,Fin.lt_def]
  by_cases wraps : (c : Nat) + i < n
  · rw [Nat.mod_eq_of_lt wraps,if_pos (by omega)]
    omega
  · rw [Nat.mod_eq_sub_mod (by omega),Nat.mod_eq_of_lt (by omega),if_neg (by omega)]
    omega

theorem gap_inj : gap c y = gap c t ↔ y = t :=
  ⟨fun same => by rw [← after_gap (c := c) (t := y),same,after_gap],fun same => by rw [same]⟩

theorem mem_order (c t : Fin n) : t ∈ order c := by
  refine List.mem_map.mpr ⟨gap c t,?_,after_gap⟩
  have : 0 < gap c t := gap_pos
  have : gap c t ≤ n := gap_le
  rw [List.mem_range'_1]
  omega

theorem search_eq_none : search c p = none ↔ ∀ t, p t = false := by
  simp [search,mem_order]

/-- The search returns the nearest slot. -/
theorem search_eq_some (found : search c p = some y) :
    p y ∧ ∀ t, p t → gap c y ≤ gap c t := by
  obtain ⟨holds,i,inside,here,first⟩ := List.find?_eq_some_iff_getElem.mp found
  refine ⟨holds,fun t other => ?_⟩
  simp only [order,List.length_map,List.length_range'] at inside
  simp only [order,List.getElem_map,List.getElem_range',Nat.one_mul] at here first
  rw [← here,gap_after (by omega) (by omega)]
  by_contra nearer
  have pos : 0 < gap c t := gap_pos
  have earlier := first (gap c t - 1) (by omega)
  rw [Nat.add_sub_cancel' pos,after_gap] at earlier
  simp [other] at earlier

/-- Whoever is passed over comes nearer. -/
theorem gap_lt_of_search (found : search c p = some y) (ready : p t) (other : y ≠ t) :
    gap y t < gap c t := by
  have nearest := (search_eq_some found).2 t ready
  have different : gap c y ≠ gap c t := fun same => other (gap_inj.mp same)
  have pos : 0 < gap c y := gap_pos
  have before : gap c y < gap c t := by omega
  rw [gap_of_lt before]
  omega

end Cyclic
