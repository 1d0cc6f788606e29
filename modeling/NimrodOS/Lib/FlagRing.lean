import Mathlib.Data.Fin.Basic
import Mathlib.Data.Nat.ModEq

/-! A ring of slots between a producer and a consumer, where a flag in each slot says whose
it is. The items are numbered in the order in which they come, and a number's slot is its
remainder. -/
namespace FlagRing

variable {n first : Nat} {α : Type} {a : α} {waiting rest : List α}

def slot (n : Nat) [NeZero n] (k : Nat) : Fin n := Fin.ofNat n k

variable [NeZero n] {full full' : Fin n → Prop} {item item' : Fin n → α → Prop}

/-- Numbers less than a turn apart have different slots. -/
theorem slot_ne {i j : Nat} (before : i < j) (close : j < i + n) : slot n i ≠ slot n j := by
  intro same
  have residues : i % n = j % n := congrArg Fin.val same
  have turn : j ≡ i [MOD n] := residues.symm
  have divides := (Nat.modEq_iff_dvd' (Nat.le_of_lt before)).mp turn.symm
  have := Nat.le_of_dvd (by omega) divides
  omega

theorem slot_add_turn (k : Nat) : slot n (k + n) = slot n k := Fin.ext (by simp [slot])

theorem slot_add (k d : Nat) : slot n (k + d) = slot n k + slot n d := by
  apply Fin.ext
  rw [Fin.val_add]
  exact Nat.add_mod k d n

/-- Every slot has a number less than a turn behind any other. -/
theorem exists_slot (first : Nat) (i : Fin n) : ∃ k < n, slot n (first + k) = i := by
  have start : first % n < n := Nat.mod_lt _ (Nat.pos_of_neZero n)
  by_cases before : i.val < first % n
  · refine ⟨i.val + n - first % n,by omega,Fin.ext ?_⟩
    have whole : first + (i.val + n - first % n) = i.val + n * (first / n + 1) := by
      have := Nat.div_add_mod first n
      rw [Nat.mul_succ]
      omega
    have residue : (first + (i.val + n - first % n)) % n = i.val := by
      rw [whole,Nat.add_mul_mod_self_left,Nat.mod_eq_of_lt i.isLt]
    exact residue
  · refine ⟨i.val - first % n,by omega,Fin.ext ?_⟩
    have whole : first + (i.val - first % n) = i.val + n * (first / n) := by
      have := Nat.div_add_mod first n
      omega
    have residue : (first + (i.val - first % n)) % n = i.val := by
      rw [whole,Nat.add_mul_mod_self_left,Nat.mod_eq_of_lt i.isLt]
    exact residue

/-- The waiting items, numbered on from `first`, are in their slots, and the flags are set
for them only. -/
structure Fills (full : Fin n → Prop) (item : Fin n → α → Prop) (first : Nat)
    (waiting : List α) : Prop where
  room : waiting.length ≤ n
  filled : ∀ k (inside : k < waiting.length),
    full (slot n (first + k)) ∧ item (slot n (first + k)) waiting[k]
  free : ∀ k, waiting.length ≤ k → k < n → ¬full (slot n (first + k))

namespace Fills

theorem empty (none : ∀ i, ¬full i) : Fills full item first ([] : List α) :=
  ⟨Nat.zero_le n,fun _ inside => absurd inside (Nat.not_lt_zero _),fun _ _ _ => none _⟩

theorem head (fills : Fills full item first (a :: rest)) :
    full (slot n first) ∧ item (slot n first) a := fills.filled 0 (Nat.succ_pos _)

theorem all (fills : Fills full item first waiting) (whole : waiting.length = n) (i : Fin n) :
    full i := by
  obtain ⟨k,small,rfl⟩ := exists_slot first i
  exact (fills.filled k (whole ▸ small)).1

theorem fill (fills : Fills full item first waiting) (room : waiting.length < n)
    (here : full' (slot n (first + waiting.length)) ∧ item' (slot n (first + waiting.length)) a)
    (others : ∀ i, i ≠ slot n (first + waiting.length) →
      (full' i ↔ full i) ∧ ∀ b, item i b → item' i b) :
    Fills full' item' first (waiting ++ [a]) := by
  have size : (waiting ++ [a]).length = waiting.length + 1 := List.length_append
  constructor
  · rwa [size]
  · intro k inside
    rw [size] at inside
    by_cases last : k = waiting.length
    · subst last
      simpa using here
    · have old : k < waiting.length := by omega
      have other := others _ (slot_ne (n := n) (Nat.add_lt_add_left old first) (by omega))
      rw [List.getElem_append_left old]
      exact ⟨other.1.mpr (fills.filled k old).1,other.2 _ (fills.filled k old).2⟩
  · intro k behind small
    rw [size] at behind
    have apart : slot n (first + waiting.length) ≠ slot n (first + k) :=
      slot_ne (by omega) (by omega)
    rw [(others _ apart.symm).1]
    exact fills.free k (by omega) small

theorem take (fills : Fills full item first (a :: rest)) (here : ¬full' (slot n first))
    (others : ∀ i, i ≠ slot n first → (full' i ↔ full i) ∧ ∀ b, item i b → item' i b) :
    Fills full' item' (first + 1) rest := by
  have room := fills.room
  rw [List.length_cons] at room
  constructor
  · omega
  · intro k inside
    have apart : slot n first ≠ slot n (first + 1 + k) := slot_ne (by omega) (by omega)
    have there := fills.filled (k + 1) (Nat.succ_lt_succ inside)
    have number : first + 1 + k = first + (k + 1) := by omega
    rw [number] at apart ⊢
    exact ⟨(others _ apart.symm).1.mpr there.1,(others _ apart.symm).2 _ there.2⟩
  · intro k behind small
    by_cases last : k + 1 = n
    · have turn : first + 1 + k = first + n := by omega
      rwa [turn,slot_add_turn]
    · have apart : slot n first ≠ slot n (first + 1 + k) := slot_ne (by omega) (by omega)
      have number : first + 1 + k = first + (k + 1) := by omega
      rw [(others _ apart.symm).1,number]
      exact fills.free (k + 1) (Nat.succ_le_succ behind) (by omega)

end Fills

/-- The same with a slot to spare. -/
structure Holds (full : Fin n → Prop) (item : Fin n → α → Prop) (first : Nat)
    (waiting : List α) : Prop where
  room : waiting.length < n
  filled : ∀ k (inside : k < waiting.length),
    full (slot n (first + k)) ∧ item (slot n (first + k)) waiting[k]
  free : ∀ k, waiting.length ≤ k → k < n → ¬full (slot n (first + k))

namespace Holds

theorem empty (none : ∀ i, ¬full i) : Holds full item first ([] : List α) :=
  ⟨Nat.pos_of_neZero n,fun _ inside => absurd inside (Nat.not_lt_zero _),fun _ _ _ => none _⟩

theorem head (holds : Holds full item first (a :: rest)) :
    full (slot n first) ∧ item (slot n first) a := holds.filled 0 (Nat.succ_pos _)

/-- The consumer sees by the flag whether anything waits. -/
theorem full_iff (holds : Holds full item first waiting) : full (slot n first) ↔ waiting ≠ [] := by
  cases waiting with
  | nil =>
    have none : ¬full (slot n first) := holds.free 0 (Nat.le_refl 0) (Nat.pos_of_neZero n)
    exact iff_of_false none (not_not_intro rfl)
  | cons a rest => exact iff_of_true holds.head.1 (List.cons_ne_nil a rest)

theorem toFills (holds : Holds full item first waiting) : Fills full item first waiting :=
  ⟨Nat.le_of_lt holds.room,holds.filled,holds.free⟩

theorem of_fills (fills : Fills full item first waiting) (room : waiting.length < n) :
    Holds full item first waiting := ⟨room,fills.filled,fills.free⟩

/-- The producer fills the slot behind the waiting items. -/
theorem fill (holds : Holds full item first waiting) (room : waiting.length + 1 < n)
    (here : full' (slot n (first + waiting.length)) ∧ item' (slot n (first + waiting.length)) a)
    (others : ∀ i, i ≠ slot n (first + waiting.length) →
      (full' i ↔ full i) ∧ ∀ b, item i b → item' i b) :
    Holds full' item' first (waiting ++ [a]) := by
  refine of_fills (holds.toFills.fill holds.room here others) ?_
  rwa [List.length_append]

/-- The consumer gives the first slot back. -/
theorem take (holds : Holds full item first (a :: rest)) (here : ¬full' (slot n first))
    (others : ∀ i, i ≠ slot n first → (full' i ↔ full i) ∧ ∀ b, item i b → item' i b) :
    Holds full' item' (first + 1) rest :=
  of_fills (holds.toFills.take here others) (Nat.lt_of_succ_lt holds.room)

end Holds

end FlagRing
