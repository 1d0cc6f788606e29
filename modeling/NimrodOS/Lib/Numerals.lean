import Mathlib.Data.Nat.Digits.Lemmas

/-! Numbers written in a base, the most significant digit first, over any alphabet of
digits. -/
namespace Numerals

variable {α : Type} {base n : Nat} {digit : α → Option Nat} {char : Nat → α} {ds : List Nat}

/-- Horner's rule. -/
def value (base : Nat) (ds : List Nat) : Nat := ds.foldl (fun n d => n * base + d) 0

/-- Zero has a digit too. -/
def digits (base n : Nat) : List Nat := if n = 0 then [0] else (Nat.digits base n).reverse

def numeral (char : Nat → α) (base n : Nat) : List α := (digits base n).map char

/-- The digits that a text starts with. -/
def leading (digit : α → Option Nat) : List α → List Nat
  | [] => []
  | c :: s => match digit c with
    | some d => d :: leading digit s
    | none => []

/-- The number that a text of digits stands for. -/
def read (digit : α → Option Nat) (base : Nat) (s : List α) : Option Nat :=
  let ds := leading digit s
  if s.isEmpty ∨ ds.length ≠ s.length ∨ ∃ d ∈ ds, base ≤ d then none else some (value base ds)

/-- Only the numeral of zero starts with the digit zero. -/
def NoLeadingZero (zero : α) (s : List α) : Prop := s.head? = some zero → s = [zero]

theorem value_snoc (ds : List Nat) (d : Nat) : value base (ds ++ [d]) = value base ds * base + d := by
  simp [value]

theorem value_reverse (ds : List Nat) : value base ds.reverse = Nat.ofDigits base ds := by
  induction ds with
  | nil => rfl
  | cons d ds ih =>
    rw [List.reverse_cons,value_snoc,ih,Nat.ofDigits_cons,Nat.mul_comm,Nat.add_comm]

/-- Words of any width wrap around. -/
theorem foldl_word (w base : Nat) (ds : List Nat) :
    ds.foldl (fun (v : BitVec w) d => v * BitVec.ofNat w base + BitVec.ofNat w d) 0 =
      BitVec.ofNat w (value base ds) := by
  induction ds using List.reverseRecOn with
  | nil => rfl
  | append_singleton ds d ih =>
    rw [value_snoc,List.foldl_append,ih,BitVec.ofNat_add,BitVec.ofNat_mul]
    rfl

/-! The digits of a number. -/

theorem digits_ne_nil (base n : Nat) : digits base n ≠ [] := by
  unfold digits
  split_ifs with zero
  · exact List.cons_ne_nil _ _
  · simpa [Nat.digits_ne_nil_iff_ne_zero] using zero

theorem digits_lt (two : 1 < base) : ∀ d ∈ digits base n, d < base := by
  intro d member
  unfold digits at member
  split_ifs at member
  · simp only [List.mem_singleton] at member
    omega
  · exact Nat.digits_lt_base two (List.mem_reverse.mp member)

theorem value_digits (base n : Nat) : value base (digits base n) = n := by
  unfold digits
  split_ifs with zero
  · simp [value,zero]
  · rw [value_reverse,Nat.ofDigits_digits]

theorem digits_head (head : (digits base n).head? = some 0) : n = 0 := by
  unfold digits at head
  split_ifs at head with zero
  · exact zero
  · have digits := Nat.digits_ne_nil_iff_ne_zero (b := base).mpr zero
    rw [List.head?_reverse,List.getLast?_eq_some_getLast digits] at head
    exact absurd (Option.some.inj head) (Nat.getLast_digit_ne_zero base zero)

theorem digits_length (two : 1 < base) {k : Nat} (one : 0 < k) (small : n < base^k) :
    (digits base n).length ≤ k := by
  unfold digits
  split_ifs
  · exact one
  · rw [List.length_reverse]
    exact (Nat.digits_length_le_iff two n).mpr small

/-! Reading. -/

theorem leading_append {s t : List α} (chars : ∀ d ∈ ds, digit (char d) = some d)
    (same : s = ds.map char ++ t) : leading digit s = ds ++ leading digit t := by
  subst same
  induction ds with
  | nil => rfl
  | cons d ds ih =>
    rw [List.map_cons,List.cons_append,leading,chars d List.mem_cons_self]
    exact congrArg (d :: ·) (ih fun e member => chars e (List.mem_cons_of_mem _ member))

/-- Digits come back as they were written. -/
theorem read_map (some' : ds ≠ []) (small : ∀ d ∈ ds, d < base)
    (chars : ∀ d < base, digit (char d) = some d) :
    read digit base (ds.map char) = some (value base ds) := by
  have same : leading digit (ds.map char) = ds := by
    simpa [leading] using leading_append (t := []) (fun d member => chars d (small d member))
      (List.append_nil _).symm
  rw [read,same]
  refine if_neg ?_
  rintro (none | length | ⟨d,member,large⟩)
  · simp [some'] at none
  · simp at length
  · exact absurd (small d member) (Nat.not_lt_of_ge large)

/-- A numeral reads as its number. -/
theorem read_numeral (two : 1 < base) (chars : ∀ d < base, digit (char d) = some d) (n : Nat) :
    read digit base (numeral char base n) = some n := by
  have read := read_map (digits_ne_nil base n) (digits_lt two) chars
  rwa [value_digits] at read

theorem numeral_noLeadingZero (two : 1 < base) (chars : ∀ d < base, digit (char d) = some d) :
    NoLeadingZero (char 0) (numeral char base n) := by
  intro head
  obtain ⟨d,rest,same⟩ := List.exists_cons_of_ne_nil (digits_ne_nil base n)
  have small : d < base := digits_lt (n := n) two d (same ▸ List.mem_cons_self)
  have char := congrArg digit (Option.some.inj (by simpa [numeral,same] using head))
  rw [chars d small,chars 0 (by omega)] at char
  have first : (digits base n).head? = some 0 := by simp [same,Option.some.inj char]
  have zero := digits_head first
  simp [numeral,digits,zero]

end Numerals
