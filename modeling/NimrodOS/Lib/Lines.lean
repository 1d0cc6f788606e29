import Mathlib.Data.List.Basic

/-! A text as a list of lines. -/
namespace Lines

variable {α : Type} {sep c : α} {s l : List α} {ls : List (List α)} {k : Nat}

/-- The text ends with a separator, or there is no line without one. -/
def Closed (sep : α) (s : List α) : Prop := s = [] ∨ s.getLast? = some sep

theorem closed_line (l s : List α) : Closed sep (l ++ sep :: s) ↔ Closed sep s := by
  cases s with
  | nil => exact iff_of_true (.inr (by simp)) (.inl rfl)
  | cons d s => simp [Closed,List.getLast?_append,List.getLast?_cons_cons]

theorem closed_last (clean : sep ∉ l) : Closed sep l ↔ l = [] := by
  refine ⟨fun closed => closed.elim id fun last => ?_,.inl⟩
  exact absurd (List.mem_of_getLast? last) clean

variable [DecidableEq α]

instance (sep : α) (s : List α) : Decidable (Closed sep s) :=
  inferInstanceAs (Decidable (s = [] ∨ s.getLast? = some sep))

/-- The pieces between separators. A last piece without one counts when it is not empty. -/
def lines (sep : α) : List α → List (List α)
  | [] => []
  | c :: s =>
    if c = sep then [] :: lines sep s
    else
      match lines sep s with
      | [] => [[c]]
      | l :: ls => (c :: l) :: ls

/-- Each line with its separator. -/
def ended (sep : α) (ls : List (List α)) : List α := ls.flatMap (· ++ [sep])

theorem lines_sep (s : List α) : lines sep (sep :: s) = [] :: lines sep s := if_pos rfl

/-- A line up to its separator. -/
theorem lines_append (clean : sep ∉ l) (s : List α) : lines sep (l ++ sep :: s) = l :: lines sep s := by
  induction l with
  | nil => exact lines_sep s
  | cons c l ih =>
    obtain ⟨other,clean⟩ := not_or.mp (mt List.mem_cons.mpr clean)
    rw [List.cons_append,lines,if_neg (Ne.symm other),ih clean]

/-- A last line without a separator. -/
theorem lines_last (clean : sep ∉ l) (some' : l ≠ []) : lines sep l = [l] := by
  induction l with
  | nil => exact absurd rfl some'
  | cons c l ih =>
    obtain ⟨other,clean⟩ := not_or.mp (mt List.mem_cons.mpr clean)
    rw [lines,if_neg (Ne.symm other)]
    cases l with
    | nil => rfl
    | cons d l => rw [ih clean (List.cons_ne_nil d l)]

/-- A text begins with a line and its separator, or it is a last line without one. -/
theorem cases_line (sep : α) (s : List α) :
    sep ∉ s ∨ ∃ l rest, s = l ++ sep :: rest ∧ sep ∉ l := by
  by_cases member : sep ∈ s
  · obtain ⟨l,rest,rfl,clean⟩ := List.eq_append_cons_of_mem member
    exact .inr ⟨l,rest,rfl,clean⟩
  · exact .inl member

/-- Line by line. -/
theorem line_induction (sep : α) {motive : List α → Prop} (last : ∀ l, sep ∉ l → motive l)
    (line : ∀ l rest, sep ∉ l → motive rest → motive (l ++ sep :: rest)) (s : List α) : motive s := by
  induction size : s.length using Nat.strongRecOn generalizing s with
  | ind n ih =>
    rcases cases_line sep s with clean | ⟨l,rest,rfl,clean⟩
    · exact last s clean
    · refine line l rest clean (ih rest.length ?_ rest rfl)
      rw [← size,List.length_append,List.length_cons]
      omega

/-- Ending every line closes the text. -/
theorem ended_lines (sep : α) (s : List α) :
    ended sep (lines sep s) = if Closed sep s then s else s ++ [sep] := by
  induction s using line_induction sep with
  | last l clean =>
    simp only [closed_last clean]
    by_cases empty : l = []
    · subst empty
      rfl
    · rw [if_neg empty,lines_last clean empty,ended,List.flatMap_cons,List.flatMap_nil,List.append_nil]
  | line l rest clean ih =>
    simp only [closed_line]
    rw [lines_append clean,ended,List.flatMap_cons,← ended,ih]
    split_ifs <;> simp

theorem lines_length (sep : α) (s : List α) :
    (lines sep s).length = s.count sep + if Closed sep s then 0 else 1 := by
  induction s using line_induction sep with
  | last l clean =>
    simp only [closed_last clean,List.count_eq_zero.mpr clean,Nat.zero_add]
    by_cases empty : l = []
    · rw [if_pos empty,empty]
      rfl
    · rw [if_neg empty,lines_last clean empty]
      rfl
  | line l rest clean ih =>
    simp only [closed_line]
    rw [lines_append clean,List.length_cons,ih,List.count_append,List.count_eq_zero.mpr clean,
      List.count_cons_self]
    omega

theorem not_mem_lines (member : l ∈ lines sep s) : sep ∉ l := by
  induction s using line_induction sep with
  | last s clean =>
    by_cases empty : s = []
    · subst empty
      cases member
    · rw [lines_last clean empty,List.mem_singleton] at member
      exact member ▸ clean
  | line s rest clean ih =>
    rw [lines_append clean] at member
    rcases List.mem_cons.mp member with rfl | member
    · exact clean
    · exact ih member

theorem count_ended (clean : ∀ l ∈ ls, sep ∉ l) : (ended sep ls).count sep = ls.length := by
  induction ls with
  | nil => rfl
  | cons l ls ih =>
    obtain ⟨first,rest⟩ := List.forall_mem_cons.mp clean
    rw [ended,List.flatMap_cons,List.count_append,List.count_append,List.count_eq_zero.mpr first,
      ← ended,ih rest,List.length_cons,List.count_singleton_self]
    omega

/-- Lines that are put one behind the other are found again. -/
theorem lines_ended (clean : ∀ l ∈ ls, sep ∉ l) : lines sep (ended sep ls) = ls := by
  induction ls with
  | nil => rfl
  | cons l ls ih =>
    obtain ⟨first,rest⟩ := List.forall_mem_cons.mp clean
    rw [ended,List.flatMap_cons,← ended,List.append_assoc,List.singleton_append,lines_append first,ih rest]

/-! The front and the back of a text, by numbers of separators. -/

/-- Up to the separator of this number. -/
def takeLines (sep : α) : Nat → List α → List α
  | 0,_ => []
  | _ + 1,[] => []
  | k + 1,c :: s => c :: takeLines sep (if c = sep then k else k + 1) s

/-- Behind the separator of this number. -/
def dropLines (sep : α) : Nat → List α → List α
  | 0,s => s
  | _ + 1,[] => []
  | k + 1,c :: s => dropLines sep (if c = sep then k else k + 1) s

theorem takeLines_line (clean : sep ∉ l) (k : Nat) (s : List α) :
    takeLines sep (k + 1) (l ++ sep :: s) = l ++ sep :: takeLines sep k s := by
  induction l with
  | nil => rw [List.nil_append,takeLines,if_pos rfl,List.nil_append]
  | cons c l ih =>
    obtain ⟨other,clean⟩ := not_or.mp (mt List.mem_cons.mpr clean)
    rw [List.cons_append,takeLines,if_neg (Ne.symm other),ih clean,List.cons_append]

theorem dropLines_line (clean : sep ∉ l) (k : Nat) (s : List α) :
    dropLines sep (k + 1) (l ++ sep :: s) = dropLines sep k s := by
  induction l with
  | nil => rw [List.nil_append,dropLines,if_pos rfl]
  | cons c l ih =>
    obtain ⟨other,clean⟩ := not_or.mp (mt List.mem_cons.mpr clean)
    rw [List.cons_append,dropLines,if_neg (Ne.symm other),ih clean]

theorem takeLines_last (clean : sep ∉ l) (k : Nat) : takeLines sep (k + 1) l = l := by
  induction l with
  | nil => rfl
  | cons c l ih =>
    obtain ⟨other,clean⟩ := not_or.mp (mt List.mem_cons.mpr clean)
    rw [takeLines,if_neg (Ne.symm other),ih clean]

theorem dropLines_last (clean : sep ∉ l) (k : Nat) : dropLines sep (k + 1) l = [] := by
  induction l with
  | nil => rfl
  | cons c l ih =>
    obtain ⟨other,clean⟩ := not_or.mp (mt List.mem_cons.mpr clean)
    rw [dropLines,if_neg (Ne.symm other),ih clean]

/-- The front has the first lines, or it is the whole text. -/
theorem takeLines_eq (sep : α) (k : Nat) (s : List α) : takeLines sep k s =
    if k ≤ s.count sep then ended sep ((lines sep s).take k) else s := by
  induction s using line_induction sep generalizing k with
  | last l clean =>
    rw [List.count_eq_zero.mpr clean]
    cases k with
    | zero => cases l <;> rfl
    | succ k => exact takeLines_last clean k
  | line l rest clean ih =>
    rw [List.count_append,List.count_eq_zero.mpr clean,List.count_cons_self,Nat.zero_add,
      lines_append clean]
    cases k with
    | zero => cases l <;> rfl
    | succ k =>
      rw [takeLines_line clean,ih]
      simp only [Nat.succ_le_succ_iff]
      split_ifs <;> simp [ended]

/-- The back has the other lines. -/
theorem lines_dropLines (sep : α) (k : Nat) (s : List α) :
    lines sep (dropLines sep k s) = (lines sep s).drop k := by
  induction s using line_induction sep generalizing k with
  | last l clean =>
    cases k with
    | zero => rw [dropLines,List.drop_zero]
    | succ k =>
      rw [dropLines_last clean]
      by_cases empty : l = []
      · rw [empty]
        rfl
      · rw [lines_last clean empty,List.drop_succ_cons,List.drop_nil]
        rfl
  | line l rest clean ih =>
    cases k with
    | zero => rw [dropLines,List.drop_zero]
    | succ k => rw [dropLines_line clean,ih,lines_append clean,List.drop_succ_cons]

/-- With a line left the back ends as the text does. -/
theorem closed_dropLines (few : k ≤ s.count sep) : Closed sep (dropLines sep k s) ↔ Closed sep s := by
  induction s using line_induction sep generalizing k with
  | last l clean =>
    rw [List.count_eq_zero.mpr clean] at few
    obtain rfl := Nat.le_zero.mp few
    rw [dropLines]
  | line l rest clean ih =>
    rw [List.count_append,List.count_eq_zero.mpr clean,List.count_cons_self,Nat.zero_add] at few
    cases k with
    | zero => rw [dropLines]
    | succ k => rw [dropLines_line clean,ih (Nat.le_of_succ_le_succ few),closed_line]

end Lines
