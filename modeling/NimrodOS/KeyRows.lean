import NimrodOS.KeyBuffers

/-! Arrays that hold a terminated string, and what the string routines make of them. -/
namespace NimrodOS.KeyBuffers

open Libc Checked

variable {n i : Nat} {buf dest : Fin n → Byte} {s : List Byte} {c : Byte} {src : CString}

/-- The string and its terminator are inside the array. -/
structure Row (buf : Fin n → Byte) (s : List Byte) : Prop where
  same : contents buf = s
  fits : s.length < n

/-- A front that ends before the list does ends at an element that fails the test. -/
theorem takeWhile_stops {p : Byte → Bool} {l : List Byte} (short : (l.takeWhile p).length < l.length) :
    p l[(l.takeWhile p).length] = false := by
  induction l with
  | nil => exact absurd short (Nat.lt_irrefl 0)
  | cons a l ih =>
    by_cases passes : p a
    · simp only [List.takeWhile_cons_of_pos passes,List.length_cons,List.getElem_cons_succ] at short ⊢
      exact ih (Nat.lt_of_succ_lt_succ short)
    · simpa [List.takeWhile_cons_of_neg passes] using passes

namespace Row

theorem noNul (row : Row buf s) : 0 ∉ s := row.same ▸ contents_noNul buf

theorem of_chars (noNul : 0 ∉ s) (fits : s.length < n)
    (chars : ∀ i (inside : i < s.length), buf ⟨i,inside.trans fits⟩ = s[i])
    (ends : buf ⟨s.length,fits⟩ = 0) : Row buf s := ⟨contents_eq noNul fits chars ends,fits⟩

theorem string (row : Row buf s) : readString buf = .ok ⟨s,row.noNul⟩ := by
  obtain ⟨rfl,fits⟩ := row
  exact if_pos fits

theorem char (row : Row buf s) (inside : i < s.length) :
    buf ⟨i,inside.trans row.fits⟩ = s[i] := by
  obtain ⟨rfl,fits⟩ := row
  have whole : i < (List.ofFn buf).length := by
    rw [List.length_ofFn]
    exact inside.trans fits
  have first : (contents buf)[i] = (List.ofFn buf)[i] :=
    (List.takeWhile_prefix (p := fun c => c ≠ 0) (l := List.ofFn buf)).getElem inside
  rw [first,List.getElem_ofFn]

/-- The byte behind the string. -/
theorem ends (row : Row buf s) : buf ⟨s.length,row.fits⟩ = 0 := by
  obtain ⟨rfl,fits⟩ := row
  have short : (contents buf).length < (List.ofFn buf).length := by
    rw [List.length_ofFn]
    exact fits
  have stops : ¬(List.ofFn buf)[(contents buf).length] ≠ 0 :=
    of_decide_eq_false (takeWhile_stops short)
  rw [List.getElem_ofFn,not_not] at stops
  exact stops

/-- Clearing a byte cuts the string there. -/
theorem cut (row : Row buf s) (inside : i ≤ s.length) :
    Row (Function.update buf ⟨i,inside.trans_lt row.fits⟩ 0) (s.take i) := by
  have length : (s.take i).length = i := List.length_take_of_le inside
  refine .of_chars (fun member => row.noNul (List.mem_of_mem_take member))
    (length.trans_lt (inside.trans_lt row.fits)) ?_ ?_
  · intro j before
    rw [length] at before
    have room := row.fits
    have apart : (⟨j,by omega⟩ : Fin n) ≠ ⟨i,inside.trans_lt row.fits⟩ := fun same =>
      before.ne (congrArg Fin.val same)
    rw [Function.update_of_ne apart,List.getElem_take]
    exact row.char (before.trans_le inside)
  · rw [Function.update_apply,if_pos (Fin.ext length)]

/-- Writing a character and the terminator behind it. -/
theorem push (row : Row buf s) (some' : c ≠ 0) (inside : i ≤ s.length) (room : i + 1 < n) :
    Row (Function.update (Function.update buf ⟨i,Nat.lt_of_succ_lt room⟩ c) ⟨i + 1,room⟩ 0)
      (s.take i ++ [c]) := by
  have length : (s.take i).length = i := List.length_take_of_le inside
  have total : (s.take i ++ [c]).length = i + 1 := by simp [length]
  have noNul : 0 ∉ s.take i ++ [c] := by
    rw [List.mem_append,List.mem_singleton]
    exact not_or.mpr ⟨fun member => row.noNul (List.mem_of_mem_take member),some'.symm⟩
  refine .of_chars noNul (total.trans_lt room) ?_ ?_
  · intro j below
    rw [total] at below
    have last : (⟨j,below.trans room⟩ : Fin n) ≠ ⟨i + 1,room⟩ := fun same =>
      below.ne (congrArg Fin.val same)
    rw [Function.update_of_ne last,List.getElem_append]
    by_cases before : j < i
    · have apart : (⟨j,below.trans room⟩ : Fin n) ≠ ⟨i,Nat.lt_of_succ_lt room⟩ := fun same =>
        before.ne (congrArg Fin.val same)
      rw [Function.update_of_ne apart,dif_pos (before.trans_eq length.symm),List.getElem_take]
      exact row.char (before.trans_le inside)
    · obtain rfl : j = i := by omega
      simp [length]
  · rw [Function.update_apply,if_pos (Fin.ext total)]

end Row

theorem copyString_row (dest : Fin n → Byte) (src : CString) (fits : src.val.length < n) :
    copyString dest src = .ok (strcpy dest src) ∧ Row (strcpy dest src) src.val :=
  ⟨if_pos fits,contents_strcpy dest src fits,fits⟩

theorem copyBounded_at {count : Int} {j : Fin n} (here : count = j) :
    copyBounded dest src count = .ok (strncpy dest src j) := by
  have inside : count ≤ n := by omega
  rw [copyBounded,if_pos inside,here,Int.toNat_natCast]

/-- A bounded copy and the terminator behind it. -/
theorem strncpy_row (dest : Fin n → Byte) (src : CString) (j : Fin n) :
    Row (Function.update (strncpy dest src j) j 0) (src.val.take j) :=
  ⟨contents_strncpy j.isLt dest src,(List.length_take_le ..).trans_lt j.isLt⟩

end NimrodOS.KeyBuffers
