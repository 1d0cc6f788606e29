import Mathlib.Algebra.GroupWithZero.Nat
import Mathlib.Data.List.OfFn
import Mathlib.Data.List.TakeWhile
import NimrodOS.Lib.ByteMemory

/-! The string and memory routines of `libc/string.c` that the kernel proper uses. A
string is given by its characters without the terminator, a buffer by all its bytes. -/
namespace NimrodOS.Libc

/-! Literals may stand for the indices of octets, of slots and of characters in a name. -/

instance neZero_octets : NeZero 4 := ⟨by decide⟩

instance neZero_slots : NeZero 16 := ⟨by decide⟩

instance neZero_name : NeZero 32 := ⟨by decide⟩

/-- The characters of a NUL-terminated string. -/
abbrev CString := {s : List Byte // 0 ∉ s}

/-- The string that starts at the front of a buffer. -/
def contents (buf : Fin n → Byte) : List Byte := (List.ofFn buf).takeWhile (· ≠ 0)

/-- Beyond its characters a string reads as its terminator. -/
def strcmp : List Byte → List Byte → Int
  | a :: s1, b :: s2 => if a ≠ 0 ∧ a = b then strcmp s1 s2 else a.toNat - b.toNat
  | a :: _, [] => a.toNat
  | [], b :: _ => -b.toNat
  | [], [] => 0

/-- `count` bytes are written: the characters that fit and then zeros. -/
def strncpy (dest : Fin n → Byte) (src : CString) (count : Nat) : Fin n → Byte :=
  fun i => if i < count then src.val.getD i 0 else dest i

/-- The characters and the terminator. -/
def strcpy (dest : Fin n → Byte) (src : CString) : Fin n → Byte :=
  strncpy dest src (src.val.length + 1)

/-- What goes wrong where the kernel would read or write outside of an object. -/
inductive Fault where
  | nullPointer
  | outOfBounds
  deriving DecidableEq, Repr

/-- `memcpy(dest + offset, src, size)` into an array of `n` bytes. -/
def memcpy (dest : Fin n → Byte) (offset : Nat) (src : Nat → Byte) (size : Nat) :
    Except Fault (Fin n → Byte) :=
  if offset + size ≤ n then
    .ok fun i => if offset ≤ i ∧ i < offset + size then src (i - offset) else dest i
  else .error .outOfBounds

/-- `memcpy(dest, src, size)` out of an array of `n` bytes. -/
def memcpyOut (dest : Nat → Byte) (src : Fin n → Byte) (size : Nat) : Except Fault (Nat → Byte) :=
  if size ≤ n then .ok fun i => if inside : i < n then if i < size then src ⟨i,inside⟩ else dest i
    else dest i
  else .error .outOfBounds

theorem contents_noNul (buf : Fin n → Byte) : 0 ∉ contents buf := by
  intro member
  simpa using List.mem_takeWhile_imp member

/-- A buffer that starts with the characters of a string and its terminator. -/
theorem contents_eq {buf : Fin n → Byte} {s : List Byte} (noNul : 0 ∉ s) (fits : s.length < n)
    (chars : ∀ i (inside : i < s.length), buf ⟨i,by omega⟩ = s[i])
    (ends : buf ⟨s.length,fits⟩ = 0) : contents buf = s := by
  have front : (List.ofFn buf).take s.length = s := by
    apply List.ext_getElem
    · simp
      omega
    · intro i left right
      simpa using chars i right
  have back : (List.ofFn buf).drop s.length = 0 :: (List.ofFn buf).drop (s.length + 1) := by
    rw [List.drop_eq_getElem_cons (by simpa using fits)]
    simp [ends]
  have clean : ∀ c ∈ s, decide (c ≠ 0) = true := by
    intro c member
    simpa using ne_of_mem_of_not_mem member noNul
  rw [contents,← List.take_append_drop s.length (List.ofFn buf),front,back,
    List.takeWhile_append_of_pos clean]
  simp

theorem contents_strcpy (dest : Fin n → Byte) (src : CString) (fits : src.val.length < n) :
    contents (strcpy dest src) = src.val := by
  refine contents_eq src.property fits ?_ ?_
  · intro i inside
    rw [strcpy,strncpy,if_pos (Nat.lt_succ_of_lt inside)]
    exact List.getD_eq_getElem _ _ inside
  · rw [strcpy,strncpy,if_pos (Nat.lt_succ_self _)]
    exact List.getD_eq_default _ _ (Nat.le_refl _)

/-- What a bounded copy leaves in a buffer where the byte behind it is cleared. -/
theorem contents_strncpy {count : Nat} (inside : count < n) (old : Fin n → Byte) (src : CString) :
    contents (Function.update (strncpy old src count) ⟨count,inside⟩ 0) = src.val.take count := by
  have length : (src.val.take count).length = min count src.val.length := List.length_take
  have clean : 0 ∉ src.val.take count := fun member => src.property (List.mem_of_mem_take member)
  refine contents_eq clean (by omega) ?_ ?_
  · intro i short
    have before : i < count := by omega
    have char : i < src.val.length := by omega
    have apart : (⟨i,by omega⟩ : Fin n) ≠ ⟨count,inside⟩ := fun same =>
      before.ne (congrArg Fin.val same)
    rw [Function.update_of_ne apart,strncpy,if_pos before,List.getElem_take]
    exact List.getD_eq_getElem _ _ char
  · by_cases whole : (src.val.take count).length = count
    · rw [Function.update_apply,if_pos (Fin.ext whole)]
    · have short : (src.val.take count).length < count := by omega
      rw [Function.update_of_ne fun last => whole (congrArg Fin.val last),strncpy,if_pos short]
      exact List.getD_eq_default _ _ (by simp only [length] at short ⊢; omega)

theorem char_pos {b : Byte} (nonzero : 0 ≠ b) : 0 < b.toNat := by
  refine Nat.pos_of_ne_zero fun zero => nonzero ?_
  have same : (0 : Byte).toNat = b.toNat := zero.symm
  exact BitVec.eq_of_toNat_eq same

/-- Strings without NULs compare equal when they are. -/
theorem strcmp_eq_zero {s1 s2 : List Byte} (left : 0 ∉ s1) (right : 0 ∉ s2) :
    strcmp s1 s2 = 0 ↔ s1 = s2 := by
  induction s1 generalizing s2 with
  | nil =>
    cases s2 with
    | nil => simp [strcmp]
    | cons b s2 =>
      have positive := char_pos (List.ne_of_not_mem_cons right)
      simp only [strcmp,reduceCtorEq,iff_false]
      omega
  | cons a s1 ih =>
    have nonzero := List.ne_of_not_mem_cons left
    cases s2 with
    | nil =>
      have positive := char_pos nonzero
      simp only [strcmp,reduceCtorEq,iff_false]
      omega
    | cons b s2 =>
      rw [strcmp]
      by_cases same : a = b
      · rw [if_pos ⟨nonzero.symm,same⟩,
          ih (List.not_mem_of_not_mem_cons left) (List.not_mem_of_not_mem_cons right)]
        simp [same]
      · rw [if_neg fun both => same both.2]
        have different : a.toNat ≠ b.toNat := fun equal => same (BitVec.eq_of_toNat_eq equal)
        simp only [List.cons.injEq,same,false_and,iff_false]
        omega

end NimrodOS.Libc
