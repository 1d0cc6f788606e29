import NimrodOS.Lib.Checked
import NimrodOS.Lib.Numerals
import NimrodOS.Libc

/-! The routines of `libc/string.c` that write into buffers of their callers, with every
access checked. -/
namespace NimrodOS.Libc

open Checked

/-- The scan for the terminator of the string in a buffer. -/
def chars (buf : Fin n → Byte) : Except OutOfRange (List Byte) :=
  if (contents buf).length < n then .ok (contents buf) else .error ⟨n,n⟩

def strlen (buf : Fin n → Byte) : Except OutOfRange Nat := (chars buf).map List.length

/-- `strcpy(buf + i, s)` -/
def strcpyTo (buf : Fin n → Byte) (i : Nat) (s : List Byte) : Except OutOfRange (Fin n → Byte) :=
  copyIn buf i (s ++ [0])

/-- The bases that there are digits for. -/
abbrev Base := {base : Word // 2 ≤ base.toNat ∧ base.toNat ≤ 36}

def Base.ten : Base := ⟨10,by decide⟩

/-- `digit < 10 ? '0' + digit : 'A' + digit - 10` -/
def digitChar (digit : Word) : Byte :=
  if digit.toInt < 10 then (48 + digit).setWidth 8 else (65 + digit - 10).setWidth 8

theorem div_base_lt {uval : Word} (base : Base) (positive : 0 < uval) :
    (uval / base.val).toNat < uval.toNat := by
  rw [BitVec.toNat_udiv]
  exact Nat.div_lt_self (BitVec.lt_def.mp positive) base.property.1

/-- `while (uval > 0)`, and how many digits `tmp` holds then. -/
def itoaDigits (base : Base) (tmp : Fin 32 → Byte) (i : Nat) (uval : Word) :
    Except OutOfRange ((Fin 32 → Byte) × Nat) :=
  if _positive : 0 < uval then do
    let tmp ← set tmp i (digitChar (uval % base.val))
    itoaDigits base tmp (i + 1) (uval / base.val)
  else .ok (tmp,i)
termination_by uval.toNat
decreasing_by exact div_base_lt base _positive

/-- `while (i > 0)`, and where the terminator goes. -/
def itoaReverse (tmp : Fin 32 → Byte) (buf : Fin n → Byte) (j : Nat) :
    Nat → Except OutOfRange ((Fin n → Byte) × Nat)
  | 0 => .ok (buf,j)
  | i + 1 => do
    let c ← get tmp i
    let buf ← set buf j c
    itoaReverse tmp buf (j + 1) i

/-- `tmp` starts with what the stack holds. -/
def itoa (tmp : Fin 32 → Byte) (value : Word) (buf : Fin n → Byte) (base : Base) :
    Except OutOfRange (Fin n → Byte) :=
  if value = 0 then do
    let buf ← set buf 0 48
    set buf 1 0
  else do
    let negative := value.toInt < 0 ∧ base.val = 10
    let uval := if negative then -value else value
    let (tmp,i) ← itoaDigits base tmp 0 uval
    let (buf,j) ← if negative then (set buf 0 45).map (·,1) else .ok (buf,0)
    let (buf,j) ← itoaReverse tmp buf j i
    set buf j 0

/-! Numerals in these characters. -/

def charDigit (c : Byte) : Option Nat :=
  if 48 ≤ c ∧ c ≤ 57 then some (c.toNat - 48)
  else if 65 ≤ c ∧ c ≤ 90 then some (c.toNat - 55)
  else none

def numeral (base : Base) (n : Nat) : List Byte :=
  Numerals.numeral (fun d => digitChar (BitVec.ofNat 32 d)) base.val.toNat n

/-- A numeral without its sign. -/
def magnitude (s : List Byte) : List Byte := if s.head? = some 45 then s.tail else s

/-- A decimal numeral, with a minus in front of a negative one. -/
def readSigned (s : List Byte) : Option Int :=
  (Numerals.read charDigit 10 (magnitude s)).map fun m : Nat =>
    if s.head? = some 45 then -(m : Int) else (m : Int)

/-- The text that `itoa` leaves. -/
def itoaText (value : Word) (base : Base) : List Byte :=
  if value.toInt < 0 ∧ base.val = 10 then 45 :: numeral base (-value).toNat
  else numeral base value.toNat

theorem charDigit_digitChar : ∀ d < 36, charDigit (digitChar (BitVec.ofNat 32 d)) = some d := by
  decide

theorem digitChar_digits (base : Base) :
    ∀ d < base.val.toNat, charDigit (digitChar (BitVec.ofNat 32 d)) = some d := fun d small =>
  charDigit_digitChar d (Nat.lt_of_lt_of_le small base.property.2)

/-- A character that is no digit is none of a numeral. -/
theorem not_mem_numeral {base : Base} {c : Byte} (other : charDigit c = none) (n : Nat) :
    c ∉ numeral base n := by
  intro member
  obtain ⟨d,inside,rfl⟩ := List.mem_map.mp member
  rw [digitChar_digits base d (Numerals.digits_lt base.property.1 d inside)] at other
  cases other

theorem numeral_noNul (base : Base) (n : Nat) : 0 ∉ numeral base n :=
  not_mem_numeral (by decide) n

theorem numeral_length (base : Base) (v : Word) : (numeral base v.toNat).length ≤ 32 := by
  rw [numeral,Numerals.numeral,List.length_map]
  refine Numerals.digits_length base.property.1 (by decide) ?_
  exact Nat.lt_of_lt_of_le v.isLt (Nat.pow_le_pow_left base.property.1 32)

theorem itoaText_noNul (value : Word) (base : Base) : 0 ∉ itoaText value base := by
  unfold itoaText
  split_ifs
  · exact List.not_mem_cons_of_ne_of_not_mem (by decide) (numeral_noNul _ _)
  · exact numeral_noNul _ _

/-! What the loops store. -/

/-- The digits of a word as `tmp` takes them, the last one first. -/
def reversedChars (base : Base) (uval : Word) : List Byte :=
  (Nat.digits base.val.toNat uval.toNat).map fun d => digitChar (BitVec.ofNat 32 d)

theorem reversedChars_zero (base : Base) : reversedChars base 0 = [] := by
  rw [reversedChars]
  simp

theorem reversedChars_step {base : Base} {uval : Word} (positive : 0 < uval) :
    reversedChars base uval =
      digitChar (uval % base.val) :: reversedChars base (uval / base.val) := by
  have digit : BitVec.ofNat 32 (uval.toNat % base.val.toNat) = uval % base.val := by
    rw [← BitVec.toNat_umod,BitVec.ofNat_toNat,BitVec.setWidth_eq]
  rw [reversedChars,Nat.digits_def' base.property.1 (BitVec.lt_def.mp positive),List.map_cons,digit,
    ← BitVec.toNat_udiv]
  rfl

theorem numeral_eq {base : Base} {uval : Word} (nonzero : uval ≠ 0) :
    numeral base uval.toNat = (reversedChars base uval).reverse := by
  have positive : uval.toNat ≠ 0 := fun zero => nonzero (BitVec.eq_of_toNat_eq zero)
  rw [numeral,Numerals.numeral,Numerals.digits,if_neg positive,List.map_reverse,reversedChars]

theorem itoaDigits_eq (base : Base) (tmp : Fin 32 → Byte) (i : Nat) (uval : Word) :
    itoaDigits base tmp i uval = (copyIn tmp i (reversedChars base uval)).map
      (·,i + (reversedChars base uval).length) := by
  induction bound : uval.toNat using Nat.strong_induction_on generalizing tmp i uval with
  | _ m ih =>
    rw [itoaDigits]
    split_ifs with positive
    · have smaller := div_base_lt base positive
      rw [reversedChars_step positive,copyIn]
      cases stored : set tmp i (digitChar (uval % base.val)) with
      | error e => rfl
      | ok tmp' =>
        rw [ok_bind,ok_bind,ih _ (bound ▸ smaller) tmp' (i + 1) _ rfl,List.length_cons,
          Nat.add_assoc,Nat.add_comm 1]
    · have zero : uval = 0 := BitVec.eq_of_toNat_eq (by
        simpa [BitVec.lt_def] using positive)
      rw [zero,reversedChars_zero]
      rfl

/-- The digits come out of `tmp` in the order that they are written in. -/
theorem itoaReverse_eq {tmp : Fin 32 → Byte} {buf : Fin n → Byte} {i j : Nat} (inside : i ≤ 32) :
    itoaReverse tmp buf j i =
      (copyIn buf j ((List.ofFn tmp).take i).reverse).map (·,j + i) := by
  induction i generalizing buf j with
  | zero => rfl
  | succ i ih =>
    have last : (List.ofFn tmp).take (i + 1) = (List.ofFn tmp).take i ++ [tmp ⟨i,inside⟩] := by
      rw [List.take_add_one,List.getElem?_ofFn,dif_pos (Nat.lt_of_succ_le inside)]
      rfl
    rw [itoaReverse,get_inside (i := i) inside,ok_bind,last,List.reverse_append]
    cases stored : set buf j (tmp ⟨i,inside⟩) with
    | error e =>
      rw [List.reverse_singleton,List.singleton_append,copyIn,stored]
      rfl
    | ok buf' =>
      rw [List.reverse_singleton,List.singleton_append,copyIn,stored,ok_bind,ok_bind,
        ih (Nat.le_of_succ_le inside),Nat.add_right_comm,Nat.add_assoc]

theorem reversedChars_length (base : Base) (uval : Word) : (reversedChars base uval).length ≤ 32 := by
  by_cases zero : uval = 0
  · rw [zero,reversedChars_zero]
    exact Nat.zero_le _
  · have short := numeral_length base uval
    rwa [numeral_eq zero,List.length_reverse] at short

/-- The second loop undoes the order of the first. -/
theorem itoaReverse_digits (base : Base) {uval : Word} (nonzero : uval ≠ 0) (tmp : Fin 32 → Byte) :
    ∃ tmp' i, itoaDigits base tmp 0 uval = .ok (tmp',i) ∧
      ∀ (n : Nat) (buf : Fin n → Byte) (j : Nat), itoaReverse tmp' buf j i =
        (copyIn buf j (numeral base uval.toNat)).map (·,j + (numeral base uval.toNat).length) := by
  have short := reversedChars_length base uval
  generalize chars : reversedChars base uval = cs at short
  obtain ⟨tmp',stored,front⟩ := copyIn_front tmp short
  refine ⟨tmp',cs.length,?_,fun n buf j => ?_⟩
  · rw [itoaDigits_eq,chars,stored,Nat.zero_add]
    rfl
  · rw [itoaReverse_eq short,front,numeral_eq nonzero,chars,List.length_reverse]

theorem itoa_eq (tmp : Fin 32 → Byte) (value : Word) (buf : Fin n → Byte) (base : Base) :
    itoa tmp value buf base = strcpyTo buf 0 (itoaText value base) := by
  unfold itoa strcpyTo itoaText
  by_cases zero : value = 0
  · have text : numeral base (0 : Word).toNat = [48] := rfl
    subst zero
    rw [if_pos rfl,if_neg (by simp),text]
    refine bind_congr fun buf' => ?_
    exact (bind_pure _).symm
  · rw [if_neg zero]
    by_cases negative : value.toInt < 0 ∧ base.val = 10
    · have nonzero : -value ≠ 0 := by simpa using zero
      obtain ⟨tmp',i,digits,reverse⟩ := itoaReverse_digits base nonzero tmp
      simp only [if_pos negative,digits,ok_bind]
      rw [List.cons_append,copyIn]
      cases stored : set buf 0 45 with
      | error e => rfl
      | ok buf' =>
        change itoaReverse tmp' buf' 1 i >>= _ = _
        rw [reverse]
        exact copyIn_snoc
    · obtain ⟨tmp',i,digits,reverse⟩ := itoaReverse_digits base zero tmp
      simp only [if_neg negative,digits,ok_bind,reverse]
      exact copyIn_snoc

theorem strcpyTo_eq (buf : Fin n → Byte) (s : CString) :
    strcpyTo buf 0 s.val = if s.val.length < n then .ok (strcpy buf s) else .error ⟨n,n⟩ := by
  have size : (s.val ++ [0]).length = s.val.length + 1 := List.length_append
  unfold strcpyTo
  split_ifs with fits
  · rw [copyIn_inside (by omega)]
    refine congrArg Except.ok (funext fun i => ?_)
    rw [if_pos (Nat.zero_le _),Nat.sub_zero,strcpy,strncpy]
    rcases Nat.lt_trichotomy i s.val.length with char | ends | behind
    · rw [if_pos (by omega),List.getD_append _ _ _ _ char]
      exact (List.getD_eq_getElem _ _ char).trans (List.getD_eq_getElem _ _ char).symm
    · rw [if_pos (by omega),ends]
      simp
    · rw [if_neg (by omega)]
      exact List.getD_eq_default _ _ (by omega)
  · exact copyIn_outside (Nat.zero_le _) (by omega)

theorem takeWhile_terminated (s t : List Byte) :
    (s ++ 0 :: t).takeWhile (fun c => decide (c ≠ 0)) = s.takeWhile (fun c => decide (c ≠ 0)) := by
  induction s with
  | nil => simp
  | cons c s ih =>
    rw [List.cons_append,List.takeWhile_cons,List.takeWhile_cons,ih]

/-- A buffer holds what was copied to its front, up to the first terminator in it. -/
theorem contents_copyIn (buf : Fin n → Byte) {s : List Byte} (fits : s.length < n) :
    ∃ after, copyIn buf 0 (s ++ [0]) = .ok after ∧ contents after = s.takeWhile (· ≠ 0) := by
  have size : (s ++ [0]).length ≤ n := by simpa using fits
  obtain ⟨after,copied,front⟩ := copyIn_front buf size
  refine ⟨after,copied,?_⟩
  rw [contents,← List.take_append_drop (s ++ [0]).length (List.ofFn after),front,List.append_assoc]
  exact takeWhile_terminated s _

/-! Strings that grow at their end. -/

theorem contents_get {buf : Fin n → Byte} {s : List Byte} (holds : contents buf = s) {i : Nat}
    (inside : i < s.length) : ∃ low : i < n, buf ⟨i,low⟩ = s[i] := by
  subst holds
  have low : i < n := by
    simpa using Nat.lt_of_lt_of_le inside (List.takeWhile_prefix _).length_le
  have char := (List.takeWhile_prefix (fun c => decide (c ≠ 0)) (l := List.ofFn buf)).getElem inside
  rw [List.getElem_ofFn] at char
  exact ⟨low,char.symm⟩

theorem chars_eq {buf : Fin n → Byte} {s : List Byte} (holds : contents buf = s)
    (fits : s.length < n) : chars buf = .ok s := by
  rw [chars,holds,if_pos fits]

theorem strlen_eq {buf : Fin n → Byte} {s : List Byte} (holds : contents buf = s)
    (fits : s.length < n) : strlen buf = .ok s.length := by
  rw [strlen,chars_eq holds fits]
  rfl

/-- A string is copied to where another one ends. -/
theorem strcpyTo_append {buf : Fin n → Byte} {s t : List Byte} (holds : contents buf = s)
    (noNul : 0 ∉ t) (fits : s.length + t.length < n) :
    ∃ after, strcpyTo buf s.length t = .ok after ∧ contents after = s ++ t := by
  have size : (t ++ [0]).length = t.length + 1 := List.length_append
  refine ⟨_,copyIn_inside (by omega),contents_eq ?_ ?_ ?_ ?_⟩
  · exact List.not_mem_append (holds ▸ contents_noNul buf) noNul
  · simpa using fits
  · intro i inside
    rw [List.length_append] at inside
    rcases Nat.lt_or_ge i s.length with before | behind
    · obtain ⟨low,same⟩ := contents_get holds before
      rw [if_neg (Nat.not_le_of_gt before),same,List.getElem_append_left before]
    · have char : i - s.length < t.length := by omega
      rw [if_pos behind,List.getElem_append_right behind,List.getD_append _ _ _ _ char]
      exact List.getD_eq_getElem _ _ char
  · simp

/-! Numerals read back. -/

theorem read_numeral (base : Base) (n : Nat) :
    Numerals.read charDigit base.val.toNat (numeral base n) = some n :=
  Numerals.read_numeral base.property.1 (digitChar_digits base) n

theorem numeral_noLeadingZero (base : Base) (n : Nat) :
    Numerals.NoLeadingZero 48 (numeral base n) :=
  Numerals.numeral_noLeadingZero base.property.1 (digitChar_digits base)

theorem magnitude_numeral (base : Base) (n : Nat) :
    (numeral base n).head? ≠ some 45 ∧ magnitude (numeral base n) = numeral base n := by
  have unsigned : (numeral base n).head? ≠ some 45 := fun head =>
    not_mem_numeral (by decide) n (List.mem_of_head? head)
  exact ⟨unsigned,if_neg unsigned⟩

theorem magnitude_itoaText (value : Word) (base : Base) :
    magnitude (itoaText value base) =
      numeral base (if value.toInt < 0 ∧ base.val = 10 then -value else value).toNat := by
  unfold itoaText
  split_ifs
  · rfl
  · exact (magnitude_numeral base _).2

theorem readSigned_itoaText {value : Word} {base : Base} (ten : base.val = 10) :
    readSigned (itoaText value base) = some value.toInt := by
  have read (n : Nat) : Numerals.read charDigit 10 (numeral base n) = some n := by
    simpa [ten] using read_numeral base n
  rw [readSigned,magnitude_itoaText,read,itoaText]
  have sign := BitVec.toInt_eq_toNat_cond value
  by_cases negative : value.toInt < 0 ∧ base.val = 10
  · have opposite := BitVec.toNat_neg value
    rw [if_pos negative,if_pos negative]
    simp only [List.head?_cons,if_true,Option.map_some,Option.some.injEq]
    omega
  · have nonnegative : ¬value.toInt < 0 := fun low => negative ⟨low,ten⟩
    rw [if_neg negative,if_neg negative,Option.map_some,
      if_neg (magnitude_numeral base _).1,Option.some.injEq]
    omega

theorem itoaText_length (value : Word) (base : Base) : (itoaText value base).length ≤ 32 := by
  unfold itoaText
  split_ifs with negative
  · have ten : base.val.toNat = 10 := by rw [negative.2]; rfl
    have small : (-value).toNat < 10^10 := Nat.lt_trans (-value).isLt (by decide)
    have short : (Numerals.digits 10 (-value).toNat).length ≤ 10 :=
      Numerals.digits_length (by decide) (by decide) small
    rw [List.length_cons,numeral,ten,Numerals.numeral,List.length_map]
    omega
  · exact numeral_length base value

theorem itoa_contents (value : Word) (base : Base) (fits : (itoaText value base).length < n)
    (tmp : Fin 32 → Byte) (buf : Fin n → Byte) :
    ∃ after, itoa tmp value buf base = .ok after ∧ contents after = itoaText value base := by
  have written := strcpyTo_eq buf ⟨_,itoaText_noNul value base⟩
  rw [if_pos fits] at written
  exact ⟨_,(itoa_eq tmp value buf base).trans written,contents_strcpy _ _ fits⟩

/-- The text of a number stands for it, signed in base 10 and unsigned in the others, and is
written whole where the buffer has room for it and its terminator. The digits fit in `tmp`. -/
theorem itoa_numeral (value : Word) (base : Base) : ∃ s : CString,
    (base.val = 10 → readSigned s.val = some value.toInt) ∧
    (base.val ≠ 10 → Numerals.read charDigit base.val.toNat s.val = some value.toNat) ∧
    Numerals.NoLeadingZero 48 (magnitude s.val) ∧ s.val.length ≤ 32 ∧
    ∀ (tmp : Fin 32 → Byte) (n : Nat) (buf : Fin n → Byte), itoa tmp value buf base =
      if s.val.length < n then .ok (strcpy buf s) else .error ⟨n,n⟩ := by
  have unsigned (other : base.val ≠ 10) : itoaText value base = numeral base value.toNat :=
    if_neg fun negative => other negative.2
  refine ⟨⟨itoaText value base,itoaText_noNul value base⟩,readSigned_itoaText,fun other => ?_,?_,
    itoaText_length value base,fun tmp n buf => ?_⟩
  · exact (congrArg _ (unsigned other)).trans (read_numeral base value.toNat)
  · exact (magnitude_itoaText value base).symm ▸ numeral_noLeadingZero base _
  · exact (itoa_eq tmp value buf base).trans (strcpyTo_eq buf ⟨_,itoaText_noNul value base⟩)

end NimrodOS.Libc
