import NimrodOS.LibcBuffers
import NimrodOS.Net
import NimrodOS.Shell

/-! Hexadecimal digits: the table of `net_format_mac` in `net/net.c`, and `parse_hex` of
`shell/shell.c`. -/
namespace NimrodOS.Hexadecimal

open Checked Libc
open Shell (text)
open Net (Mac)

/-- The value of a digit in either case. -/
def hexDigit (c : Byte) : Option Nat :=
  if 48 ≤ c ∧ c ≤ 57 then some (c.toNat - 48)
  else if 97 ≤ c ∧ c ≤ 102 then some (c.toNat - 97 + 10)
  else if 65 ≤ c ∧ c ≤ 70 then some (c.toNat - 65 + 10)
  else none

/-! Addresses of cards. -/

/-- `static const char hex[]`, with its terminator. -/
def hex : Fin 13 → Byte := fun i => (text "0123456789AB").getD i 0

/-- A round of the loop. -/
def formatByte (mac : Mac) (buf : Fin n → Byte) (i : Fin 6) : Except OutOfRange (Fin n → Byte) := do
  let high ← get hex ((mac.get i >>> 4) &&& 0xF).toNat
  let buf ← set buf (i * 3 : Nat) high
  let low ← get hex (mac.get i &&& 0xF).toNat
  let buf ← set buf (i * 3 + 1 : Nat) low
  set buf (i * 3 + 2 : Nat) (if i.val < 5 then 58 else 0)

def netFormatMac (mac : Mac) (buf : Fin n → Byte) : Except OutOfRange (Fin n → Byte) :=
  (List.finRange 6).foldlM (formatByte mac) buf

/-- Bytes of two digits each, with colons in between. -/
def decodeMac : List Byte → Option (List Byte)
  | high :: low :: s => do
    let b := BitVec.ofNat 8 ((← hexDigit high) * 16 + (← hexDigit low))
    match s with
    | [] => return [b]
    | c :: s => if c = 58 then return b :: (← decodeMac s) else none
  | _ => none

/-- The text of an address, in every buffer with room for it. -/
def FormatsMac (mac : Mac) : Prop := ∀ (n : Nat) (buf : Fin n → Byte), 18 ≤ n →
  ∃ after, netFormatMac mac buf = .ok after ∧ (contents after).length = 17 ∧
    decodeMac (contents after) = some mac.toList

/-- Both digits of the byte are in the table. -/
def InTable (b : Byte) : Prop := b.toNat / 16 < 12 ∧ b.toNat % 16 < 12

instance : DecidablePred InTable := fun _ => inferInstanceAs (Decidable (_ ∧ _))

/-! Arguments. -/

def parseHexLoop (val : Word) : List Byte → Word
  | [] => val
  | c :: s =>
    let val := val <<< 4
    if 48 ≤ c ∧ c ≤ 57 then parseHexLoop (val ||| (c.setWidth 32 - 48)) s
    else if 97 ≤ c ∧ c ≤ 102 then parseHexLoop (val ||| (c.setWidth 32 - 97 + 10)) s
    else if 65 ≤ c ∧ c ≤ 70 then parseHexLoop (val ||| (c.setWidth 32 - 65 + 10)) s
    else val

/-- What follows an optional `0x`. -/
def behindPrefix (s : List Byte) : List Byte := if s[0]? = some 48 ∧ s[1]? = some 120 then s.drop 2 else s

def parseHex (s : List Byte) : Word := parseHexLoop 0 (behindPrefix s)

/-- The value of the longest prefix of digits. -/
def prefixValue (s : List Byte) : Nat := Numerals.value 16 (Numerals.leading hexDigit (behindPrefix s))

/-- Only digits stand there. -/
def AllDigits (s : List Byte) : Prop := ∀ c ∈ behindPrefix s, hexDigit c ≠ none

instance : DecidablePred AllDigits := fun _ => inferInstanceAs (Decidable (∀ c ∈ _,_))

example : parseHex (text "0x12") = 0x12 := by decide

example : parseHex (text "12g") = 0x120 := by decide

theorem shift_eq (val : Word) : val <<< 4 = val * 16 := by
  rw [BitVec.shiftLeft_eq_mul_twoPow]
  rfl

/-- A digit goes below the shifted value. -/
theorem shift_or {val d : Word} (small : d.toNat < 16) : val <<< 4 ||| d = val * 16 + d := by
  have shifted : (val <<< 4).toNat = (val.toNat % 2^28) <<< 4 := by
    rw [BitVec.toNat_shiftLeft,Nat.shiftLeft_eq,Nat.shiftLeft_eq]
    omega
  have sum : (val <<< 4).toNat + d.toNat < 2^32 := by
    rw [shifted,Nat.shiftLeft_eq]
    omega
  rw [← shift_eq]
  apply BitVec.eq_of_toNat_eq
  rw [BitVec.toNat_or,BitVec.toNat_add,Nat.mod_eq_of_lt sum,shifted,
    Nat.shiftLeft_add_eq_or_of_lt small]

theorem parseHexLoop_digit {c : Byte} {d : Nat} (digit : hexDigit c = some d) (val : Word)
    (s : List Byte) : parseHexLoop val (c :: s) = parseHexLoop (val * 16 + BitVec.ofNat 32 d) s := by
  have wide : (c.setWidth 32).toNat = c.toNat := BitVec.toNat_setWidth_of_le (by decide)
  have added {e : Word} (small : e.toNat < 16) (same : e.toNat = d) :
      val <<< 4 ||| e = val * 16 + BitVec.ofNat 32 d := by
    rw [shift_or small,← same,BitVec.ofNat_toNat,BitVec.setWidth_eq]
  unfold hexDigit at digit
  rw [parseHexLoop]
  split_ifs at digit ⊢ with decimal lower upper
  all_goals
    obtain rfl := Option.some.inj digit
    refine congrArg (parseHexLoop · s) (added ?_ ?_)
  · bv_omega
  · bv_omega
  · bv_omega
  · bv_omega
  · bv_omega
  · bv_omega

theorem parseHexLoop_none {c : Byte} (other : hexDigit c = none) (val : Word) (s : List Byte) :
    parseHexLoop val (c :: s) = val * 16 := by
  unfold hexDigit at other
  split_ifs at other with decimal lower upper
  rw [parseHexLoop]
  simp only [if_neg decimal,if_neg lower,if_neg upper,shift_eq]

/-- The loop shifts once more in front of a character that is no digit. -/
theorem parseHexLoop_eq (val : Word) (s : List Byte) : parseHexLoop val s =
    (Numerals.leading hexDigit s).foldl (fun v d => v * 16 + BitVec.ofNat 32 d) val *
      if ∀ c ∈ s, hexDigit c ≠ none then 1 else 16 := by
  induction s generalizing val with
  | nil => simp [parseHexLoop,Numerals.leading]
  | cons c s ih =>
    rw [Numerals.leading]
    cases digit : hexDigit c with
    | none => simp [parseHexLoop_none digit,digit]
    | some d => simp [parseHexLoop_digit digit,ih,digit]

theorem times_sixteen (val : Word) : val * 16 = val ↔ val = 0 := by
  refine ⟨fun same => ?_,fun zero => by rw [zero]; rfl⟩
  bv_omega

theorem parseHex_eq (s : List Byte) : parseHex s =
    BitVec.ofNat 32 (prefixValue s) * if AllDigits s then 1 else 16 := by
  have value := Numerals.foldl_word 32 16 (Numerals.leading hexDigit (behindPrefix s))
  exact (parseHexLoop_eq 0 (behindPrefix s)).trans (congrArg (· * _) value)

/-- The value of the digits is returned where nothing follows them, and where a shift does not
change it. -/
theorem parseHex_value_iff (s : CString) :
    parseHex s.val = BitVec.ofNat 32 (prefixValue s.val) ↔
      AllDigits s.val ∨ 2^32 ∣ prefixValue s.val := by
  have zero : BitVec.ofNat 32 (prefixValue s.val) = 0 ↔ 2^32 ∣ prefixValue s.val := by
    rw [Nat.dvd_iff_mod_eq_zero]
    bv_omega
  rw [parseHex_eq]
  split_ifs with digits
  · simp [digits]
  · rw [times_sixteen,zero]
    simp [digits]

/-- In `12g` the digits stand for 18. -/
theorem parseHex_shifts :
    ¬∀ s : CString, parseHex s.val = BitVec.ofNat 32 (prefixValue s.val) := by
  intro returned
  exact absurd (returned ⟨text "12g",by decide⟩) (by decide)

/-! The text of an address. -/

variable {mac : Mac}

def hexChar (d : Nat) : Byte := (text "0123456789AB").getD d 0

/-- What a round stores. -/
def macPiece (mac : Mac) (i : Fin 6) : List Byte :=
  [hexChar ((mac.get i).toNat / 16),hexChar ((mac.get i).toNat % 16),if i.val < 5 then 58 else 0]

theorem nibbles (b : Byte) : ((b >>> 4) &&& 0xF).toNat = b.toNat / 16 ∧ (b &&& 0xF).toNat = b.toNat % 16 := by
  have mask (n : Nat) : n &&& 15 = n % 16 := Nat.and_two_pow_sub_one_eq_mod n 4
  have small := b.isLt
  refine ⟨?_,mask _⟩
  rw [BitVec.toNat_and,BitVec.toNat_ushiftRight,Nat.shiftRight_eq_div_pow]
  exact (mask _).trans (Nat.mod_eq_of_lt (by omega))

theorem get_hex {d : Nat} (inside : d < 13) : get hex d = .ok (hexChar d) := get_inside inside

theorem get_hex_ok {d : Nat} {c : Byte} (read : get hex d = .ok c) : d < 13 := by
  by_contra outside
  rw [Checked.get,index,dif_neg (by omega)] at read
  cases read

/-- A round that does not fault has read both digits inside of the table. -/
theorem formatByte_reads {buf after : Fin n → Byte} {i : Fin 6} (done : formatByte mac buf i = .ok after) :
    (mac.get i).toNat / 16 < 13 ∧ (mac.get i).toNat % 16 < 13 := by
  obtain ⟨high,first,rest⟩ := bind_ok.mp done
  obtain ⟨buf',-,rest⟩ := bind_ok.mp rest
  obtain ⟨low,second,-⟩ := bind_ok.mp rest
  rw [(nibbles (mac.get i)).1] at first
  rw [(nibbles (mac.get i)).2] at second
  exact ⟨get_hex_ok first,get_hex_ok second⟩

theorem formatByte_copyIn {i : Fin 6} (high : (mac.get i).toNat / 16 < 13)
    (low : (mac.get i).toNat % 16 < 13) (buf : Fin n → Byte) :
    formatByte mac buf i = copyIn buf (i * 3) (macPiece mac i) := by
  obtain ⟨first,second⟩ := nibbles (mac.get i)
  rw [formatByte,first,second,get_hex high,get_hex low,ok_bind,macPiece,copyIn]
  refine bind_congr fun buf' => ?_
  rw [ok_bind,copyIn]
  refine bind_congr fun buf'' => ?_
  exact (bind_pure _).symm

theorem netFormatMac_copyIn (inside : ∀ i, (mac.get i).toNat / 16 < 13 ∧ (mac.get i).toNat % 16 < 13)
    (buf : Fin n → Byte) :
    netFormatMac mac buf = copyIn buf 0 ((List.finRange 6).flatMap (macPiece mac)) := by
  have sizes (i : Fin 6) : (macPiece mac i).length = 3 := rfl
  refine foldlM_copyIn (i := 0) sizes fun k low buf => ?_
  have place : (List.finRange 6)[k].val = k := by simp
  have round := formatByte_copyIn (i := (List.finRange 6)[k]) (inside _).1 (inside _).2 buf
  rwa [place,Nat.mul_comm,← Nat.zero_add (3 * k)] at round

/-- The characters in front of the terminator. -/
def macChars (mac : Mac) : List Byte :=
  (List.finRange 6).flatMap (fun i => (macPiece mac i).take (if i.val < 5 then 3 else 2))

theorem macPieces_eq (mac : Mac) :
    (List.finRange 6).flatMap (macPiece mac) = macChars mac ++ [0] := rfl

theorem macChars_length (mac : Mac) : (macChars mac).length = 17 := rfl

theorem digits_mem (mac : Mac) (i : Fin 6) : hexChar ((mac.get i).toNat / 16) ∈ macChars mac ∧
    hexChar ((mac.get i).toNat % 16) ∈ macChars mac := by
  have two : 2 ≤ if i.val < 5 then 3 else 2 := by split_ifs <;> omega
  have front {c : Byte} (member : c ∈ (macPiece mac i).take 2) : c ∈ macChars mac :=
    List.mem_flatMap.mpr ⟨i,List.mem_finRange i,(List.take_prefix_take_left two).mem member⟩
  exact ⟨front List.mem_cons_self,front (List.mem_cons_of_mem _ List.mem_cons_self)⟩

theorem netFormatMac_reads {buf after : Fin n → Byte} (done : netFormatMac mac buf = .ok after) (i : Fin 6) :
    (mac.get i).toNat / 16 < 13 ∧ (mac.get i).toNat % 16 < 13 := by
  obtain ⟨buf,after,round⟩ := foldlM_mem done i (List.mem_finRange i)
  exact formatByte_reads round

theorem netFormatMac_contents (inside : ∀ i, (mac.get i).toNat / 16 < 13 ∧ (mac.get i).toNat % 16 < 13)
    (room : 18 ≤ n) (buf : Fin n → Byte) : ∃ after, netFormatMac mac buf = .ok after ∧
      contents after = (macChars mac).takeWhile (· ≠ 0) := by
  have length := macChars_length mac
  have fits : (macChars mac).length < n := by omega
  obtain ⟨after,copied,holds⟩ := contents_copyIn buf fits
  refine ⟨after,?_,holds⟩
  rw [netFormatMac_copyIn inside,macPieces_eq,copied]

theorem hexChar_digit : ∀ d < 12, hexDigit (hexChar d) = some d ∧ hexChar d ≠ 0 := by
  decide

/-- The place behind the digits of the table holds its terminator. -/
theorem hexChar_zero {d : Nat} (inside : d < 13) (nonzero : hexChar d ≠ 0) : d < 12 := by
  by_contra last
  obtain rfl : d = 12 := by omega
  exact nonzero rfl

theorem decodeMac_last {b : Byte} (table : InTable b) :
    decodeMac [hexChar (b.toNat / 16),hexChar (b.toNat % 16)] = some [b] := by
  have same : BitVec.ofNat 8 (b.toNat / 16 * 16 + b.toNat % 16) = b := by
    rw [Nat.div_add_mod',BitVec.ofNat_toNat,BitVec.setWidth_eq]
  simp [decodeMac,(hexChar_digit _ table.1).1,(hexChar_digit _ table.2).1,same]

theorem decodeMac_cons {b : Byte} {s bs : List Byte} (table : InTable b) (rest : decodeMac s = some bs) :
    decodeMac (hexChar (b.toNat / 16) :: hexChar (b.toNat % 16) :: 58 :: s) = some (b :: bs) := by
  have same : BitVec.ofNat 8 (b.toNat / 16 * 16 + b.toNat % 16) = b := by
    rw [Nat.div_add_mod',BitVec.ofNat_toNat,BitVec.setWidth_eq]
  simp [decodeMac,(hexChar_digit _ table.1).1,(hexChar_digit _ table.2).1,same,rest]

theorem toList_get (mac : Mac) : mac.toList =
    [mac.get 0,mac.get 1,mac.get 2,mac.get 3,mac.get 4,mac.get 5] := by
  apply List.ext_getElem
  · simp
  · intro i left right
    simp at right
    interval_cases i <;> rfl

theorem decodeMac_macChars (table : ∀ i, InTable (mac.get i)) :
    decodeMac (macChars mac) = some mac.toList := by
  have last := decodeMac_last (table 5)
  have rest := decodeMac_cons (table 0) (decodeMac_cons (table 1) (decodeMac_cons (table 2)
    (decodeMac_cons (table 3) (decodeMac_cons (table 4) last))))
  rw [toList_get]
  exact rest

theorem macChars_noNul (table : ∀ i, InTable (mac.get i)) : ∀ c ∈ macChars mac, c ≠ 0 := by
  intro c member
  obtain ⟨i,-,inside⟩ := List.mem_flatMap.mp member
  have high := (hexChar_digit _ (table i).1).2
  have low := (hexChar_digit _ (table i).2).2
  split_ifs at inside with separated
  · have colon : (58 : Byte) ≠ 0 := by decide
    simp only [macPiece,if_pos separated,List.take_succ_cons,List.take_zero,List.mem_cons,
      List.not_mem_nil,or_false] at inside
    obtain rfl | rfl | rfl := inside
    · exact high
    · exact low
    · exact colon
  · simp only [macPiece,List.take_succ_cons,List.take_zero,List.mem_cons,List.not_mem_nil,
      or_false] at inside
    obtain rfl | rfl := inside
    · exact high
    · exact low

/-- An address is formatted faithfully where the table has all of its digits. -/
theorem netFormatMac_faithful_iff (mac : Mac) : FormatsMac mac ↔ ∀ i, InTable (mac.get i) := by
  constructor
  · intro formats i
    obtain ⟨after,done,length,-⟩ := formats 18 (fun _ => 0) le_rfl
    have inside := netFormatMac_reads done
    obtain ⟨after',done',holds⟩ := netFormatMac_contents inside le_rfl fun _ => 0
    obtain rfl := Except.ok.inj (done.symm.trans done')
    rw [holds] at length
    have whole := (List.takeWhile_prefix _).eq_of_length (length.trans (macChars_length mac).symm)
    have nonzero {c : Byte} (member : c ∈ macChars mac) : c ≠ 0 := by
      simpa using List.takeWhile_eq_self_iff.mp whole c member
    exact ⟨hexChar_zero (inside i).1 (nonzero (digits_mem mac i).1),
      hexChar_zero (inside i).2 (nonzero (digits_mem mac i).2)⟩
  · intro table n buf room
    have wider {d : Nat} (small : d < 12) : d < 13 := Nat.lt_succ_of_lt small
    obtain ⟨after,done,holds⟩ := netFormatMac_contents
      (fun i => ⟨wider (table i).1,wider (table i).2⟩) room buf
    have whole : (macChars mac).takeWhile (· ≠ 0) = macChars mac :=
      List.takeWhile_eq_self_iff.mpr (by simpa using macChars_noNul table)
    rw [whole] at holds
    exact ⟨after,done,by rw [holds,macChars_length],by rw [holds,decodeMac_macChars table]⟩

/-- The digit F of the last byte is looked up behind the table. -/
theorem netFormatMac_outside : ¬∀ mac, FormatsMac mac := by
  intro formats
  obtain ⟨after,done,-⟩ := formats ⟨#[0x52,0x54,0x00,0x12,0x34,0x5F],rfl⟩ 18 (fun _ => 0) le_rfl
  exact absurd (netFormatMac_reads done 5) (by decide)

end NimrodOS.Hexadecimal
