import NimrodOS.LibcBuffers
import NimrodOS.NetEcho
import NimrodOS.Shell

/-! Addresses as text: `net_format_ip` of `net/net.c`, and `parse_ip` of `shell/shell.c`
that reads them. -/
namespace NimrodOS.Net

open Checked Libc
open Shell (parseIp parseIpLoop)

/-- `b[i]`, where the processor has the low byte first. -/
def ipByte (ip : Word) (i : Nat) : Byte := ip.extractLsb' (8 * i) 8

/-- A round of the loop. -/
def formatOctet (stack : Fin 32 → Byte) (ip : Word) (tmp : Fin 4 → Byte) (buf : Fin n → Byte)
    (i : Nat) : Except OutOfRange ((Fin 4 → Byte) × (Fin n → Byte)) := do
  let tmp ← itoa stack ((ipByte ip i).setWidth 32) tmp .ten
  let len ← strlen buf
  let buf ← strcpyTo buf len (← chars tmp)
  if i < 3 then
    let len ← strlen buf
    let buf ← set buf len 46
    let buf ← set buf (len + 1 : Nat) 0
    return (tmp,buf)
  else return (tmp,buf)

/-- `stack` is what each call of `itoa` finds in its own buffer. -/
def netFormatIp (stack : Nat → Fin 32 → Byte) (tmp : Fin 4 → Byte) (ip : Word) (buf : Fin n → Byte) :
    Except OutOfRange (Fin n → Byte) := do
  let buf ← set buf 0 0
  let (_,buf) ← (List.range 4).foldlM (fun (tmp,buf) i => formatOctet (stack i) ip tmp buf i) (tmp,buf)
  return buf

/-- A decimal number from 0 to 255. -/
def IsOctet (s : List Byte) : Prop :=
  ∃ m ≤ 255, Numerals.read charDigit 10 s = some m ∧ Numerals.NoLeadingZero 48 s

/-- Four of them, with dots in between. -/
def IsDottedQuad (s : List Byte) : Prop := ∃ a b c d, IsOctet a ∧ IsOctet b ∧ IsOctet c ∧ IsOctet d ∧
  s = a ++ 46 :: (b ++ 46 :: (c ++ 46 :: d))

/-! The text, octet by octet. -/

def octetNumeral (b : Byte) : List Byte := numeral .ten b.toNat

def octetText (ip : Word) (i : Nat) : List Byte :=
  octetNumeral (ipByte ip i) ++ if i < 3 then [46] else []

def octetsText (ip : Word) (k : Nat) : List Byte := (List.range k).flatMap (octetText ip)

theorem octetNumeral_length (b : Byte) : (octetNumeral b).length ≤ 3 := by
  have small : b.toNat < 10^3 := Nat.lt_trans b.isLt (by decide)
  rw [octetNumeral,numeral,Numerals.numeral,List.length_map]
  exact Numerals.digits_length (by decide) (by decide) small

theorem octetNumeral_isOctet (b : Byte) : IsOctet (octetNumeral b) :=
  ⟨b.toNat,Nat.le_of_lt_succ b.isLt,read_numeral .ten b.toNat,numeral_noLeadingZero .ten b.toNat⟩

theorem itoaText_byte (b : Byte) : itoaText (b.setWidth 32) .ten = octetNumeral b := by
  have same : (b.setWidth 32).toNat = b.toNat := BitVec.toNat_setWidth_of_le (by decide)
  have small := b.isLt
  have nonnegative : ¬(b.setWidth 32).toInt < 0 := by
    rw [BitVec.toInt_eq_toNat_of_lt (by omega)]
    omega
  rw [itoaText,if_neg fun negative => nonnegative negative.1,same,octetNumeral]

theorem octetText_noNul (ip : Word) (i : Nat) : 0 ∉ octetText ip i := by
  refine List.not_mem_append (numeral_noNul _ _) ?_
  split_ifs <;> decide

theorem octetsText_succ (ip : Word) (k : Nat) :
    octetsText ip (k + 1) = octetsText ip k ++ octetText ip k := by
  rw [octetsText,List.range_succ,List.flatMap_append,List.flatMap_singleton]
  rfl

theorem octetsText_four (ip : Word) : octetsText ip 4 =
    octetNumeral (ipByte ip 0) ++ 46 :: (octetNumeral (ipByte ip 1) ++
      46 :: (octetNumeral (ipByte ip 2) ++ 46 :: octetNumeral (ipByte ip 3))) := by
  simp [octetsText,octetText,List.range_succ]

theorem octetsText_noNul (ip : Word) (k : Nat) : 0 ∉ octetsText ip k := by
  intro member
  obtain ⟨i,-,inside⟩ := List.mem_flatMap.mp member
  exact octetText_noNul ip i inside

theorem octetsText_length (ip : Word) : (octetsText ip 4).length ≤ 15 := by
  have short (i : Nat) := octetNumeral_length (ipByte ip i)
  have first := short 0
  have second := short 1
  have third := short 2
  have fourth := short 3
  rw [octetsText_four]
  simp only [List.length_append,List.length_cons]
  omega

/-- A round puts its octet behind the others. -/
theorem formatOctet_step {buf : Fin n → Byte} {s : List Byte} (stack : Fin 32 → Byte) (ip : Word)
    (tmp : Fin 4 → Byte) (i : Nat) (holds : contents buf = s)
    (fits : s.length + (octetText ip i).length < n) :
    ∃ tmp' after, formatOctet stack ip tmp buf i = .ok (tmp',after) ∧
      contents after = s ++ octetText ip i := by
  have short := octetNumeral_length (ipByte ip i)
  have noNul : 0 ∉ octetNumeral (ipByte ip i) := numeral_noNul _ _
  have text := itoaText_byte (ipByte ip i)
  rw [octetText,List.length_append] at fits
  obtain ⟨tmp',written,digits⟩ := itoa_contents ((ipByte ip i).setWidth 32) .ten
    (n := 4) (by rw [text]; omega) stack tmp
  rw [text] at digits
  obtain ⟨buf',copied,holds'⟩ := strcpyTo_append holds noNul (by omega)
  rw [formatOctet,written,ok_bind,strlen_eq holds (by omega),ok_bind,chars_eq digits (by omega),ok_bind,
    copied,ok_bind,octetText]
  split_ifs at fits ⊢ with separated
  · have room : (s ++ octetNumeral (ipByte ip i)).length + [46].length < n := by
      simpa [Nat.add_assoc] using fits
    obtain ⟨after,dotted,holds''⟩ := strcpyTo_append (t := [46]) holds' (by decide) room
    refine ⟨tmp',after,?_,by rw [holds'',List.append_assoc]⟩
    obtain ⟨dot,first,rest⟩ := bind_ok.mp dotted
    obtain ⟨last,second,same⟩ := bind_ok.mp rest
    rw [strlen_eq holds' (by omega),ok_bind,first,ok_bind,second,ok_bind,← Except.ok.inj same]
    rfl
  · exact ⟨tmp',buf',rfl,by rw [holds',List.append_nil]⟩

/-- The rounds leave what the octets so far come to. -/
theorem formatOctets_run {buf : Fin n → Byte} (stack : Nat → Fin 32 → Byte) (ip : Word)
    (tmp : Fin 4 → Byte) (empty : contents buf = []) (k : Nat) (fits : (octetsText ip k).length < n) :
    ∃ tmp' after, (List.range k).foldlM (fun r i => formatOctet (stack i) ip r.1 r.2 i) (tmp,buf) =
      .ok (tmp',after) ∧ contents after = octetsText ip k := by
  induction k with
  | zero => exact ⟨tmp,buf,rfl,empty⟩
  | succ k ih =>
    rw [octetsText_succ,List.length_append] at fits
    obtain ⟨tmp',buf',before,holds⟩ := ih (by omega)
    obtain ⟨tmp'',after,round,text⟩ := formatOctet_step (stack k) ip tmp' k holds fits
    refine ⟨tmp'',after,?_,text.trans (octetsText_succ ip k).symm⟩
    rw [List.range_succ,List.foldlM_append,before,ok_bind,List.foldlM_cons,round,ok_bind]
    rfl

theorem contents_empty (buf : Fin n → Byte) (some' : 0 < n) :
    set buf 0 0 = .ok (Function.update buf ⟨0,some'⟩ 0) ∧
      contents (Function.update buf ⟨0,some'⟩ 0) = [] := by
  refine ⟨set_inside (i := 0) some',contents_eq (by simp) some' (by simp) ?_⟩
  exact Function.update_self ..

theorem netFormatIp_contents {ip : Word} (fits : (octetsText ip 4).length < n)
    (stack : Nat → Fin 32 → Byte) (tmp : Fin 4 → Byte) (buf : Fin n → Byte) :
    ∃ after, netFormatIp stack tmp ip buf = .ok after ∧ contents after = octetsText ip 4 := by
  obtain ⟨cleared,empty⟩ := contents_empty buf (by omega)
  obtain ⟨tmp',after,rounds,text⟩ := formatOctets_run stack ip tmp empty 4 fits
  refine ⟨after,?_,text⟩
  rw [netFormatIp,cleared,ok_bind,rounds]
  rfl

/-! Reading it. -/

/-- A digit of an octet. -/
theorem digitChar_isDigit : ∀ d < 10, Calc.isDigit (digitChar (BitVec.ofNat 32 d)) ∧
    (digitChar (BitVec.ofNat 32 d)).setWidth 32 - 48 = BitVec.ofNat 32 d := by
  decide

theorem parseIpLoop_digits {ds : List Nat} (small : ∀ d ∈ ds, d < 10) (octets : Fin 4 → Word)
    (idx : Fin 4) (rest : List Byte) :
    parseIpLoop octets idx ((ds.map fun d => digitChar (BitVec.ofNat 32 d)) ++ rest) =
      parseIpLoop (Function.update octets idx
        (ds.foldl (fun v d => v * 10 + BitVec.ofNat 32 d) (octets idx))) idx rest := by
  induction ds generalizing octets with
  | nil => simp
  | cons d ds ih =>
    obtain ⟨digit,val⟩ := digitChar_isDigit d (small d List.mem_cons_self)
    rw [List.map_cons,List.cons_append,parseIpLoop,if_pos idx.isLt,if_pos digit,val]
    have updated : (fun i : Fin 4 => if i.val = idx.val then octets i * 10 + BitVec.ofNat 32 d
        else octets i) = Function.update octets idx (octets idx * 10 + BitVec.ofNat 32 d) := by
      funext i
      by_cases same : i = idx
      · simp [same]
      · rw [Function.update_of_ne same,if_neg fun equal => same (Fin.ext equal)]
    rw [updated,ih (fun e member => small e (List.mem_cons_of_mem _ member)),Function.update_idem,
      Function.update_self,List.foldl_cons]

/-- An octet that starts at zero gets its number. -/
theorem parseIpLoop_octet (octets : Fin 4 → Word) (idx : Fin 4) (zero : octets idx = 0) (b : Byte)
    (rest : List Byte) : parseIpLoop octets idx (octetNumeral b ++ rest) =
      parseIpLoop (Function.update octets idx (b.setWidth 32)) idx rest := by
  have small : ∀ d ∈ Numerals.digits 10 b.toNat, d < 10 := Numerals.digits_lt (by decide)
  have loop := parseIpLoop_digits small octets idx rest
  have value := Numerals.foldl_word 32 10 (Numerals.digits 10 b.toNat)
  have same : BitVec.ofNat 32 b.toNat = b.setWidth 32 := by simp
  rw [Numerals.value_digits,same] at value
  rw [zero] at loop
  exact loop.trans (congrArg (fun v => parseIpLoop (Function.update octets idx v) idx rest) value)

/-- The dot behind an octet starts the next one. -/
theorem parseIpLoop_next (octets : Fin 4 → Word) (idx : Fin 4) (zero : octets idx = 0) (b : Byte)
    (rest : List Byte) : parseIpLoop octets idx (octetNumeral b ++ 46 :: rest) =
      parseIpLoop (Function.update octets idx (b.setWidth 32)) (idx + 1 : Nat) rest := by
  rw [parseIpLoop_octet octets idx zero,parseIpLoop,if_pos idx.isLt,if_neg (by decide),if_pos rfl]

theorem shifted_octets (a b c d : Byte) : a.setWidth 32 <<< 24 ||| b.setWidth 32 <<< 16 |||
    c.setWidth 32 <<< 8 ||| d.setWidth 32 = a ++ b ++ c ++ d := by
  apply BitVec.eq_of_getLsbD_eq
  intro k inside
  simp only [BitVec.getLsbD_or,BitVec.getLsbD_shiftLeft,BitVec.getLsbD_setWidth,
    BitVec.getLsbD_append]
  interval_cases k <;> simp

theorem parseIp_octets (a b c d : Byte) :
    parseIp (octetNumeral a ++ 46 :: (octetNumeral b ++ 46 :: (octetNumeral c ++
      46 :: octetNumeral d))) = a ++ b ++ c ++ d := by
  let zeros : Fin 4 → Word := fun _ => 0
  let one := Function.update zeros 0 (a.setWidth 32)
  let two := Function.update one 1 (b.setWidth 32)
  let three := Function.update two 2 (c.setWidth 32)
  have fourth := parseIpLoop_octet three 3 rfl d []
  have read : parseIpLoop zeros 0 (octetNumeral a ++ 46 :: (octetNumeral b ++ 46 ::
      (octetNumeral c ++ 46 :: octetNumeral d))) = Function.update three 3 (d.setWidth 32) := by
    rw [List.append_nil] at fourth
    calc parseIpLoop zeros 0 _
      _ = parseIpLoop one 1 _ := parseIpLoop_next zeros 0 rfl a _
      _ = parseIpLoop two 2 _ := parseIpLoop_next one 1 rfl b _
      _ = parseIpLoop three 3 _ := parseIpLoop_next two 2 rfl c _
      _ = Function.update three 3 (d.setWidth 32) := fourth
  rw [parseIp,read]
  exact shifted_octets a b c d

/-- The address as the formatter gets it has its high byte first in memory. -/
theorem htonl_bytes (ip : Word) : ipByte (htonl ip) 0 ++ ipByte (htonl ip) 1 ++ ipByte (htonl ip) 2 ++
    ipByte (htonl ip) 3 = ip := by
  apply BitVec.eq_of_getLsbD_eq
  intro k inside
  simp only [ipByte,htonl,BitVec.getLsbD_or,BitVec.getLsbD_and,BitVec.getLsbD_ushiftRight,
    BitVec.getLsbD_shiftLeft,BitVec.getLsbD_append,BitVec.getLsbD_extractLsb']
  interval_cases k <;> simp

/-- An address goes into a dotted quad that fits in 16 bytes and is read as the address. -/
theorem netFormatIp_roundTrip (ip : Word) : ∃ s : CString, IsDottedQuad s.val ∧
    s.val.length + 1 ≤ 16 ∧ parseIp s.val = ip ∧
    ∀ (stack : Nat → Fin 32 → Byte) (tmp : Fin 4 → Byte) (n : Nat) (buf : Fin n → Byte),
      s.val.length < n →
        ∃ after, netFormatIp stack tmp (htonl ip) buf = .ok after ∧ contents after = s.val := by
  refine ⟨⟨octetsText (htonl ip) 4,octetsText_noNul _ 4⟩,?_,?_,?_,fun stack tmp n buf fits => ?_⟩
  · exact ⟨_,_,_,_,octetNumeral_isOctet _,octetNumeral_isOctet _,octetNumeral_isOctet _,
      octetNumeral_isOctet _,octetsText_four _⟩
  · exact Nat.succ_le_succ (octetsText_length _)
  · exact (congrArg parseIp (octetsText_four _)).trans ((parseIp_octets _ _ _ _).trans (htonl_bytes ip))
  · exact netFormatIp_contents fits stack tmp buf

end NimrodOS.Net
