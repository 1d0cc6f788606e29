import Mathlib.Tactic.IntervalCases
import NimrodOS.Lib.EndAround
import NimrodOS.Net

/-! Headers read back as they were written, and the checksum of an IP header. -/
namespace NimrodOS.Net

open Wire

variable {f g : Nat → Byte} {i j : Nat}

/-! Byte order. -/

theorem htons_append (a b : Byte) : htons (a ++ b) = b ++ a := by
  apply BitVec.eq_of_getLsbD_eq
  intro k inside
  simp only [htons,BitVec.getLsbD_or,BitVec.getLsbD_ushiftRight,BitVec.getLsbD_shiftLeft,
    BitVec.getLsbD_append]
  interval_cases k <;> simp

@[simp] theorem ntohs_htons (v : Half) : ntohs (htons v) = v := by
  rw [← append_halves v,ntohs,htons_append,htons_append]

/-- A field in network order is read with its high byte first. -/
theorem ntohs_load16 (f : Nat → Byte) (i : Nat) : ntohs (load16 f i) = big16 f i :=
  htons_append _ _

/-! Headers. -/

theorem readMac_at {mac : Mac} (stands : At f i mac.toList) : readMac f i = mac := by
  apply Vector.ext
  intro k inside
  have here := stands.get (by simpa using inside)
  simpa [readMac] using here

theorem EthHeader.read_at {h : EthHeader} (stands : At f i h.bytes) : EthHeader.read f i = h := by
  simp only [EthHeader.bytes,at_append,List.length_append,Vector.length_toList] at stands
  obtain ⟨⟨dst,src⟩,type⟩ := stands
  rw [EthHeader.read,readMac_at dst,readMac_at src,load16_at type]

theorem IpHeader.read_at {h : IpHeader} (stands : At f i h.bytes) : IpHeader.read f i = h := by
  simp only [IpHeader.bytes,at_append,at_cons,List.length_append,List.length_cons,List.length_nil,
    bytes16_length,bytes32_length,at_nil,and_true,Nat.reduceAdd,Nat.add_assoc] at stands
  obtain ⟨⟨⟨⟨⟨⟨⟨⟨verIhl,tos⟩,totalLen⟩,id⟩,flagsFrag⟩,ttl,protocol⟩,checksum⟩,srcIp⟩,dstIp⟩ := stands
  rw [IpHeader.read,verIhl,tos,load16_at totalLen,load16_at id,load16_at flagsFrag,ttl,protocol,
    load16_at checksum,load32_at srcIp,load32_at dstIp]

theorem IcmpHeader.read_at {h : IcmpHeader} (stands : At f i h.bytes) : IcmpHeader.read f i = h := by
  simp only [IcmpHeader.bytes,at_append,at_cons,List.length_append,List.length_cons,List.length_nil,
    bytes16_length,at_nil,and_true,Nat.reduceAdd,Nat.add_assoc] at stands
  obtain ⟨⟨⟨⟨type,code⟩,checksum⟩,id⟩,sequence⟩ := stands
  rw [IcmpHeader.read,type,code,load16_at checksum,load16_at id,load16_at sequence]

theorem UdpHeader.read_at {h : UdpHeader} (stands : At f i h.bytes) : UdpHeader.read f i = h := by
  simp only [UdpHeader.bytes,at_append,List.length_append,bytes16_length,Nat.reduceAdd] at stands
  obtain ⟨⟨⟨srcPort,dstPort⟩,length⟩,checksum⟩ := stands
  rw [UdpHeader.read,load16_at srcPort,load16_at dstPort,load16_at length,load16_at checksum]

/-! Checksums. -/

theorem foldLoop_toNat (sum : Word) : (foldLoop sum).toNat = EndAround.fold 65535 sum.toNat := by
  induction sum using foldLoop.induct with
  | case1 sum high ih =>
    have large := (carries_iff sum).mp high
    rw [foldLoop,if_pos high,ih,addCarry_toNat]
    exact (EndAround.fold_carry (by decide) (by omega)).symm
  | case2 sum low =>
    have small := mt (carries_iff sum).mpr low
    rw [foldLoop,if_neg low,EndAround.fold_of_le (by omega)]

/-- The words of a range as numbers. -/
def wordSum (f : Nat → Byte) : Nat → Nat → Nat
  | i, n + 2 => (load16 f i).toNat + wordSum f (i + 2) n
  | i, 1 => (f i).toNat
  | _, 0 => 0

theorem wordSum_le (f : Nat → Byte) (i n : Nat) : 2 * wordSum f i n ≤ 65535 * (n + 1) := by
  fun_induction wordSum f i n with
  | case1 i n ih =>
    have := (load16 f i).isLt
    omega
  | case2 i =>
    have := (f i).isLt
    omega
  | case3 => omega

theorem sumLoop_toNat (f : Nat → Byte) (i n : Nat) (sum : Word) :
    (sumLoop f i n sum).toNat = (sum.toNat + wordSum f i n) % 2^32 := by
  fun_induction sumLoop f i n sum with
  | case1 i n sum ih =>
    have word : ((load16 f i).setWidth 32).toNat = (load16 f i).toNat :=
      BitVec.toNat_setWidth_of_le (by decide)
    rw [ih,wordSum,BitVec.toNat_add,word]
    omega
  | case2 i sum =>
    have byte : ((f i).setWidth 32).toNat = (f i).toNat := BitVec.toNat_setWidth_of_le (by decide)
    rw [wordSum,BitVec.toNat_add,byte]
  | case3 i sum => simp [wordSum,Nat.mod_eq_of_lt sum.isLt]

theorem wordSum_congr {n : Nat} (same : ∀ k, k < n → f (i + k) = g (j + k)) :
    wordSum f i n = wordSum g j n := by
  fun_induction wordSum f i n generalizing j with
  | case1 i n ih =>
    have first : f i = g j := same 0 (by omega)
    have second : f (i + 1) = g (j + 1) := same 1 (by omega)
    have rest : ∀ k, k < n → f (i + 2 + k) = g (j + 2 + k) := by
      intro k inside
      have next := same (k + 2) (by omega)
      rw [Nat.add_right_comm i,Nat.add_right_comm j]
      exact next
    rw [wordSum,ih rest,load16,load16,first,second]
  | case2 i => rw [wordSum,show f i = g j from same 0 (by omega)]
  | case3 i => rfl

/-- A range splits at an even place. -/
theorem wordSum_add (f : Nat → Byte) (i n m : Nat) :
    wordSum f i (2 * m + n) = wordSum f i (2 * m) + wordSum f (i + 2 * m) n := by
  induction m generalizing i with
  | zero => simp [wordSum]
  | succ m ih =>
    have longer : 2 * (m + 1) + n = 2 * m + n + 2 := by omega
    have behind : i + (2 * m + 2) = i + 2 + 2 * m := by omega
    rw [longer,Nat.mul_succ,wordSum,wordSum,ih,behind]
    exact (Nat.add_assoc _ _ _).symm

/-- The accumulator has room for the words of any message. -/
theorem sumLoop_exact (f : Nat → Byte) (i : Nat) {n : Nat} (small : n < 2^16) :
    (sumLoop f i n 0).toNat = wordSum f i n := by
  have sum := wordSum_le f i n
  have zero : (0 : Word).toNat = 0 := rfl
  rw [sumLoop_toNat,zero,Nat.zero_add,Nat.mod_eq_of_lt (by omega)]

theorem checksum_toNat (f : Nat → Byte) (i : Nat) (len : Half) :
    (checksum f i len).toNat = 65535 - EndAround.fold 65535 (wordSum f i len.toNat) := by
  have base : 0 < 65535 := by decide
  have bound := EndAround.fold_le base (wordSum f i len.toNat)
  rw [checksum,BitVec.toNat_not,BitVec.toNat_setWidth,foldLoop_toNat,sumLoop_exact f i len.isLt,
    Nat.mod_eq_of_lt (by omega)]

theorem wordSum_at {bytes : List Byte} (left : At f i bytes) (right : At g j bytes) :
    wordSum f i bytes.length = wordSum g j bytes.length :=
  wordSum_congr fun _ inside => (left.get inside).trans (right.get inside).symm

def IpHeader.front (h : IpHeader) : List Byte :=
  [h.verIhl,h.tos] ++ bytes16 h.totalLen ++ bytes16 h.id ++ bytes16 h.flagsFrag ++
    [h.ttl,h.protocol]

def IpHeader.back (h : IpHeader) : List Byte := bytes32 h.srcIp ++ bytes32 h.dstIp

/-- The words of an IP header around its checksum. -/
theorem wordSum_header {h : IpHeader} (stands : At f i h.bytes) :
    At f i h.front ∧ At f (i + 12) h.back ∧ wordSum f i 20 =
      wordSum f i h.front.length + h.checksum.toNat + wordSum f (i + 12) h.back.length := by
  have parts : h.bytes = h.front ++ bytes16 h.checksum ++ h.back := rfl
  rw [parts,at_append,at_append] at stands
  obtain ⟨⟨front,field⟩,back⟩ := stands
  have word : load16 f (i + 10) = h.checksum := load16_at field
  have sum : wordSum f (i + 2 * 5) 10 = (load16 f (i + 10)).toNat + wordSum f (i + 12) 8 := rfl
  refine ⟨front,back,?_⟩
  rw [wordSum_add f i 10 5,sum,word]
  exact (Nat.add_assoc _ _ _).symm

/-- A header whose checksum was computed with zeros in its place sums up to zero. -/
theorem checksum_resum {h : IpHeader} (empty : h.checksum = 0)
    (stands : At f i (withChecksum h).bytes) : checksum f i 20 = 0 := by
  have base : 0 < 65535 := by decide
  have twenty : (20 : Half).toNat = 20 := rfl
  have zero : (0 : Half).toNat = 0 := rfl
  have plain : At (fun k => h.bytes.getD k 0) 0 h.bytes := at_getD
  generalize cleared : (fun k => h.bytes.getD k 0) = g at plain
  have field : (withChecksum h).checksum.toNat = 65535 - EndAround.fold 65535 (wordSum g 0 20) := by
    rw [withChecksum,cleared]
    exact checksum_toNat g 0 20
  obtain ⟨front,back,sum⟩ := wordSum_header plain
  obtain ⟨front',back',sum'⟩ := wordSum_header stands
  have before : wordSum f i (withChecksum h).front.length = wordSum g 0 h.front.length :=
    wordSum_at front' front
  have behind : wordSum f (i + 12) (withChecksum h).back.length =
      wordSum g (0 + 12) h.back.length := wordSum_at back' back
  rw [empty,zero] at sum
  have same : wordSum f i 20 =
      wordSum g 0 20 + (65535 - EndAround.fold 65535 (wordSum g 0 20)) := by
    rw [sum',field,before,behind]
    omega
  apply BitVec.eq_of_toNat_eq
  rw [checksum_toNat f i 20,twenty,same,EndAround.fold_complement base]
  rfl

end NimrodOS.Net
