import Mathlib.Logic.Function.Iterate
import NimrodOS.NetHeaders

/-! The checksum of `net.c`, which adds words in the byte order of the processor, against the
Internet checksum, which adds them in network order. -/
namespace NimrodOS.Net

open Wire

/-! One's complement sums in network order. -/

/-- One's complement addition: the carry out of the top comes back in at the bottom. -/
def onesAdd (a b : Half) : Half := if a.toNat + b.toNat < 2^16 then a + b else a + b + 1

/-- Pairs of bytes as numbers in network order, the last one padded with a zero byte. -/
def bigWords : List Byte → List Half
  | a :: b :: rest => (a ++ b) :: bigWords rest
  | [a] => [a ++ (0 : Byte)]
  | [] => []

/-- The one's complement of the one's complement sum. -/
def internetChecksum (message : List Byte) : Half := ~~~(bigWords message).foldl onesAdd 0

section

variable {f : Nat → Byte} {i n : Nat}

theorem onesAdd_toNat (a b : Half) : (onesAdd a b).toNat = EndAround.fold 65535 (a.toNat + b.toNat) := by
  have one := a.isLt
  have two := b.isLt
  have base : 0 < 65535 := by decide
  refine (EndAround.fold_unique base ?_ ?_ ?_).symm
  · omega
  · simp only [Nat.ModEq,onesAdd]
    split_ifs <;> bv_omega
  · simp only [onesAdd]
    split_ifs <;> bv_omega

theorem onesSum_toNat (words : List Half) : (words.foldl onesAdd 0).toNat =
    EndAround.fold 65535 (words.map BitVec.toNat).sum := by
  have base : 0 < 65535 := by decide
  have steps : ∀ (words : List Half) (a : Half), (words.foldl onesAdd a).toNat =
      (words.map BitVec.toNat).foldl (fun sum d => EndAround.fold 65535 (sum + d)) a.toNat := by
    intro words
    induction words with
    | nil => exact fun a => rfl
    | cons w words ih =>
      intro a
      rw [List.foldl_cons,ih,onesAdd_toNat,List.map_cons,List.foldl_cons]
  have whole := EndAround.foldl_fold base (words.map BitVec.toNat) 0
  rw [EndAround.fold_of_le (Nat.zero_le _),Nat.zero_add] at whole
  rw [steps,← whole]
  rfl

/-! The two byte orders. -/

theorem append_toNat (a b : Byte) : (a ++ b).toNat = 256 * a.toNat + b.toNat := by
  have bound := b.isLt
  rw [BitVec.toNat_append,← Nat.shiftLeft_add_eq_or_of_lt bound,Nat.shiftLeft_eq]
  omega

theorem bigSum_modEq (f : Nat → Byte) (i n : Nat) :
    ((bigWords (bytesFrom f i n)).map BitVec.toNat).sum % 65535 = 256 * wordSum f i n % 65535 ∧
      (((bigWords (bytesFrom f i n)).map BitVec.toNat).sum = 0 ↔ wordSum f i n = 0) := by
  fun_induction wordSum f i n with
  | case1 i n ih =>
    have next : i + 1 + 1 = i + 2 := rfl
    rw [bytesFrom,bytesFrom,bigWords,List.map_cons,List.sum_cons,load16,append_toNat,append_toNat,next]
    omega
  | case2 i =>
    have zero : (0 : Byte).toNat = 0 := rfl
    simp only [bytesFrom,bigWords,List.map_cons,List.map_nil,List.sum_cons,List.sum_nil,append_toNat,zero]
    omega
  | case3 i => simp [bytesFrom,bigWords]

/-- Swapping its bytes takes the sum of one order to that of the other. -/
theorem fold_swapped (f : Nat → Byte) (i n : Nat) :
    EndAround.fold 65535 ((bigWords (bytesFrom f i n)).map BitVec.toNat).sum =
      EndAround.fold 65535 (wordSum f i n) % 256 * 256 + EndAround.fold 65535 (wordSum f i n) / 256 := by
  have base : 0 < 65535 := by decide
  have digit := EndAround.fold_le base (wordSum f i n)
  have same : EndAround.fold 65535 (wordSum f i n) % 65535 = wordSum f i n % 65535 :=
    EndAround.fold_modEq base _
  have zero := EndAround.fold_eq_zero base (s := wordSum f i n)
  obtain ⟨same',zero'⟩ := bigSum_modEq f i n
  refine EndAround.fold_unique base (by omega) ?_ ?_
  · rw [Nat.ModEq,same']
    omega
  · rw [zero',← zero]
    omega

/-- Complements have the bytes of their numbers complemented, in either order. -/
theorem complement_swapped {x : Nat} (digit : x ≤ 65535) :
    (65535 - x) % 256 = (65535 - (x % 256 * 256 + x / 256)) / 256 % 256 ∧
      (65535 - x) / 256 % 256 = (65535 - (x % 256 * 256 + x / 256)) % 256 := by
  have left : 65535 - x = 256 * (255 - x / 256) + (255 - x % 256) := by omega
  have right : 65535 - (x % 256 * 256 + x / 256) = 256 * (255 - x % 256) + (255 - x / 256) := by omega
  have digits {a b : Nat} (small : b < 256) : (256 * a + b) / 256 = a ∧ (256 * a + b) % 256 = b := by
    omega
  have high : 255 - x / 256 < 256 := by omega
  have low : 255 - x % 256 < 256 := by omega
  rw [left,right,(digits low).1,(digits low).2,(digits high).1,(digits high).2]
  exact ⟨(Nat.mod_eq_of_lt low).symm,Nat.mod_eq_of_lt high⟩

/-- In memory the two checksums are the same two bytes. -/
theorem checksum_bytes (f : Nat → Byte) (i : Nat) (len : Half) :
    bytes16 (checksum f i len) = bigBytes16 (internetChecksum (bytesFrom f i len.toNat)) := by
  have base : 0 < 65535 := by decide
  have little := checksum_toNat f i len
  have big : (internetChecksum (bytesFrom f i len.toNat)).toNat = 65535 -
      (EndAround.fold 65535 (wordSum f i len.toNat) % 256 * 256 +
        EndAround.fold 65535 (wordSum f i len.toNat) / 256) := by
    rw [internetChecksum,BitVec.toNat_not,onesSum_toNat,fold_swapped]
  have digit := EndAround.fold_le base (wordSum f i len.toNat)
  obtain ⟨low,high⟩ := complement_swapped digit
  simp only [bytes16,bigBytes16,List.cons.injEq,and_true]
  constructor
  · apply BitVec.eq_of_toNat_eq
    simpa only [BitVec.extractLsb'_toNat,little,big,Nat.shiftRight_eq_div_pow,Nat.reducePow,Nat.div_one]
      using low
  · apply BitVec.eq_of_toNat_eq
    simpa only [BitVec.extractLsb'_toNat,little,big,Nat.shiftRight_eq_div_pow,Nat.reducePow,Nat.div_one]
      using high

/-! The loops. -/

/-- Two rounds are enough for any accumulator. -/
theorem foldLoop_rounds (sum : Word) : ∃ rounds ≤ 2, foldLoop sum = addCarry^[rounds] sum ∧
    foldLoop sum >>> 16 = 0 := by
  by_cases first : sum >>> 16 ≠ 0
  · rw [foldLoop,if_pos first]
    by_cases second : addCarry sum >>> 16 ≠ 0
    · have third : ¬addCarry (addCarry sum) >>> 16 ≠ 0 := by
        have bound := sum.isLt
        rw [carries_iff,addCarry_toNat,addCarry_toNat]
        omega
      rw [foldLoop,if_pos second,foldLoop,if_neg third]
      exact ⟨2,Nat.le_refl _,rfl,not_not.mp third⟩
    · rw [foldLoop,if_neg second]
      exact ⟨1,by decide,rfl,not_not.mp second⟩
  · rw [foldLoop,if_neg first]
    exact ⟨0,by decide,rfl,not_not.mp first⟩

/-! Filling in the field. -/

theorem wordSum_write {k : Nat} (v : Half) (inside : 2 * k + 2 ≤ n) (empty : load16 f (i + 2 * k) = 0) :
    wordSum (write f (i + 2 * k) (bytes16 v)) i n = wordSum f i n + v.toNat := by
  obtain ⟨m,rfl⟩ := Nat.exists_eq_add_of_le inside
  have parts : 2 * k + 2 + m = 2 * k + (m + 2) := by omega
  have zero : (0 : Half).toNat = 0 := rfl
  have front : wordSum (write f (i + 2 * k) (bytes16 v)) i (2 * k) = wordSum f i (2 * k) :=
    wordSum_congr fun j below => write_outside (.inl (by omega))
  have back : wordSum (write f (i + 2 * k) (bytes16 v)) (i + 2 * k + 2) m = wordSum f (i + 2 * k + 2) m :=
    wordSum_congr fun j below => write_outside (.inr (by rw [bytes16_length]; omega))
  rw [parts,wordSum_add,wordSum_add,wordSum,wordSum,front,back,load16_at at_write,empty,zero]
  omega

/-- A message whose checksum was computed with zeros in its place sums up to zero. -/
theorem checksum_write {len : Half} {k : Nat} (inside : 2 * k + 2 ≤ len.toNat)
    (empty : load16 f (i + 2 * k) = 0) :
    checksum (write f (i + 2 * k) (bytes16 (checksum f i len))) i len = 0 := by
  apply BitVec.eq_of_toNat_eq
  rw [checksum_toNat,wordSum_write _ inside empty,checksum_toNat,EndAround.fold_complement (by decide)]
  rfl

/-- Whatever the message: its checksum in memory is the Internet checksum in network order,
no addition overflows, two rounds of folding are enough, and a message that has its checksum
filled in sums up to zero. -/
theorem internet_checksum (f : Nat → Byte) (i : Nat) (len : Half) :
    bytes16 (checksum f i len) = bigBytes16 (internetChecksum (bytesFrom f i len.toNat)) ∧
    (∀ n ≤ len.toNat, (sumLoop f i n 0).toNat = wordSum f i n) ∧
    (∀ sum, (addCarry sum).toNat = sum.toNat % 2^16 + sum.toNat / 2^16 ∧
      ∃ rounds ≤ 2, foldLoop sum = addCarry^[rounds] sum ∧ foldLoop sum >>> 16 = 0) ∧
    ∀ k, 2 * k + 2 ≤ len.toNat → load16 f (i + 2 * k) = 0 →
      checksum (write f (i + 2 * k) (bytes16 (checksum f i len))) i len = 0 := by
  refine ⟨checksum_bytes f i len,?_,?_,?_⟩
  · intro n within
    exact sumLoop_exact f i (Nat.lt_of_le_of_lt within len.isLt)
  · intro sum
    exact ⟨addCarry_toNat sum,foldLoop_rounds sum⟩
  · intro k inside empty
    exact checksum_write inside empty

/-- The header of the usual example, whose checksum is `0xB861`. -/
example : internetChecksum [0x45,0,0,0x73,0,0,0x40,0,0x40,0x11,0,0,0xC0,0xA8,0,1,0xC0,0xA8,0,0xC7] = 0xB861 := by
  decide

end

end NimrodOS.Net
