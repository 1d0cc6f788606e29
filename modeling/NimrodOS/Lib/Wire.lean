import NimrodOS.Lib.ByteMemory

/-! Records laid out in bytes: what stands at an offset of a byte sequence, and fields of
two and four bytes in either order. -/
namespace Wire

abbrev Half := BitVec 16

/-- The given bytes stand from the offset on. -/
def At (f : Nat → Byte) : Nat → List Byte → Prop
  | _, [] => True
  | i, b :: bs => f i = b ∧ At f (i + 1) bs

/-- The `n` bytes from an offset on. -/
def bytesFrom (f : Nat → Byte) : Nat → Nat → List Byte
  | _, 0 => []
  | i, n + 1 => f i :: bytesFrom f (i + 1) n

def write (f : Nat → Byte) (i : Nat) (bytes : List Byte) : Nat → Byte := fun j =>
  if i ≤ j then bytes.getD (j - i) (f j) else f j

/-! Fields, the low byte first. -/

def bytes16 (v : Half) : List Byte := [v.extractLsb' 0 8,v.extractLsb' 8 8]

def bytes32 (v : Word) : List Byte :=
  [v.extractLsb' 0 8,v.extractLsb' 8 8,v.extractLsb' 16 8,v.extractLsb' 24 8]

def load16 (f : Nat → Byte) (i : Nat) : Half := f (i + 1) ++ f i

def load32 (f : Nat → Byte) (i : Nat) : Word := f (i + 3) ++ f (i + 2) ++ f (i + 1) ++ f i

/-! Fields, the high byte first. -/

def bigBytes16 (v : Half) : List Byte := [v.extractLsb' 8 8,v.extractLsb' 0 8]

def bigBytes32 (v : Word) : List Byte :=
  [v.extractLsb' 24 8,v.extractLsb' 16 8,v.extractLsb' 8 8,v.extractLsb' 0 8]

def big16 (f : Nat → Byte) (i : Nat) : Half := f i ++ f (i + 1)

def big32 (f : Nat → Byte) (i : Nat) : Word := f i ++ f (i + 1) ++ f (i + 2) ++ f (i + 3)

section

variable {f g : Nat → Byte} {i j n : Nat} {a b : List Byte}

@[simp] theorem at_nil : At f i [] := trivial

@[simp] theorem at_cons {x : Byte} : At f i (x :: a) ↔ f i = x ∧ At f (i + 1) a := Iff.rfl

@[simp] theorem at_append : At f i (a ++ b) ↔ At f i a ∧ At f (i + a.length) b := by
  induction a generalizing i with
  | nil => simp
  | cons x a ih =>
    have shift : i + 1 + a.length = i + (a.length + 1) := by omega
    simp [ih,shift,and_assoc]

theorem At.get (stands : At f i a) (inside : j < a.length) : f (i + j) = a[j] := by
  induction a generalizing i j with
  | nil => simp at inside
  | cons x a ih =>
    cases j with
    | zero => exact stands.1
    | succ j =>
      have rest := ih stands.2 (Nat.lt_of_succ_lt_succ inside)
      rw [Nat.add_right_comm] at rest
      exact rest

theorem at_of_get (each : ∀ j (inside : j < a.length), f (i + j) = a[j]) : At f i a := by
  induction a generalizing i with
  | nil => trivial
  | cons x a ih =>
    refine ⟨each 0 (by simp),ih fun j inside => ?_⟩
    have next := each (j + 1) (by simpa using inside)
    rw [Nat.add_right_comm]
    exact next

theorem At.congr (stands : At f i a) (same : ∀ j, j < a.length → g (i + j) = f (i + j)) :
    At g i a := at_of_get fun j inside => (same j inside).trans (stands.get inside)

@[simp] theorem bytesFrom_length : (bytesFrom f i n).length = n := by
  induction n generalizing i with
  | zero => rfl
  | succ n ih => simp [bytesFrom,ih]

theorem at_bytesFrom : At f i (bytesFrom f i n) := by
  induction n generalizing i with
  | zero => trivial
  | succ n ih => exact ⟨rfl,ih⟩

/-- Bytes that stand at a place are what is read there. -/
theorem At.bytesFrom (stands : At f i a) : bytesFrom f i a.length = a := by
  induction a generalizing i with
  | nil => rfl
  | cons x a ih =>
    rw [List.length_cons,Wire.bytesFrom,stands.1,ih stands.2]

theorem at_getD : At (fun k => a.getD k 0) 0 a := by
  apply at_of_get
  intro k inside
  simp [inside]

theorem at_write : At (write f i a) i a := by
  apply at_of_get
  intro j inside
  simp [write,inside]

theorem write_outside (apart : j < i ∨ i + a.length ≤ j) : write f i a j = f j := by
  unfold write
  split_ifs
  · rw [List.getD_eq_default _ _ (by omega)]
  · rfl

theorem bytesFrom_add (m : Nat) :
    bytesFrom f i (n + m) = bytesFrom f i n ++ bytesFrom f (i + n) m := by
  induction n generalizing i with
  | zero => simp [bytesFrom]
  | succ n ih =>
    have shift : i + 1 + n = i + (n + 1) := by omega
    rw [Nat.succ_add,bytesFrom,bytesFrom,ih,shift,List.cons_append]

/-- What stands inside of a copied range stands at the same place of the copy. -/
theorem At.copied {k : Nat} (copy : At f i (Wire.bytesFrom g j n)) (stands : At g (j + k) a)
    (inside : k + a.length ≤ n) : At f (i + k) a := by
  obtain ⟨rest,rfl⟩ := Nat.exists_eq_add_of_le inside
  rw [bytesFrom_add,bytesFrom_add,at_append,at_append,bytesFrom_length,stands.bytesFrom] at copy
  exact copy.1.2

/-- A copy from the front on holds everything at its place. -/
theorem At.copied_front {k : Nat} (copy : At f 0 (Wire.bytesFrom g 0 n)) (stands : At g k a)
    (inside : k + a.length ≤ n) : At f k a := by
  have copied : At f (0 + k) a := by
    apply copy.copied
    · rwa [Nat.zero_add]
    · exact inside
  rwa [Nat.zero_add] at copied

theorem bytes16_length (v : Half) : (bytes16 v).length = 2 := rfl

theorem bytes32_length (v : Word) : (bytes32 v).length = 4 := rfl

theorem append_halves (v : Half) : v.extractLsb' 8 8 ++ v.extractLsb' 0 8 = v := by
  ext k inside
  simp only [BitVec.getElem_append,BitVec.getElem_extractLsb']
  rw [← BitVec.getLsbD_eq_getElem]
  split_ifs <;> congr 1 <;> omega

@[simp] theorem load16_at {v : Half} (stands : At f i (bytes16 v)) : load16 f i = v := by
  obtain ⟨low,high,-⟩ := stands
  rw [load16,low,high,append_halves]

theorem append_quarters (v : Word) :
    v.extractLsb' 24 8 ++ v.extractLsb' 16 8 ++ v.extractLsb' 8 8 ++ v.extractLsb' 0 8 = v := by
  ext k inside
  simp only [BitVec.getElem_append,BitVec.getElem_extractLsb']
  rw [← BitVec.getLsbD_eq_getElem]
  split_ifs <;> congr 1 <;> omega

@[simp] theorem load32_at {v : Word} (stands : At f i (bytes32 v)) : load32 f i = v := by
  obtain ⟨zero,one,two,three,-⟩ := stands
  rw [load32,zero,one,two,three,append_quarters]

theorem big16_at {v : Half} (stands : At f i (bigBytes16 v)) : big16 f i = v := by
  obtain ⟨high,low,-⟩ := stands
  rw [big16,high,low,append_halves]

end

end Wire
