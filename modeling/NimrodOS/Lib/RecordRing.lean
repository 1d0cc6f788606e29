import NimrodOS.Lib.Wire

/-! A ring of records of different lengths. A record begins at its position modulo the
ring's size and goes on past the ring's end where it must, so only beginnings are sure to
lie inside. -/
namespace RecordRing

open Wire

/-- How a record is written, and how far behind its beginning the next one begins. -/
structure Format (ρ : Type) where
  bytes : ρ → List Byte
  span : ρ → Nat
  covers : ∀ r, (bytes r).length ≤ span r
  moves : ∀ r, 0 < span r

variable {ρ : Type} (F : Format ρ)

def extent (rs : List ρ) : Nat := (rs.map F.span).sum

/-- The records with their positions, the first at `pos`. -/
def placed (pos : Nat) : List ρ → List (Nat × ρ)
  | [] => []
  | r :: rs => (pos,r) :: placed (pos + F.span r) rs

/-- Every record stands in memory at its place. -/
def Laid (size : Nat) (mem : Nat → Byte) (pos : Nat) (rs : List ρ) : Prop :=
  ∀ entry ∈ placed F pos rs, At mem (entry.1 % size) (F.bytes entry.2)

variable {F} {size pos n i len : Nat} {mem : Nat → Byte} {bytes : List Byte} {r : ρ}
  {rs rs' : List ρ} {entry : Nat × ρ}

@[simp] theorem extent_nil : extent F [] = 0 := rfl

@[simp] theorem extent_cons : extent F (r :: rs) = F.span r + extent F rs := by
  simp [extent]

@[simp] theorem extent_append : extent F (rs ++ rs') = extent F rs + extent F rs' := by
  simp [extent]

theorem placed_append :
    placed F pos (rs ++ rs') = placed F pos rs ++ placed F (pos + extent F rs) rs' := by
  induction rs generalizing pos with
  | nil => simp [placed]
  | cons r rs ih => simp [placed,ih,Nat.add_assoc]

theorem mem_of_placed (member : entry ∈ placed F pos rs) : entry.2 ∈ rs := by
  induction rs generalizing pos with
  | nil => simp [placed] at member
  | cons r rs ih =>
    rcases List.mem_cons.mp member with rfl | later
    · exact List.mem_cons_self ..
    · exact List.mem_cons_of_mem _ (ih later)

/-- A record lies between the beginning of the first and the end of the last. -/
theorem placed_bounds (member : entry ∈ placed F pos rs) :
    pos ≤ entry.1 ∧ entry.1 + F.span entry.2 ≤ pos + extent F rs := by
  induction rs generalizing pos with
  | nil => simp [placed] at member
  | cons r rs ih =>
    rw [extent_cons]
    rcases List.mem_cons.mp member with rfl | later
    · refine ⟨Nat.le_refl _,?_⟩
      dsimp only
      omega
    · have inner := ih later
      omega

/-- Where every span is a multiple of `n`, the records stay aligned. -/
theorem placed_aligned (spans : ∀ r, n ∣ F.span r) (first : n ∣ pos)
    (member : entry ∈ placed F pos rs) : n ∣ entry.1 := by
  induction rs generalizing pos with
  | nil => simp [placed] at member
  | cons r rs ih =>
    rcases List.mem_cons.mp member with rfl | later
    · exact first
    · exact ih (Nat.dvd_add first (spans r)) later

theorem laid_append : Laid F size mem pos (rs ++ rs') ↔
    Laid F size mem pos rs ∧ Laid F size mem (pos + extent F rs) rs' := by
  simp only [Laid,placed_append,List.forall_mem_append]

theorem laid_nil : Laid F size mem pos [] := by
  intro entry member
  simp [placed] at member

theorem laid_cons : Laid F size mem pos (r :: rs) ↔
    At mem (pos % size) (F.bytes r) ∧ Laid F size mem (pos + F.span r) rs := by
  simp only [Laid,placed,List.forall_mem_cons]

/-- What begins behind another and ends less than a turn later is apart from it, also
behind the ring's end. -/
theorem apart {p w : Nat} (behind : p + i < w) (room : w + len ≤ p + size) :
    p % size + i < w % size ∨ w % size + len ≤ p % size + i := by
  have p_eq := Nat.div_add_mod p size
  have w_eq := Nat.div_add_mod w size
  have some' : 0 < size := by omega
  have lower : p / size ≤ w / size := Nat.div_le_div_right (by omega)
  have upper : w / size ≤ p / size + 1 := by
    rw [← Nat.add_div_right p some']
    exact Nat.div_le_div_right (by omega)
  have next : size * (p / size + 1) = size * (p / size) + size := Nat.mul_succ ..
  rcases Nat.lt_or_ge (w / size) (p / size + 1) with before | behind'
  · have same : w / size = p / size := by omega
    rw [same] at w_eq
    omega
  · have turned : w / size = p / size + 1 := by omega
    rw [turned] at w_eq
    omega

theorem Laid.write {w : Nat} (laid : Laid F size mem pos rs) (behind : pos + extent F rs ≤ w)
    (room : w + bytes.length ≤ pos + size) :
    Laid F size (write mem (w % size) bytes) pos rs := by
  intro entry member
  have bounds := placed_bounds member
  have covers := F.covers entry.2
  refine (laid entry member).congr fun k inside => write_outside ?_
  exact apart (by omega) (by omega)

/-- A record written behind the others leaves them where they are. -/
theorem Laid.snoc (laid : Laid F size mem pos rs) (room : extent F rs + F.span r ≤ size) :
    Laid F size (Wire.write mem ((pos + extent F rs) % size) (F.bytes r)) pos
      (rs ++ [r]) := by
  have covers := F.covers r
  refine laid_append.mpr ⟨laid.write (Nat.le_refl _) (by omega),?_⟩
  exact laid_cons.mpr ⟨at_write,laid_nil⟩

/-- The distance from one offset to the next is what lies between them. -/
theorem unread (small : n < size) : ((pos + n) % size + size - pos % size) % size = n := by
  have some' : 0 < size := by omega
  have below : pos % size < size := Nat.mod_lt _ some'
  rw [← Nat.mod_add_mod pos size n]
  generalize pos % size = start at below ⊢
  rcases Nat.lt_or_ge (start + n) size with ahead | turns
  · have plain : start + n + size - start = n + size := by omega
    rw [Nat.mod_eq_of_lt ahead,plain,Nat.add_mod_right,Nat.mod_eq_of_lt small]
  · have back : start + n - size + size - start = n := by omega
    have turned : (start + n) % size = start + n - size := by
      rw [Nat.mod_eq_sub_mod turns,Nat.mod_eq_of_lt (by omega)]
    rw [turned,back,Nat.mod_eq_of_lt small]

end RecordRing
