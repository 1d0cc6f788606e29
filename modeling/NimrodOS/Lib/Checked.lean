import Mathlib.Data.Fin.Basic
import Mathlib.Data.List.OfFn
import Mathlib.Logic.Function.Basic

/-! Arrays of a fixed size whose accesses check the index, and the loops that go through
them. -/
namespace Checked

/-- An access outside of an array. -/
structure OutOfRange where
  size : Nat
  index : Int
  deriving DecidableEq, Repr

variable {α : Type} {n i d lo count : Nat} {a : Fin n → α} {x : α}

def index (n : Nat) (i : Int) : Except OutOfRange (Fin n) :=
  if inside : 0 ≤ i ∧ i < n then .ok ⟨i.toNat,by omega⟩ else .error ⟨n,i⟩

def get (a : Fin n → α) (i : Int) : Except OutOfRange α := (index n i).map a

def set (a : Fin n → α) (i : Int) (x : α) : Except OutOfRange (Fin n → α) :=
  (index n i).map fun i => Function.update a i x

/-- `for (i = lo; i < lo + count; i++) a[i] = x;` -/
def fill (a : Fin n → α) (lo count : Nat) (x : α) : Except OutOfRange (Fin n → α) :=
  (List.range' lo count).foldlM (fun a (i : Nat) => set a i x) a

/-- `for (i = 0; i < count; i++) a[i] = a[i + d];` -/
def shift (a : Fin n → α) (d count : Nat) : Except OutOfRange (Fin n → α) :=
  (List.range count).foldlM (fun a (i : Nat) => (get a (i + d : Nat)).bind (set a i)) a

/-- The elements are stored one after the other. -/
def copyIn (a : Fin n → α) (i : Nat) : List α → Except OutOfRange (Fin n → α)
  | [] => .ok a
  | x :: xs => do
    let a ← set a i x
    copyIn a (i + 1) xs

/-! Calls that succeed. -/

section

variable {ε β : Type} {x : Except ε α} {b : β}

theorem ok_bind (a : α) (f : α → Except ε β) : (Except.ok a >>= f) = f a := rfl

theorem bind_ok {f : α → Except ε β} : (x >>= f) = .ok b ↔ ∃ a, x = .ok a ∧ f a = .ok b := by
  cases x with
  | ok a => simp [bind,Except.bind]
  | error e => simp [bind,Except.bind]

theorem map_ok {f : α → β} : x.map f = .ok b ↔ ∃ a, x = .ok a ∧ f a = b := by
  cases x with
  | ok a => simp [Except.map]
  | error e => simp [Except.map]

/-- A loop all of whose rounds succeed. -/
theorem mapM_ok {γ : Type} {f : β → Except ε γ} {g : β → γ} {xs : List β}
    (each : ∀ x ∈ xs, f x = .ok (g x)) : xs.mapM f = .ok (xs.map g) := by
  induction xs with
  | nil => rfl
  | cons x xs ih =>
    rw [List.mapM_cons,each x List.mem_cons_self,ok_bind,
      ih fun y member => each y (List.mem_cons_of_mem _ member)]
    rfl

end

/-! Accesses in range. -/

theorem index_at {i : Int} {j : Fin n} (here : i = j) : index n i = .ok j := by
  have inside : 0 ≤ i ∧ i < n := by omega
  rw [index,dif_pos inside]
  exact congrArg Except.ok (Fin.ext (by simp [here]))

theorem get_at {i : Int} {j : Fin n} (here : i = j) : get a i = .ok (a j) := by
  rw [get,index_at here]
  rfl

theorem set_at {i : Int} {j : Fin n} (here : i = j) : set a i x = .ok (Function.update a j x) := by
  rw [set,index_at here]
  rfl

theorem get_inside (inside : i < n) : get a i = .ok (a ⟨i,inside⟩) := get_at rfl

theorem set_inside (inside : i < n) : set a i x = .ok (Function.update a ⟨i,inside⟩ x) := set_at rfl

theorem fill_inside (inside : lo + count ≤ n) :
    fill a lo count x = .ok fun j => if lo ≤ j ∧ j < lo + count then x else a j := by
  unfold fill
  induction count generalizing lo a with
  | zero =>
    refine congrArg Except.ok (funext fun j => (if_neg ?_).symm)
    omega
  | succ count ih =>
    rw [List.range'_succ,List.foldlM_cons,set_inside (i := lo) (by omega)]
    refine (ih (by omega)).trans (congrArg Except.ok (funext fun j => ?_))
    by_cases first : (j : Nat) = lo
    · have here : j = ⟨lo,by omega⟩ := Fin.ext first
      rw [if_neg (by omega),if_pos (by omega),here,Function.update_self]
    · rw [Function.update_of_ne fun same => first (congrArg Fin.val same)]
      refine if_congr ?_ rfl rfl
      omega

theorem set_outside (outside : n ≤ i) : set a i x = .error ⟨n,i⟩ := by
  rw [set,index,dif_neg (by omega)]
  rfl

theorem get_outside {i : Int} (outside : i < 0 ∨ n ≤ i) : get a i = .error ⟨n,i⟩ := by
  rw [get,index,dif_neg (by omega)]
  rfl

theorem copyIn_inside {xs : List α} (inside : i + xs.length ≤ n) :
    copyIn a i xs = .ok fun j => if i ≤ j then xs.getD (j - i) (a j) else a j := by
  induction xs generalizing i a with
  | nil => exact congrArg Except.ok (funext fun j => by simp)
  | cons x xs ih =>
    have room : i + 1 + xs.length ≤ n := by simpa [Nat.add_right_comm,Nat.add_assoc] using inside
    rw [copyIn,set_inside (i := i) (by omega),ok_bind,ih room]
    refine congrArg Except.ok (funext fun j => ?_)
    rcases Nat.lt_trichotomy j i with before | here | behind
    · have apart : j ≠ ⟨i,by omega⟩ := fun same => before.ne (congrArg Fin.val same)
      rw [if_neg (by omega),if_neg (by omega),Function.update_of_ne apart]
    · have same : j = ⟨i,by omega⟩ := Fin.ext here
      rw [if_neg (by omega),if_pos (by omega),same,Function.update_self,Nat.sub_self]
      rfl
    · have apart : j ≠ ⟨i,by omega⟩ := fun same => behind.ne' (congrArg Fin.val same)
      have next : (j : Nat) - i = j - (i + 1) + 1 := by omega
      rw [if_pos (by omega),if_pos behind.le,Function.update_of_ne apart,next]
      rfl

/-- The first place that the array does not have ends the loop. -/
theorem copyIn_outside {xs : List α} (start : i ≤ n) (outside : n < i + xs.length) :
    copyIn a i xs = .error ⟨n,n⟩ := by
  induction xs generalizing i a with
  | nil => simp at outside; omega
  | cons x xs ih =>
    rw [copyIn]
    by_cases inside : i < n
    · rw [set_inside inside,ok_bind]
      refine ih inside ?_
      simp only [List.length_cons] at outside
      omega
    · have last : i = n := by omega
      rw [set_outside (by omega),last]
      rfl

theorem copyIn_append {xs ys : List α} :
    copyIn a i (xs ++ ys) = copyIn a i xs >>= fun a => copyIn a (i + xs.length) ys := by
  induction xs generalizing i a with
  | nil => rfl
  | cons x xs ih =>
    rw [List.cons_append,copyIn,copyIn,bind_assoc]
    refine bind_congr fun b => ?_
    rw [ih,List.length_cons,Nat.add_right_comm,Nat.add_assoc]

theorem copyIn_front (a : Fin n → α) {xs : List α} (fits : xs.length ≤ n) :
    ∃ b, copyIn a 0 xs = .ok b ∧ (List.ofFn b).take xs.length = xs := by
  refine ⟨_,copyIn_inside (by omega),?_⟩
  apply List.ext_getElem
  · simpa using fits
  · intro j left right
    simp [right]

theorem copyIn_snoc {xs : List α} :
    (((copyIn a i xs).map (·,i + xs.length)) >>= fun r => set r.1 r.2 x) =
      copyIn a i (xs ++ [x]) := by
  rw [copyIn_append]
  cases copyIn a i xs with
  | error e => rfl
  | ok b =>
    change set b (i + xs.length : Nat) x = (set b (i + xs.length : Nat) x >>= Except.ok)
    exact (bind_pure _).symm

section

variable {β : Type} {f : (Fin n → α) → β → Except OutOfRange (Fin n → α)} {b : Fin n → α} {xs : List β}

/-- Each round of a loop that is gone through took its step. -/
theorem foldlM_mem (done : xs.foldlM f a = .ok b) : ∀ x ∈ xs, ∃ c d, f c x = .ok d := by
  induction xs generalizing a with
  | nil => simp
  | cons y xs ih =>
    rw [List.foldlM_cons] at done
    obtain ⟨c,first,rest⟩ := bind_ok.mp done
    rintro x (_ | ⟨_,member⟩)
    · exact ⟨a,c,first⟩
    · exact ih rest x member

/-- Rounds that fill pieces of one size, side by side, store all of them. -/
theorem foldlM_copyIn {piece : β → List α} {size : Nat} (sizes : ∀ x, (piece x).length = size)
    (each : ∀ k (inside : k < xs.length) a, f a xs[k] = copyIn a (i + size * k) (piece xs[k])) :
    xs.foldlM f a = copyIn a i (xs.flatMap piece) := by
  induction xs generalizing a i with
  | nil => rfl
  | cons x xs ih =>
    have first := each 0 (Nat.succ_pos _) a
    rw [List.foldlM_cons,List.flatMap_cons,copyIn_append,sizes]
    refine (congrArg (· >>= _) first).trans (bind_congr fun b => ih fun k inside c => ?_)
    have next := each (k + 1) (Nat.succ_lt_succ inside) c
    rwa [Nat.mul_succ,Nat.add_comm (size * k),← Nat.add_assoc] at next

end

/-- The places are read before they are written, so the loop moves the entries. -/
theorem shift_inside (inside : count + d ≤ n) (ahead : 0 < d) :
    shift a d count = .ok fun j => if below : j < count then a ⟨j + d,by omega⟩ else a j := by
  unfold shift
  induction count with
  | zero => rfl
  | succ count ih =>
    rw [List.range_succ,List.foldlM_append,ih (by omega)]
    generalize moved : (fun j : Fin n => if below : j < count then a ⟨j + d,by omega⟩ else a j) = b
    have ahead' : b ⟨count + d,by omega⟩ = a ⟨count + d,by omega⟩ := by
      rw [← moved]
      exact dif_neg (by simp)
    have round : (get b (count + d : Nat)).bind (set b count) =
        .ok (Function.update b ⟨count,by omega⟩ (a ⟨count + d,by omega⟩)) := by
      rw [get_inside (by omega),ahead']
      exact set_inside (by omega)
    refine (congrArg (fun b => b.bind pure) round).trans (congrArg Except.ok (funext fun j => ?_))
    by_cases last : (j : Nat) = count
    · have here : j = ⟨count,by omega⟩ := Fin.ext last
      subst last
      rw [dif_pos (Nat.lt_succ_self _)]
      exact Function.update_self ..
    · rw [Function.update_of_ne fun same => last (congrArg Fin.val same),← moved]
      beta_reduce
      by_cases below : (j : Nat) < count
      · rw [dif_pos below,dif_pos (Nat.lt_succ_of_lt below)]
      · rw [dif_neg below,dif_neg (by omega)]

end Checked
