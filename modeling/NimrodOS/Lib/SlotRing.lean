import Mathlib.Data.Fin.Basic
import Mathlib.Data.List.GetD
import Mathlib.Data.List.Induction
import Mathlib.Data.Nat.ModEq

/-! A ring of slots that is filled round and round, the oldest entry first overwritten. -/

structure SlotRing (n : Nat) (α : Type) where
  slots : Fin n → α
  next : Nat

namespace SlotRing

variable {α : Type} {n : Nat}

/-- The entry that the slot of `a` holds once `later` went into the ring behind it: of
every `n` later ones, the last takes the slot. -/
def lastTurn (n : Nat) (a : α) (later : List α) : α := (a :: later).getD (n * (later.length / n)) a

theorem lastTurn_short {a : α} {later : List α} (few : later.length < n) : lastTurn n a later = a := by
  rw [lastTurn,Nat.div_eq_of_lt few]
  rfl

theorem lastTurn_snoc (n : Nat) (a b : α) (later : List α) : lastTurn n a (later ++ [b]) =
    if n ∣ later.length + 1 then b else lastTurn n a later := by
  have room : n * (later.length / n) ≤ later.length := Nat.mul_div_le _ _
  simp only [lastTurn,List.length_append,List.length_singleton,← List.cons_append]
  by_cases turn : n ∣ later.length + 1
  · have whole : n * ((later.length + 1) / n) = (a :: later).length := Nat.mul_div_cancel' turn
    rw [if_pos turn,whole,List.getD_append_right _ _ _ _ (Nat.le_refl _)]
    simp
  · rw [if_neg turn,Nat.succ_div,if_neg turn,List.getD_append _ _ _ _ (Nat.lt_succ_of_le room)]
    rfl

variable [NeZero n]

def slot (r : SlotRing n α) : Fin n := Fin.ofNat n r.next

def push (r : SlotRing n α) (a : α) : SlotRing n α where
  slots := fun j => if j = r.slot then a else r.slots j
  next := r.next + 1

def pushAll (r : SlotRing n α) (as : List α) : SlotRing n α := as.foldl push r

theorem pushAll_append (r : SlotRing n α) (as bs : List α) :
    r.pushAll (as ++ bs) = (r.pushAll as).pushAll bs := List.foldl_append

theorem pushAll_snoc (r : SlotRing n α) (as : List α) (a : α) :
    r.pushAll (as ++ [a]) = (r.pushAll as).push a := pushAll_append r as [a]

theorem pushAll_next (r : SlotRing n α) (as : List α) : (r.pushAll as).next = r.next + as.length := by
  induction as using List.reverseRecOn with
  | nil => rfl
  | append_singleton as a ih =>
    rw [pushAll_snoc,push,ih,List.length_append,List.length_singleton,Nat.add_assoc]

/-- What became of an entry. -/
theorem pushAll_slots (r : SlotRing n α) (a : α) (later : List α) :
    ((r.push a).pushAll later).slots r.slot = lastTurn n a later := by
  induction later using List.reverseRecOn with
  | nil => simp [pushAll,push,lastTurn]
  | append_singleton later b ih =>
    have turn : r.slot = ((r.push a).pushAll later).slot ↔ n ∣ later.length + 1 := by
      rw [slot,slot,pushAll_next,push,Fin.ext_iff,Fin.val_ofNat,Fin.val_ofNat]
      have far : r.next + 1 + later.length = r.next + (later.length + 1) := by omega
      rw [far]
      exact Nat.left_modEq_add_iff
    simp only [pushAll_snoc,lastTurn_snoc,← ih,← turn]
    rfl

end SlotRing
