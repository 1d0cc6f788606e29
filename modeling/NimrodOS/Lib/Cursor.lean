import Mathlib.Data.List.GetD
import NimrodOS.Lib.Checked

/-! Arrays that are filled through a moving pointer. A place may be left free and be filled in
once what follows it is known. -/
namespace Cursor

open Checked

variable {α : Type} {n i : Nat} {x : α} {xs ys : List α}

/-- An array and the place where the next element goes. -/
structure Writer (n : Nat) (α : Type) where
  contents : Fin n → α
  place : Nat

/-- `*ptr++ = x;` -/
def Writer.push (w : Writer n α) (x : α) : Except OutOfRange (Writer n α) :=
  (set w.contents w.place x).map fun contents => ⟨contents,w.place + 1⟩

def Writer.pushAll (w : Writer n α) (xs : List α) : Except OutOfRange (Writer n α) :=
  xs.foldlM Writer.push w

/-- `place = ptr++;` -/
def Writer.skip (w : Writer n α) : Writer n α := ⟨w.contents,w.place + 1⟩

/-- `*place = x;` -/
def Writer.patch (w : Writer n α) (place : Nat) (x : α) : Except OutOfRange (Writer n α) :=
  (set w.contents place x).map fun contents => ⟨contents,w.place⟩

/-- The elements from a place on. -/
def overlay (a : Fin n → α) (i : Nat) (xs : List α) : Fin n → α := fun j =>
  if i ≤ j then xs.getD (j - i) (a j) else a j

variable {a : Fin n → α} {w v : Writer n α}

theorem overlay_nil : overlay a i [] = a := by
  funext j
  simp [overlay]

theorem overlay_append : overlay (overlay a i xs) (i + xs.length) ys = overlay a i (xs ++ ys) := by
  funext j
  simp only [overlay]
  by_cases above : i ≤ j
  · by_cases behind : i + xs.length ≤ j
    · have distance : (j : Nat) - i - xs.length = j - (i + xs.length) := by omega
      have beyond : xs.length ≤ (j : Nat) - i := by omega
      rw [if_pos behind,if_pos above,if_pos above,List.getD_eq_default xs _ beyond,
        List.getD_append_right _ _ _ _ beyond,distance]
    · rw [if_neg behind,if_pos above,if_pos above,List.getD_append _ _ _ _ (by omega)]
  · rw [if_neg (by omega),if_neg above,if_neg above]

theorem set_overlay (inside : i < n) : set a i x = .ok (overlay a i [x]) := by
  rw [set_inside inside]
  refine congrArg Except.ok (funext fun j => ?_)
  simp only [overlay]
  by_cases here : (j : Nat) = i
  · have same : j = ⟨i,inside⟩ := Fin.ext here
    rw [same,Function.update_self,if_pos (Nat.le_refl i)]
    simp
  · rw [Function.update_of_ne fun same => here (congrArg Fin.val same)]
    split
    · rw [List.getD_eq_default _ _ (by simp; omega)]
    · rfl

theorem set_beyond (beyond : n ≤ i) : ∃ e, Checked.set a i x = .error e := by
  have outside : ¬(0 ≤ (i : Int) ∧ (i : Int) < n) := by omega
  rw [Checked.set,index,dif_neg outside]
  exact ⟨_,rfl⟩

theorem push_inside (inside : w.place < n) :
    w.push x = .ok ⟨overlay w.contents w.place [x],w.place + 1⟩ := by
  rw [Writer.push,set_overlay inside]
  rfl

theorem push_beyond (beyond : n ≤ w.place) : ∃ e, w.push x = .error e := by
  obtain ⟨e,failed⟩ := set_beyond beyond
  rw [Writer.push,failed]
  exact ⟨e,rfl⟩

theorem pushAll_cons (w : Writer n α) (x : α) (xs : List α) :
    w.pushAll (x :: xs) = (w.push x).bind (·.pushAll xs) := rfl

theorem pushAll_inside (fits : w.place + xs.length ≤ n) :
    w.pushAll xs = .ok ⟨overlay w.contents w.place xs,w.place + xs.length⟩ := by
  induction xs generalizing w with
  | nil =>
    rw [overlay_nil]
    rfl
  | cons x xs ih =>
    rw [List.length_cons] at fits ⊢
    rw [pushAll_cons,push_inside (by omega),Except.bind,ih (by dsimp only; omega)]
    have longer : w.place + 1 + xs.length = w.place + (xs.length + 1) := by omega
    have parts : overlay (overlay w.contents w.place [x]) (w.place + 1) xs =
        overlay w.contents w.place (x :: xs) := overlay_append
    simp only [longer,parts]

theorem pushAll_beyond (some : xs ≠ []) (beyond : n < w.place + xs.length) :
    ∃ e, w.pushAll xs = .error e := by
  induction xs generalizing w with
  | nil => exact absurd rfl some
  | cons x xs ih =>
    rw [List.length_cons] at beyond
    rw [pushAll_cons]
    by_cases inside : w.place < n
    · have more : xs ≠ [] := by
        rintro rfl
        simp only [List.length_nil] at beyond
        omega
      rw [push_inside inside]
      exact ih more (by dsimp only; omega)
    · obtain ⟨e,failed⟩ := push_beyond (x := x) (Nat.le_of_not_lt inside)
      rw [failed]
      exact ⟨e,rfl⟩

/-- The place that was left free comes before what was written since. -/
theorem overlay_patch :
    overlay (overlay a (i + 1) xs) i [x] = overlay a i (x :: xs) := by
  funext j
  simp only [overlay]
  by_cases above : i + 1 ≤ j
  · have next : (j : Nat) - i = j - (i + 1) + 1 := by omega
    rw [if_pos above,if_pos (by omega),if_pos (by omega),next]
    simp
  · rw [if_neg above]
    by_cases here : i ≤ j
    · have zero : (j : Nat) - i = 0 := by omega
      rw [if_pos here,if_pos here,zero]
      simp
    · rw [if_neg here,if_neg here]

/-- A place that is filled in afterwards. -/
theorem backpatch_inside (fits : w.place + 1 + xs.length ≤ n) :
    (w.skip.pushAll xs).bind (·.patch w.place x) =
      .ok ⟨overlay w.contents w.place (x :: xs),w.place + 1 + xs.length⟩ := by
  have inside : w.place < n := by omega
  rw [pushAll_inside fits,Except.bind,Writer.patch,set_overlay inside]
  exact congrArg (fun contents => Except.ok (⟨contents,_⟩ : Writer n α)) overlay_patch

theorem backpatch_beyond (beyond : n < w.place + 1 + xs.length) :
    ∃ e, (w.skip.pushAll xs).bind (·.patch w.place x) = .error e := by
  cases xs with
  | nil =>
    obtain ⟨e,failed⟩ := set_beyond (a := w.contents) (x := x) (Nat.le_of_lt_succ beyond)
    refine ⟨e,?_⟩
    change (Checked.set w.contents w.place x).map _ = _
    rw [failed]
    rfl
  | cons y ys =>
    obtain ⟨e,failed⟩ := pushAll_beyond (w := w.skip) (List.cons_ne_nil y ys) beyond
    rw [failed]
    exact ⟨e,rfl⟩

end Cursor
