import Mathlib.Algebra.Group.Basic
import Mathlib.Data.List.Induction

/-! A direction that keys change, where a key against the direction at that time does not count.
A key off the axis and then one on it can still turn it around. -/
namespace Turning

variable {α : Type} [InvolutiveNeg α] {v d key : α} {ks : List α}

def press [DecidableEq α] (d key : α) : α := if key = -d then d else key

def Along (v d : α) : Prop := d = v ∨ d = -v

/-- The keys turn off, and then back against the direction before. -/
def TurnsBack (v : α) (ks : List α) : Prop := ∃ front turn rest,
  ks = front ++ turn :: -v :: rest ∧ ¬Along v turn ∧ ∀ d ∈ rest, Along v d

/-- The last of the keys turns off. -/
def TurnsOff (v : α) (ks : List α) : Prop := ∃ front turn, ks = front ++ [turn] ∧ ¬Along v turn

theorem along_neg : Along v (-d) ↔ Along v d := by
  rw [Along,Along,neg_inj,neg_eq_iff_eq_neg]
  exact Or.comm

theorem turnsOff_snoc : TurnsOff v (ks ++ [key]) ↔ ¬Along v key := by
  constructor
  · rintro ⟨front,turn,same,off⟩
    obtain ⟨-,last⟩ := List.append_inj' same rfl
    rwa [List.singleton_inj.mp last]
  · exact fun off => ⟨ks,key,rfl,off⟩

theorem turnsBack_snoc_off (off : ¬Along v key) : ¬TurnsBack v (ks ++ [key]) := by
  rintro ⟨front,turn,rest,same,-,along⟩
  rcases List.eq_nil_or_concat rest with rfl | ⟨rest,last,rfl⟩
  · have split : ks ++ [key] = (front ++ [turn]) ++ [-v] := by simpa using same
    obtain ⟨-,last⟩ := List.append_inj' split rfl
    exact off (.inr (List.singleton_inj.mp last))
  · have split : ks ++ [key] = (front ++ turn :: -v :: rest) ++ [last] := by simpa using same
    obtain ⟨-,end'⟩ := List.append_inj' split rfl
    rw [List.singleton_inj.mp end'] at off
    exact off (along last (by simp))

theorem turnsBack_snoc (along : Along v key) :
    TurnsBack v (ks ++ [key]) ↔ TurnsBack v ks ∨ key = -v ∧ TurnsOff v ks := by
  constructor
  · rintro ⟨front,turn,rest,same,off,later⟩
    rcases List.eq_nil_or_concat rest with rfl | ⟨rest,last,rfl⟩
    · have split : ks ++ [key] = (front ++ [turn]) ++ [-v] := by simpa using same
      obtain ⟨init,last⟩ := List.append_inj' split rfl
      exact .inr ⟨List.singleton_inj.mp last,front,turn,init,off⟩
    · have split : ks ++ [key] = (front ++ turn :: -v :: rest) ++ [last] := by simpa using same
      obtain ⟨init,-⟩ := List.append_inj' split rfl
      exact .inl ⟨front,turn,rest,init,off,fun d member => later d (by simp [member])⟩
  · rintro (⟨front,turn,rest,rfl,off,later⟩ | ⟨rfl,front,turn,rfl,off⟩)
    · refine ⟨front,turn,rest ++ [key],by simp,off,fun d member => ?_⟩
      rcases List.mem_append.mp member with before | last
      · exact later d before
      · rwa [List.mem_singleton.mp last]
    · exact ⟨front,turn,[],by simp,off,by simp⟩

/-- One key, taken while the direction is `d`. -/
theorem press_iff [DecidableEq α] (v d key : α) : (Along v (press d key) ↔ Along v key) ∧
    (press d key = -v ↔ Along v key ∧ (d = -v ∨ key = -v ∧ ¬Along v d)) := by
  by_cases against : key = -d
  · have same : press d key = d := if_pos against
    rw [same,against,along_neg]
    refine ⟨Iff.rfl,?_⟩
    constructor
    · exact fun back => ⟨.inr back,.inl back⟩
    · rintro ⟨along,back | ⟨-,off⟩⟩
      · exact back
      · exact absurd along off
  · have same : press d key = key := if_neg against
    rw [same]
    refine ⟨Iff.rfl,?_⟩
    constructor
    · intro back
      have forward : d ≠ v := fun forward => against (by rw [back,forward])
      refine ⟨.inr back,?_⟩
      by_cases before : d = -v
      · exact .inl before
      · exact .inr ⟨back,fun along => along.elim forward before⟩
    · rintro ⟨along,back | ⟨back,-⟩⟩
      · exact along.resolve_left fun forward => against (by rw [back,forward,neg_neg])
      · exact back

/-- The direction is off the axis behind a key off it, and against the first direction behind keys
that turn back. -/
theorem foldl_press [DecidableEq α] (apart : v ≠ -v) (ks : List α) :
    (¬Along v (ks.foldl press v) ↔ TurnsOff v ks) ∧ (ks.foldl press v = -v ↔ TurnsBack v ks) := by
  induction ks using List.reverseRecOn with
  | nil => simp [TurnsOff,TurnsBack,Along,apart]
  | append_singleton ks key ih =>
    rw [List.foldl_append,List.foldl_cons,List.foldl_nil,turnsOff_snoc]
    obtain ⟨off,back⟩ := ih
    obtain ⟨axis,against⟩ := press_iff v (ks.foldl press v) key
    refine ⟨not_congr axis,?_⟩
    by_cases along : Along v key
    · rw [against,turnsBack_snoc along,back,off]
      exact and_iff_right along
    · rw [against]
      exact iff_of_false (fun both => along both.1) (turnsBack_snoc_off along)

end Turning
