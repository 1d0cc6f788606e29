import Mathlib.Data.Finmap
import Mathlib.Data.Fintype.Card

/-! Finite maps kept in a table of `n` slots. The table represents the map when no key
is in two slots and the map holds what the slots hold. -/
namespace SlotMap

variable {n : Nat} {K V : Type}

abbrev Table (n : Nat) (K V : Type) := Fin n → Option (K × V)

def set (t : Table n K V) (i : Fin n) (entry : Option (K × V)) : Table n K V :=
  fun j => if j = i then entry else t j

/-- The keys in the order of the slots. -/
def keys (t : Table n K V) : List K := (List.finRange n).filterMap fun i => (t i).map Prod.fst

theorem set_eq_some {t : Table n K V} {i j : Fin n} {entry : Option (K × V)} {a : K × V} :
    set t i entry j = some a ↔ (j = i ∧ entry = some a) ∨ (j ≠ i ∧ t j = some a) := by
  by_cases here : j = i
  · simp [set,here]
  · simp [set,here]

variable [DecidableEq K]

structure Represents (t : Table n K V) (m : Finmap fun _ : K => V) : Prop where
  distinct : ∀ i j a b, t i = some a → t j = some b → a.1 = b.1 → i = j
  lookup : ∀ k v, m.lookup k = some v ↔ ∃ i, t i = some (k,v)

section

variable {t : Table n K V} {m : Finmap fun _ : K => V} {i j : Fin n} {k : K} {v w : V}

theorem represents_empty : Represents (fun _ : Fin n => none) (∅ : Finmap fun _ : K => V) :=
  ⟨by simp,by simp⟩

namespace Represents

theorem mem_iff (rep : Represents t m) : k ∈ m ↔ ∃ i v, t i = some (k,v) := by
  rw [Finmap.mem_iff]
  constructor
  · rintro ⟨v,held⟩
    obtain ⟨i,here⟩ := (rep.lookup k v).mp held
    exact ⟨i,v,here⟩
  · rintro ⟨i,v,here⟩
    exact ⟨v,(rep.lookup k v).mpr ⟨i,here⟩⟩

theorem lookup_of_slot (rep : Represents t m) (here : t i = some (k,v)) : m.lookup k = some v :=
  (rep.lookup k v).mpr ⟨i,here⟩

theorem lookup_none (rep : Represents t m) (absent : ∀ i a, t i = some a → a.1 ≠ k) :
    m.lookup k = none := by
  rw [Finmap.lookup_eq_none,rep.mem_iff]
  rintro ⟨i,v,here⟩
  exact absent i _ here rfl

/-- A key that stands in slot `i` or nowhere can be stored there. -/
theorem insert (rep : Represents t m) (home : ∀ j a, t j = some a → a.1 = k → j = i)
    (room : ∀ a, t i = some a → a.1 = k) :
    Represents (set t i (some (k,v))) (m.insert k v) := by
  constructor
  · intro j l a b inJ inL same
    rcases set_eq_some.mp inJ with ⟨rfl,isA⟩ | ⟨awayJ,heldJ⟩
    all_goals rcases set_eq_some.mp inL with ⟨rfl,isB⟩ | ⟨awayL,heldL⟩
    · rfl
    · obtain rfl := Option.some.inj isA
      exact absurd (home l b heldL same.symm) awayL
    · obtain rfl := Option.some.inj isB
      exact absurd (home j a heldJ same) awayJ
    · exact rep.distinct j l a b heldJ heldL same
  · intro k' v'
    by_cases here : k' = k
    · subst here
      rw [Finmap.lookup_insert]
      constructor
      · rintro ⟨⟩
        exact ⟨i,set_eq_some.mpr (.inl ⟨rfl,rfl⟩)⟩
      · rintro ⟨j,held⟩
        rcases set_eq_some.mp held with ⟨-,same⟩ | ⟨away,held⟩
        · rw [(Prod.mk.inj (Option.some.inj same)).2]
        · exact absurd (home j _ held rfl) away
    · rw [Finmap.lookup_insert_of_ne m here,rep.lookup]
      apply exists_congr
      intro j
      rw [set_eq_some]
      constructor
      · intro held
        refine .inr ⟨?_,held⟩
        rintro rfl
        exact here (room _ held)
      · rintro (⟨-,same⟩ | ⟨-,held⟩)
        · exact absurd (Prod.mk.inj (Option.some.inj same)).1.symm here
        · exact held

theorem erase (rep : Represents t m) (here : t i = some (k,v)) :
    Represents (set t i none) (m.erase k) := by
  have kept {j : Fin n} {a : K × V} (held : set t i none j = some a) : j ≠ i ∧ t j = some a := by
    rcases set_eq_some.mp held with ⟨-,none⟩ | held
    · cases none
    · exact held
  constructor
  · intro j l a b inJ inL same
    exact rep.distinct j l a b (kept inJ).2 (kept inL).2 same
  · intro k' v'
    by_cases gone : k' = k
    · subst gone
      rw [Finmap.lookup_erase]
      constructor
      · intro none
        cases none
      · rintro ⟨j,held⟩
        exact absurd (rep.distinct j i _ _ (kept held).2 here rfl) (kept held).1
    · rw [Finmap.lookup_erase_ne gone,rep.lookup]
      apply exists_congr
      intro j
      constructor
      · intro held
        refine set_eq_some.mpr (.inr ⟨?_,held⟩)
        rintro rfl
        exact gone (Prod.mk.inj (Option.some.inj (held.symm.trans here))).1
      · exact fun held => (kept held).2

theorem mem_keys (rep : Represents t m) : k ∈ keys t ↔ k ∈ m := by
  rw [rep.mem_iff]
  simp [keys]

theorem keys_nodup (rep : Represents t m) : (keys t).Nodup := by
  refine List.Nodup.filterMap ?_ (List.nodup_finRange n)
  intro i j k inI inJ
  obtain ⟨a,hereI,rfl⟩ := Option.map_eq_some_iff.mp inI
  obtain ⟨b,hereJ,same⟩ := Option.map_eq_some_iff.mp inJ
  exact rep.distinct i j a b hereI hereJ same.symm

theorem keys_length (rep : Represents t m) : (keys t).length = m.keys.card := by
  have same : (keys t).toFinset = m.keys := by
    ext k
    rw [List.mem_toFinset,rep.mem_keys,Finmap.mem_keys]
  rw [← same,List.toFinset_card_of_nodup rep.keys_nodup]

theorem card_le (rep : Represents t m) : m.keys.card ≤ n := by
  rw [← rep.keys_length]
  exact (List.length_filterMap_le _ _).trans_eq (List.length_finRange)

/-- There is no free slot just when the map has as many keys as the table has slots. -/
theorem full_iff (rep : Represents t m) : (∀ i, t i ≠ none) ↔ m.keys.card = n := by
  have slots : (keys t).length = (List.finRange n).length ↔ ∀ i, t i ≠ none := by
    rw [keys,List.filterMap_length_eq_length]
    simp [Option.ne_none_iff_exists',Option.isSome_iff_exists]
  rw [← slots,rep.keys_length,List.length_finRange]

end Represents

end

end SlotMap
