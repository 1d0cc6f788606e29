import Mathlib.Data.Fin.Basic
import NimrodOS.Lib.OrderedMap

/-! Ordered maps whose entries stand in the first rows of a table. -/
namespace OrderedMap

variable {n count : Nat} {K V : Type} {m : OrderedMap n K V} {row : Fin n → K × V}
  {r : Fin n} {k : K} {v : V}

/-- The rows below `count` hold the entries in their order. -/
structure InRows (m : OrderedMap n K V) (row : Fin n → K × V) (count : Nat) : Prop where
  length : m.entries.length = count
  at_row : ∀ r : Fin n, r < count → m.entries[(r : Nat)]? = some (row r)

namespace InRows

theorem mem (inRows : m.InRows row count) (below : r < count) : row r ∈ m.entries :=
  List.mem_of_getElem? (inRows.at_row r below)

theorem exists_row {e : K × V} (inRows : m.InRows row count) (member : e ∈ m.entries) :
    ∃ r : Fin n, r < count ∧ row r = e := by
  obtain ⟨i,here⟩ := List.mem_iff_getElem?.mp member
  have inside := (List.getElem?_eq_some_iff.mp here).1
  have below : i < count := inside.trans_eq inRows.length
  refine ⟨⟨i,inside.trans_le m.room⟩,below,?_⟩
  exact Option.some.inj ((inRows.at_row _ below).symm.trans here)

theorem mem_keys (inRows : m.InRows row count) (below : r < count) (same : (row r).1 = k) :
    k ∈ m.keys :=
  mem_keys_iff.mpr ⟨(row r).2,by rw [← same]; exact inRows.mem below⟩

theorem notMem_keys (inRows : m.InRows row count) (missing : ∀ r : Fin n, r < count → (row r).1 ≠ k) :
    k ∉ m.keys := by
  intro member
  obtain ⟨v,member⟩ := mem_keys_iff.mp member
  obtain ⟨r,below,here⟩ := inRows.exists_row member
  exact missing r below (congrArg Prod.fst here)

theorem distinct {i j : Fin n} (inRows : m.InRows row count) (low : i < count) (high : j < count)
    (same : (row i).1 = (row j).1) : i = j := by
  have length := inRows.length
  have key {r : Fin n} (below : r < count) :
      (m.entries.map Prod.fst)[(r : Nat)]? = some (row r).1 := by
    rw [List.getElem?_map,inRows.at_row r below]
    rfl
  have inside : (i : Nat) < (m.entries.map Prod.fst).length := by
    rw [List.length_map,length]
    exact low
  exact Fin.ext ((List.getElem?_inj inside m.distinct).mp (by rw [key low,key high,same]))

variable [DecidableEq K]

theorem find (inRows : m.InRows row count) (below : r < count) (same : (row r).1 = k) :
    m.find k = some (row r).2 := by
  rw [find_eq_some,← same]
  exact inRows.mem below

/-- Overwriting the row of a key. -/
theorem store_known (inRows : m.InRows row count) (row' : Fin n → K × V) (below : r < count) (same : (row r).1 = k)
    (here : row' r = (k,v)) (others : ∀ j : Fin n, j < count → j ≠ r → row' j = row j) :
    ∃ m', m.Stores k v m' ∧ m'.InRows row' count := by
  have known := inRows.mem_keys below same
  have entry : m.entries[(r : Nat)]? = some (k,(row r).2) := by
    rw [inRows.at_row r below,← same]
  obtain ⟨m',stores⟩ := m.exists_stores k v (.inl known)
  have entries := stores
  rw [Stores,if_pos known,updated_eq_set entry] at entries
  refine ⟨m',stores,by rw [entries,List.length_set,inRows.length],fun j inside => ?_⟩
  rw [entries,List.getElem?_set,inRows.length]
  by_cases there : j = r
  · rw [there,if_pos rfl,if_pos below,here]
  · rw [if_neg fun equal => there (Fin.ext equal.symm),others j inside there]
    exact inRows.at_row j inside

/-- Filling the first free row. -/
theorem store_new (inRows : m.InRows row count) (row' : Fin n → K × V) (missing : k ∉ m.keys) (room : count < n)
    (here : row' ⟨count,room⟩ = (k,v)) (others : ∀ j : Fin n, j < count → row' j = row j) :
    ∃ m', m.Stores k v m' ∧ m'.InRows row' (count + 1) := by
  have length := inRows.length
  obtain ⟨m',stores⟩ := m.exists_stores k v (.inr (length.trans_lt room))
  have entries := stores
  rw [Stores,if_neg missing] at entries
  refine ⟨m',stores,by rw [entries,List.length_append,length]; rfl,fun j inside => ?_⟩
  rw [entries]
  by_cases last : (j : Nat) = count
  · have free : row' j = (k,v) := (congrArg row' (Fin.ext last)).trans here
    rw [free,last,← length,List.getElem?_concat_length]
  · have old : (j : Nat) < count := lt_of_le_of_ne (Nat.le_of_lt_succ inside) last
    rw [List.getElem?_append_left (old.trans_eq length.symm),others j old]
    exact inRows.at_row j old

/-- Moving the rows behind a key down by one. -/
theorem remove (inRows : m.InRows row count) (row' : Fin n → K × V) (below : r < count) (same : (row r).1 = k)
    (before : ∀ j : Fin n, (j : Nat) < r → row' j = row j)
    (behind : ∀ j next : Fin n, (r : Nat) ≤ j → (next : Nat) = j + 1 → next < count → row' j = row next) :
    ∃ m', m.Removes k m' ∧ m'.InRows row' (count - 1) := by
  have length := inRows.length
  have room := m.room
  have entry : m.entries[(r : Nat)]? = some (k,(row r).2) := by
    rw [inRows.at_row r below,← same]
  obtain ⟨m',removes⟩ := m.exists_removes k
  have entries := removes
  rw [Removes,removed_eq_eraseIdx entry] at entries
  refine ⟨m',removes,?_,fun j inside => ?_⟩
  · rw [entries,List.length_eraseIdx,if_pos (below.trans_eq length.symm),length]
  · rw [entries,List.getElem?_eraseIdx]
    by_cases early : (j : Nat) < r
    · rw [if_pos early,before j early]
      exact inRows.at_row j (by omega)
    · have next : (j : Nat) + 1 < n := by omega
      rw [if_neg early,behind j ⟨j + 1,next⟩ (not_lt.mp early) rfl (Nat.add_lt_of_lt_sub inside)]
      exact inRows.at_row ⟨j + 1,next⟩ (Nat.add_lt_of_lt_sub inside)

end InRows

end OrderedMap
