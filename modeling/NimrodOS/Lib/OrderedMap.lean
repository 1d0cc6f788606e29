import Mathlib.Data.List.Nodup

/-! Maps with room for `n` keys that keep the order in which the keys came in. -/

structure OrderedMap (n : Nat) (K V : Type) where
  entries : List (K × V)
  distinct : (entries.map Prod.fst).Nodup
  room : entries.length ≤ n

namespace OrderedMap

section

variable {n i : Nat} {K V : Type}

def empty (n : Nat) (K V : Type) : OrderedMap n K V := ⟨[],List.nodup_nil,Nat.zero_le n⟩

def keys (m : OrderedMap n K V) : List K := m.entries.map Prod.fst

variable {m : OrderedMap n K V} {k : K} {v w : V}

theorem mem_keys_iff : k ∈ m.keys ↔ ∃ v, (k,v) ∈ m.entries := by
  simp [keys]

theorem value_unique (first : (k,v) ∈ m.entries) (second : (k,w) ∈ m.entries) : v = w :=
  (Prod.mk.inj (List.inj_on_of_nodup_map m.distinct first second rfl)).2

/-- The entries before and behind a place have other keys. -/
theorem apart (here : m.entries[i]? = some (k,v)) :
    ∀ e ∈ m.entries.take i ++ m.entries.drop (i + 1), e.1 ≠ k := by
  obtain ⟨inside,entry⟩ := List.getElem?_eq_some_iff.mp here
  have distinct := m.distinct
  rw [← List.take_append_drop i m.entries,List.drop_eq_getElem_cons inside,entry,List.map_append,
    List.map_cons,List.nodup_middle,List.nodup_cons,← List.map_append] at distinct
  intro e member same
  exact distinct.1 (List.mem_map.mpr ⟨e,member,same⟩)

theorem split (here : m.entries[i]? = some (k,v)) :
    m.entries = m.entries.take i ++ (k,v) :: m.entries.drop (i + 1) := by
  obtain ⟨inside,entry⟩ := List.getElem?_eq_some_iff.mp here
  rw [← entry,← List.drop_eq_getElem_cons inside,List.take_append_drop]

end

variable {n i : Nat} {K V : Type} [DecidableEq K] {m m' : OrderedMap n K V} {k key : K} {v w : V}

def find (m : OrderedMap n K V) (k : K) : Option V :=
  (m.entries.find? fun e => e.1 = k).map Prod.snd

/-- A key that is there keeps its place. -/
def updated (entries : List (K × V)) (k : K) (v : V) : List (K × V) :=
  entries.map fun e => if e.1 = k then (k,v) else e

/-- The entries without a key. -/
def removed (entries : List (K × V)) (k : K) : List (K × V) := entries.filter fun e => e.1 ≠ k

/-- Storing a value under a key. -/
def Stores (m : OrderedMap n K V) (k : K) (v : V) (m' : OrderedMap n K V) : Prop :=
  m'.entries = if k ∈ m.keys then updated m.entries k v else m.entries ++ [(k,v)]

def Removes (m : OrderedMap n K V) (k : K) (m' : OrderedMap n K V) : Prop :=
  m'.entries = removed m.entries k

theorem find?_key {e : K × V} (here : m.entries.find? (fun e => e.1 = k) = some e) :
    e.1 = k ∧ e ∈ m.entries :=
  ⟨by simpa using List.find?_some here,List.mem_of_find?_eq_some here⟩

theorem find_eq_some : m.find k = some v ↔ (k,v) ∈ m.entries := by
  constructor
  · intro found
    obtain ⟨e,here,rfl⟩ := Option.map_eq_some_iff.mp found
    obtain ⟨rfl,member⟩ := find?_key here
    exact member
  · intro member
    cases here : m.entries.find? fun e => e.1 = k with
    | none => exact absurd (decide_eq_true rfl) (List.find?_eq_none.mp here (k,v) member)
    | some e =>
      obtain ⟨rfl,there⟩ := find?_key here
      rw [find,here,Option.map_some]
      exact congrArg some (value_unique there member)

theorem find_eq_none : m.find k = none ↔ k ∉ m.keys := by
  rw [mem_keys_iff,Option.eq_none_iff_forall_ne_some,not_exists]
  exact forall_congr' fun v => not_congr find_eq_some

theorem updated_of_notMem {entries : List (K × V)} (absent : k ∉ entries.map Prod.fst) :
    updated entries k v = entries := by
  refine (List.map_congr_left fun e member => if_neg fun same => ?_).trans (List.map_id' _)
  exact absent (same ▸ List.mem_map_of_mem member)

theorem removed_of_notMem {entries : List (K × V)} (absent : k ∉ entries.map Prod.fst) :
    removed entries k = entries :=
  List.filter_eq_self.mpr fun _ member => decide_eq_true fun same =>
    absent (same ▸ List.mem_map_of_mem member)

/-- The first entry of a key is the only one. -/
theorem removed_eq_eraseP {entries : List (K × V)} (distinct : (entries.map Prod.fst).Nodup) (k : K) :
    removed entries k = entries.eraseP fun e => e.1 = k := by
  induction entries with
  | nil => rfl
  | cons e entries ih =>
    obtain ⟨absent,distinct⟩ := List.nodup_cons.mp distinct
    by_cases same : e.1 = k
    · rw [removed,List.filter_cons_of_neg (by simpa using same),
        List.eraseP_cons_of_pos (by simpa using same)]
      exact removed_of_notMem (same ▸ absent)
    · rw [removed,List.filter_cons_of_pos (by simpa using same),
        List.eraseP_cons_of_neg (by simpa using same),← ih distinct]
      rfl

/-! By places. -/

/-- Only one place changes. -/
theorem updated_eq_set (here : m.entries[i]? = some (k,v)) (w : V) :
    updated m.entries k w = m.entries.set i (k,w) := by
  have others (e) (member : e ∈ m.entries.take i ++ m.entries.drop (i + 1)) :
      (if e.1 = k then (k,w) else e) = e := if_neg (apart here e member)
  have inside := (List.getElem?_eq_some_iff.mp here).1
  rw [List.set_eq_take_append_cons_drop,if_pos inside,updated]
  nth_rewrite 1 [split here]
  rw [List.map_append,List.map_cons,if_pos rfl,
    List.map_congr_left fun e member => others e (List.mem_append_left _ member),
    List.map_congr_left fun e member => others e (List.mem_append_right _ member),List.map_id',
    List.map_id']

theorem removed_eq_eraseIdx (here : m.entries[i]? = some (k,v)) :
    removed m.entries k = m.entries.eraseIdx i := by
  have others (e) (member : e ∈ m.entries.take i ++ m.entries.drop (i + 1)) :
      decide (e.1 ≠ k) = true := decide_eq_true (apart here e member)
  rw [List.eraseIdx_eq_take_drop_succ,removed]
  nth_rewrite 1 [split here]
  rw [List.filter_append,List.filter_cons_of_neg (by simp),← List.filter_append,
    List.filter_eq_self.mpr others]

/-! Storing and removing lead to maps again. -/

theorem keys_updated (k : K) (v : V) :
    (updated m.entries k v).map Prod.fst = m.entries.map Prod.fst := by
  rw [updated,List.map_map]
  refine List.map_congr_left fun e _ => ?_
  show (if e.1 = k then (k,v) else e).1 = e.1
  split_ifs with same
  · exact same.symm
  · rfl

theorem exists_stores (k : K) (v : V) (room : k ∈ m.keys ∨ m.entries.length < n) :
    ∃ m', Stores m k v m' := by
  by_cases known : k ∈ m.keys
  · refine ⟨⟨updated m.entries k v,?_,?_⟩,(if_pos known).symm⟩
    · rw [keys_updated]
      exact m.distinct
    · rw [updated,List.length_map]
      exact m.room
  · refine ⟨⟨m.entries ++ [(k,v)],?_,?_⟩,(if_neg known).symm⟩
    · rw [List.map_append,List.map_singleton,← List.concat_eq_append]
      exact List.Nodup.concat known m.distinct
    · rw [List.length_append,List.length_singleton]
      exact room.resolve_left known

theorem exists_removes (m : OrderedMap n K V) (k : K) : ∃ m', Removes m k m' :=
  ⟨⟨removed m.entries k,m.distinct.sublist (List.filter_sublist.map _),
    Nat.le_trans (List.length_filter_le ..) m.room⟩,rfl⟩

namespace Stores

theorem mem_iff (stores : Stores m k v m') :
    (key,w) ∈ m'.entries ↔ if key = k then w = v else (key,w) ∈ m.entries := by
  rw [stores]
  by_cases known : k ∈ m.keys
  · obtain ⟨old,held⟩ := mem_keys_iff.mp known
    rw [if_pos known,updated,List.mem_map]
    constructor
    · rintro ⟨e,member,same⟩
      by_cases here : e.1 = k
      · rw [if_pos here] at same
        obtain ⟨rfl,rfl⟩ := Prod.mk.inj same
        rw [if_pos rfl]
      · rw [if_neg here] at same
        subst same
        rwa [if_neg here]
    · split_ifs with here
      · rintro rfl
        exact ⟨(k,old),held,by rw [if_pos rfl,here]⟩
      · exact fun member => ⟨_,member,if_neg here⟩
  · rw [if_neg known,List.mem_append,List.mem_singleton,Prod.mk.injEq]
    split_ifs with here
    · subst here
      have absent : (key,w) ∉ m.entries := fun member => known (mem_keys_iff.mpr ⟨w,member⟩)
      rw [or_iff_right absent,and_iff_right rfl]
    · rw [or_iff_left fun both => here both.1]

theorem find_same (stores : Stores m k v m') : m'.find k = some v := by
  rw [find_eq_some,stores.mem_iff,if_pos rfl]

theorem find_other (stores : Stores m k v m') (other : key ≠ k) : m'.find key = m.find key := by
  refine Option.ext fun w => ?_
  rw [find_eq_some,find_eq_some,stores.mem_iff,if_neg other]

/-- What holds of the entries and of the new one. -/
theorem forall_mem {P : K × V → Prop} (stores : Stores m k v m') (old : ∀ e ∈ m.entries, P e)
    (new : P (k,v)) : ∀ e ∈ m'.entries, P e := by
  rintro ⟨key,w⟩ member
  rw [stores.mem_iff] at member
  split_ifs at member with here
  · rwa [here,member]
  · exact old _ member

end Stores

namespace Removes

theorem mem_iff (removes : Removes m k m') :
    (key,w) ∈ m'.entries ↔ (key,w) ∈ m.entries ∧ key ≠ k := by
  rw [removes,removed,List.mem_filter,decide_eq_true_iff]

theorem find_same (removes : Removes m k m') : m'.find k = none := by
  rw [find_eq_none,mem_keys_iff]
  rintro ⟨v,member⟩
  exact (removes.mem_iff.mp member).2 rfl

theorem find_other (removes : Removes m k m') (other : key ≠ k) : m'.find key = m.find key := by
  refine Option.ext fun w => ?_
  rw [find_eq_some,find_eq_some,removes.mem_iff,and_iff_left other]

theorem forall_mem {P : K × V → Prop} (removes : Removes m k m') (old : ∀ e ∈ m.entries, P e) :
    ∀ e ∈ m'.entries, P e := fun e member => old e (removes.mem_iff.mp member).1

end Removes

end OrderedMap
