import NimrodOS.Env
import NimrodOS.Lib.RowMap
import NimrodOS.Lib.Run

/-! What the environment is for: a map with room for 32 names that keeps their order. -/
namespace NimrodOS.Env

open Libc Transition

abbrev EnvMap := OrderedMap 32 CString CString

/-- The part of a value that is kept. -/
def clip (value : CString) : CString :=
  ⟨value.val.take 127,fun member => value.property (List.mem_of_mem_take member)⟩

/-- The reply that a call gets from the map, and the map afterwards. -/
def Answers (m : EnvMap) : Call → Reply → EnvMap → Prop
  | .set key value,.code r,m' =>
    if key.val ∉ m.keys ∧ m.entries.length = 32 then r = -1 ∧ m' = m
    else r = 0 ∧ m.Stores key (clip value) m'
  | .unset key,.code r,m' =>
    if key ∈ m.keys then r = 0 ∧ m.Removes key m' else r = -1 ∧ m' = m
  | .get key,.pointer value,m' => m' = m ∧ value = m.find key
  | .count,.code r,m' => m' = m ∧ r = m.entries.length
  | .pair index,.pair entry,m' => m' = m ∧
    entry = if index ≥ 0 then m.entries[index.toNat]? else none
  | _,_,_ => False

def Serves (s : State) (call : Call × Reply) (t : State) : Prop := perform s call.1 = (t,call.2)

def MapServes (m : EnvMap) (call : Call × Reply) (m' : EnvMap) : Prop := Answers m call.1 call.2 m'

/-- What is known of a variable after one more call. -/
def memorise (key : CString) (known : Option CString) : Call × Reply → Option CString
  | (.set name value,.code r) => if name.val = key ∧ r = 0 then some (clip value) else known
  | (.unset name,.code r) => if name = key ∧ r = 0 then none else known
  | _ => known

/-- The value that was stored last, unless the variable was removed since. -/
def lastValue (calls : List (Call × Reply)) (key : CString) : Option CString :=
  calls.foldl (memorise key) none

/-! The rows in use. -/

def entry (s : State) (r : Fin 32) : CString × CString := (string (s.keys r),string (s.values r))

def entries (s : State) : List (CString × CString) :=
  List.ofFn fun r : Fin s.varCount => entry s (r.castLE s.bounded)

/-- Both strings end within their rows. -/
def Fits (e : CString × CString) : Prop := e.1.val.length ≤ 31 ∧ e.2.val.length ≤ 127

structure Holds (s : State) (m : EnvMap) : Prop where
  same : entries s = m.entries
  fits : ∀ e ∈ m.entries, Fits e

variable {s t : State} {m : EnvMap} {i j count : Nat} {r : Fin 32} {key value : CString}

theorem entries_getElem? (inside : i < s.varCount) :
    (entries s)[i]? = some (entry s ⟨i,inside.trans_le s.bounded⟩) := by
  rw [List.getElem?_eq_getElem (by simpa [entries] using inside)]
  simp [entries]

theorem findVar_some (found : findVar s key = some r) :
    r < s.varCount ∧ string (s.keys r) = key := by
  unfold findVar at found
  have matched := of_decide_eq_true (Fin.find?_eq_some_iff.mp found).1
  exact ⟨matched.1,Subtype.ext ((strcmp_eq_zero (contents_noNul _) key.property).mp matched.2)⟩

theorem findVar_none (missing : findVar s key = none) (below : r < s.varCount) :
    string (s.keys r) ≠ key := by
  unfold findVar at missing
  have differs := of_decide_eq_false (Fin.find?_eq_none_iff.mp missing r)
  rintro rfl
  exact differs ⟨below,(strcmp_eq_zero (contents_noNul _) (contents_noNul _)).mpr rfl⟩

/-- The entries are what stands in the rows in use. -/
theorem entries_eq (rows : m.InRows (entry s) s.varCount) : entries s = m.entries := by
  have length := rows.length
  refine List.ext_getElem? fun i => ?_
  by_cases inside : i < s.varCount
  · rw [entries_getElem? inside]
    exact (rows.at_row ⟨i,inside.trans_le s.bounded⟩ inside).symm
  · have short : (entries s).length ≤ i := by simpa [entries] using inside
    rw [List.getElem?_eq_none short,List.getElem?_eq_none (by omega)]

/-! The loop of `env_unset`. -/

theorem copyDown_same (inside : j + 1 < 32) (fits : Fits (entry s ⟨j + 1,inside⟩)) :
    entry (copyDown s j) ⟨j,Nat.lt_of_succ_lt inside⟩ = entry s ⟨j + 1,inside⟩ := by
  unfold copyDown entry
  rw [dif_pos inside]
  refine Prod.ext (Subtype.ext ?_) (Subtype.ext ?_)
  · simp only [string,Function.update_self]
    exact contents_strcpy _ _ (Nat.lt_succ_of_le fits.1)
  · simp only [string,Function.update_self]
    exact contents_strcpy _ _ (Nat.lt_succ_of_le fits.2)

theorem copyDown_other (other : (r : Nat) ≠ j) : entry (copyDown s j) r = entry s r := by
  unfold copyDown entry
  split_ifs
  · have apart : r ≠ ⟨j,by omega⟩ := fun same => other (congrArg Fin.val same)
    simp only [Function.update_of_ne apart]
  · rfl

theorem copyDown_varCount : (copyDown s j).varCount = s.varCount := by
  unfold copyDown
  split_ifs <;> rfl

theorem shiftDown_succ (s : State) (i count : Nat) :
    shiftDown s i (count + 1) = shiftDown (copyDown s i) (i + 1) count := by
  simp only [shiftDown,List.range'_succ,List.foldl_cons]

theorem shiftDown_varCount : (shiftDown s i count).varCount = s.varCount := by
  induction count generalizing s i with
  | zero => rfl
  | succ count ih => rw [shiftDown_succ,ih,copyDown_varCount]

theorem shiftDown_outside (outside : r < i ∨ i + count ≤ r) :
    entry (shiftDown s i count) r = entry s r := by
  induction count generalizing s i with
  | zero => rfl
  | succ count ih => rw [shiftDown_succ,ih (by omega),copyDown_other (by omega)]

/-- The rows from `i` on move down by one. A row is copied before it is overwritten. -/
theorem shiftDown_inside (inside : j + 1 < 32) (above : i ≤ j) (below : j < i + count)
    (fits : ∀ r : Fin 32, i < r → r ≤ i + count → Fits (entry s r)) :
    entry (shiftDown s i count) ⟨j,Nat.lt_of_succ_lt inside⟩ = entry s ⟨j + 1,inside⟩ := by
  induction count generalizing s i with
  | zero => omega
  | succ count ih =>
    rw [shiftDown_succ]
    by_cases first : j = i
    · subst first
      rw [shiftDown_outside (.inl (Nat.lt_succ_self j))]
      exact copyDown_same inside (fits _ (Nat.lt_succ_self j) (by simp))
    · have later : (j + 1 : Nat) ≠ i := by omega
      rw [ih (by omega) (by omega),copyDown_other (r := ⟨j + 1,inside⟩) later]
      intro r above under
      rw [copyDown_other (by omega)]
      exact fits r (by omega) (by omega)

/-! Each function on the entries. -/

namespace Holds

theorem rows (holds : Holds s m) : m.InRows (entry s) s.varCount := by
  refine ⟨?_,fun r below => ?_⟩
  · rw [← holds.same,entries,List.length_ofFn]
  · rw [← holds.same]
    exact entries_getElem? below

theorem row_fits (holds : Holds s m) (below : r < s.varCount) : Fits (entry s r) :=
  holds.fits _ (holds.rows.mem below)

theorem mem_keys (holds : Holds s m) (found : findVar s key = some r) : key ∈ m.keys :=
  holds.rows.mem_keys (findVar_some found).1 (findVar_some found).2

theorem notMem_keys (holds : Holds s m) (missing : findVar s key = none) : key ∉ m.keys :=
  holds.rows.notMem_keys fun _ below => findVar_none missing below

theorem clip_fits (value : CString) : (clip value).val.length ≤ 127 := List.length_take_le ..

theorem entry_setValue (s : State) (i r : Fin 32) (value : CString) :
    entry {s with values := setValue s i value} r =
      if r = i then (string (s.keys i),clip value) else entry s r := by
  by_cases here : r = i
  · subst here
    rw [if_pos rfl]
    refine Prod.ext rfl (Subtype.ext ?_)
    simp only [entry,string,setValue,Function.update_self]
    exact contents_strncpy (by decide) _ _
  · rw [if_neg here]
    simp only [entry,setValue,Function.update_of_ne here]

theorem set_known (holds : Holds s m) (found : findVar s key = some r) (value : CString) :
    ∃ m', m.Stores key (clip value) m' ∧ Holds {s with values := setValue s r value} m' := by
  obtain ⟨below,same⟩ := findVar_some found
  have here : entry {s with values := setValue s r value} r = (key,clip value) := by
    rw [entry_setValue,if_pos rfl,same]
  have short : key.val.length ≤ 31 := same ▸ (holds.row_fits below).1
  obtain ⟨m',stores,rows⟩ := holds.rows.store_known _ below same here fun j _ other => by
    rw [entry_setValue,if_neg other]
  exact ⟨m',stores,entries_eq rows,stores.forall_mem holds.fits ⟨short,clip_fits value⟩⟩

/-- What `env_set` makes of the first free row. -/
def added (s : State) (key value : CString) (room : s.varCount < 32) : State where
  keys := setKey s ⟨s.varCount,room⟩ key
  values := setValue s ⟨s.varCount,room⟩ value
  varCount := s.varCount + 1
  bounded := room

theorem entry_added (key : Key) (room : s.varCount < 32) (r : Fin 32) :
    entry (added s key value room) r =
      if (r : Nat) = s.varCount then (key.val,clip value) else entry s r := by
  by_cases here : (r : Nat) = s.varCount
  · obtain rfl : r = ⟨s.varCount,room⟩ := Fin.ext here
    rw [if_pos rfl]
    refine Prod.ext (Subtype.ext ?_) (Subtype.ext ?_)
    · simp only [entry,string,added,setKey,Function.update_self]
      exact (contents_strncpy (by decide) _ _).trans (List.take_of_length_le key.property)
    · simp only [entry,string,added,setValue,Function.update_self]
      exact contents_strncpy (by decide) _ _
  · have apart : r ≠ ⟨s.varCount,room⟩ := fun same => here (congrArg Fin.val same)
    rw [if_neg here]
    simp only [entry,added,setKey,setValue,Function.update_of_ne apart]

theorem set_new (holds : Holds s m) (key : Key) (missing : findVar s key = none)
    (room : s.varCount < 32) (value : CString) :
    ∃ m', m.Stores key (clip value) m' ∧ Holds (added s key value room) m' := by
  have here : entry (added s key value room) ⟨s.varCount,room⟩ = (key.val,clip value) := by
    rw [entry_added,if_pos rfl]
  obtain ⟨m',stores,rows⟩ := holds.rows.store_new _ (holds.notMem_keys missing) room here
    fun j below => by rw [entry_added,if_neg below.ne]
  exact ⟨m',stores,entries_eq rows,stores.forall_mem holds.fits ⟨key.property,clip_fits value⟩⟩

/-- What `env_unset` leaves when it finds the name in row `i`. -/
def dropped (s : State) (i : Nat) : State :=
  {shiftDown s i (s.varCount - 1 - i) with
    varCount := (shiftDown s i (s.varCount - 1 - i)).varCount - 1
    bounded := (Nat.sub_le ..).trans (shiftDown s i (s.varCount - 1 - i)).bounded}

theorem unset_known (holds : Holds s m) (found : findVar s key = some r) :
    ∃ m', m.Removes key m' ∧ Holds (dropped s r) m' := by
  obtain ⟨below,same⟩ := findVar_some found
  have bounded := s.bounded
  have count : (dropped s r).varCount = s.varCount - 1 := by
    rw [dropped]
    exact congrArg (· - 1) shiftDown_varCount
  have before (j : Fin 32) (early : (j : Nat) < r) : entry (dropped s r) j = entry s j :=
    shiftDown_outside (.inl early)
  have behind (j next : Fin 32) (late : (r : Nat) ≤ j) (succ : (next : Nat) = j + 1)
      (inside : next < s.varCount) : entry (dropped s r) j = entry s next := by
    have room : (j : Nat) + 1 < 32 := by omega
    obtain rfl : next = ⟨j + 1,room⟩ := Fin.ext succ
    have below : (j : Nat) < r + (s.varCount - 1 - r) := by omega
    exact shiftDown_inside room late below fun _ _ under => holds.row_fits (by omega)
  obtain ⟨m',removes,rows⟩ := holds.rows.remove _ below same before behind
  exact ⟨m',removes,entries_eq (count ▸ rows),removes.forall_mem holds.fits⟩

end Holds

/-! Every call answers as the map does. -/

theorem set_answers (holds : Holds s m) (key : Key) (value : CString) :
    ∃ m', Answers m (.set key value) (.code (envSet s key value).2) m' ∧
      Holds (envSet s key value).1 m' := by
  have answers (r : Int) (m' : EnvMap) : Answers m (.set key value) (.code r) m' ↔
      if key.val ∉ m.keys ∧ m.entries.length = 32 then r = -1 ∧ m' = m
      else r = 0 ∧ m.Stores key (clip value) m' := .rfl
  simp only [answers,envSet]
  cases found : findVar s key with
  | some r =>
    obtain ⟨m',stores,holds'⟩ := holds.set_known found value
    have known : ¬(key.val ∉ m.keys ∧ m.entries.length = 32) := fun both =>
      both.1 (holds.mem_keys found)
    simp only [if_neg known]
    exact ⟨m',⟨trivial,stores⟩,holds'⟩
  | none =>
    have fresh := holds.notMem_keys found
    have bounded := s.bounded
    by_cases full : s.varCount ≥ 32
    · have taken : m.entries.length = 32 := by
        rw [holds.rows.length]
        omega
      simp only [dif_pos full,if_pos (And.intro fresh taken)]
      exact ⟨m,⟨trivial,rfl⟩,holds⟩
    · have space : ¬(key.val ∉ m.keys ∧ m.entries.length = 32) := by
        rw [holds.rows.length]
        exact fun both => full both.2.ge
      obtain ⟨m',stores,holds'⟩ := holds.set_new key found (Nat.lt_of_not_le full) value
      simp only [dif_neg full,if_neg space]
      exact ⟨m',⟨trivial,stores⟩,holds'⟩

theorem unset_answers (holds : Holds s m) (key : CString) :
    ∃ m', Answers m (.unset key) (.code (envUnset s key).2) m' ∧ Holds (envUnset s key).1 m' := by
  have answers (r : Int) (m' : EnvMap) : Answers m (.unset key) (.code r) m' ↔
      if key ∈ m.keys then r = 0 ∧ m.Removes key m' else r = -1 ∧ m' = m := .rfl
  simp only [answers,envUnset]
  cases found : findVar s key with
  | some r =>
    obtain ⟨m',removes,holds'⟩ := holds.unset_known found
    simp only [if_pos (holds.mem_keys found)]
    exact ⟨m',⟨trivial,removes⟩,holds'⟩
  | none =>
    simp only [if_neg (holds.notMem_keys found)]
    exact ⟨m,⟨trivial,rfl⟩,holds⟩

theorem get_answers (holds : Holds s m) (key : CString) : envGet s key = m.find key := by
  unfold envGet
  cases found : findVar s key with
  | some r =>
    obtain ⟨below,same⟩ := findVar_some found
    exact (holds.rows.find below same).symm
  | none => exact (OrderedMap.find_eq_none.mpr (holds.notMem_keys found)).symm

theorem pair_answers (holds : Holds s m) (index : Int) :
    envGetPair s index = if index ≥ 0 then m.entries[index.toNat]? else none := by
  have bounded := s.bounded
  unfold envGetPair
  by_cases inside : index ≥ 0 ∧ index < s.varCount
  · have below : index.toNat < s.varCount := by omega
    rw [dif_pos inside,if_pos inside.1]
    exact (holds.rows.at_row ⟨index.toNat,by omega⟩ below).symm
  · rw [dif_neg inside]
    split_ifs with positive
    · have length := holds.rows.length
      exact (List.getElem?_eq_none (by omega)).symm
    · rfl

theorem perform_answers (holds : Holds s m) (call : Call) :
    ∃ m', Answers m call (perform s call).2 m' ∧ Holds (perform s call).1 m' := by
  cases call with
  | set key value => exact set_answers holds key value
  | unset key => exact unset_answers holds key
  | get key => exact ⟨m,⟨rfl,get_answers holds key⟩,holds⟩
  | count => exact ⟨m,⟨rfl,congrArg Int.ofNat holds.rows.length.symm⟩,holds⟩
  | pair index => exact ⟨m,⟨rfl,pair_answers holds index⟩,holds⟩

/-! The values that were stored last. -/

theorem find_memorise {m' : EnvMap} {call : Call × Reply} (served : MapServes m call m')
    (key : CString) : m'.find key = memorise key (m.find key) call := by
  obtain ⟨call,reply⟩ := call
  cases call with
  | set name value =>
    cases reply with
    | code r =>
      simp only [MapServes,Answers] at served
      split_ifs at served with full
      · obtain ⟨rfl,rfl⟩ := served
        exact (if_neg fun both => absurd both.2 (by decide)).symm
      · obtain ⟨rfl,stores⟩ := served
        by_cases same : name.val = key
        · subst same
          exact stores.find_same.trans (if_pos ⟨rfl,rfl⟩).symm
        · exact (stores.find_other (Ne.symm same)).trans (if_neg fun both => same both.1).symm
    | _ => cases served
  | unset name =>
    cases reply with
    | code r =>
      simp only [MapServes,Answers] at served
      split_ifs at served with known
      · obtain ⟨rfl,removes⟩ := served
        by_cases same : name = key
        · subst same
          exact removes.find_same.trans (if_pos ⟨rfl,rfl⟩).symm
        · exact (removes.find_other (Ne.symm same)).trans (if_neg fun both => same both.1).symm
      · obtain ⟨rfl,rfl⟩ := served
        exact (if_neg fun both => absurd both.2 (by decide)).symm
    | _ => cases served
  | get name =>
    cases reply with
    | pointer value => exact congrArg (OrderedMap.find · key) served.1
    | _ => cases served
  | count =>
    cases reply with
    | code r => exact congrArg (OrderedMap.find · key) served.1
    | _ => cases served
  | pair index =>
    cases reply with
    | pair entry => exact congrArg (OrderedMap.find · key) served.1
    | _ => cases served

theorem find_lastValue {past : List (EnvMap × (Call × Reply))}
    (run : Run MapServes (OrderedMap.empty 32 CString CString) past m) (key : CString) :
    m.find key = lastValue (past.map Prod.snd) key := by
  induction run with
  | nil => rfl
  | snoc _ served ih =>
    rw [find_memorise served,ih,List.map_append,lastValue,lastValue,List.foldl_append]
    rfl

/-- Behind `env_init`, any calls get the replies of an ordered map, whose entries stand in
the rows at every moment, and which keeps for each name the value that was stored last. -/
theorem env_is_ordered_map (calls : List Call) :
    ∃ past last answered m, past.map (fun entry => entry.2.1) = initCalls ++ calls ∧
      Run Serves cleared past last ∧
      Run MapServes (OrderedMap.empty 32 CString CString) answered m ∧
      answered.map Prod.snd = past.map Prod.snd ∧ Holds last m ∧
      ∀ key, m.find key = lastValue (answered.map Prod.snd) key := by
  have initial : Holds cleared (OrderedMap.empty 32 CString CString) := ⟨rfl,nofun⟩
  have advance (s : State) (m : EnvMap) (call : Call) (holds : Holds s m) (_ : True) :
      ∃ a t m', Prod.fst a = call ∧ Serves s a t ∧ MapServes m a m' ∧ Holds t m' := by
    obtain ⟨m',answers,holds'⟩ := perform_answers holds call
    exact ⟨(call,(perform s call).2),(perform s call).1,m',rfl,rfl,answers,holds'⟩
  obtain ⟨past,last,answered,m,taken,run,run',labels,holds⟩ :=
    simulation initial advance (initCalls ++ calls) fun _ _ => trivial
  exact ⟨past,last,answered,m,taken,run,run',labels,holds,find_lastValue run'⟩

end NimrodOS.Env
