import NimrodOS.AliasTable
import NimrodOS.EnvMap

/-! What the aliases are for: a map with room for 16 names, from which the first word of a
line takes its meaning. -/
namespace NimrodOS.AliasTable

open Libc Checked KeyBuffers Transition
open Env (string)
open Shell (text)
open ShellFiles (skip word firstWord)
open Vga (Call)

abbrev Aliases := OrderedMap 16 CString CString

/-- The first characters of a string. -/
def front (s : CString) (i : Nat) : CString :=
  ⟨s.val.take i,fun member => s.property (List.mem_of_mem_take member)⟩

/-- The name and the command in `name=command`, where the name has 1 to 31 characters. -/
def assignment (args : CString) : Option (CString × CString) :=
  let nlen := (args.val.takeWhile (· ≠ 61)).length
  if nlen = args.val.length ∨ nlen = 0 ∨ nlen ≥ 32 then none
  else some (front args nlen,behind args (nlen + 1))

/-- What `alias` prints when it assigns nothing. -/
def report (m : Aliases) (args : CString) : List Call :=
  if args.val.length = 0 then
    if m.entries.length = 0 then [.print (text "  No aliases defined.\n")]
    else (m.entries.flatMap fun e => aliasLine e.1 e.2) ++ [.setColor 10 0]
  else if (args.val.takeWhile (· ≠ 61)).length = args.val.length then
    [.print (text "Usage: alias name=command\n")]
  else [.print (text "Invalid alias name.\n")]

/-- What a command prints, and the map behind it. A new name needs room. -/
def Answers (m : Aliases) : Command → List Call → Aliases → Prop
  | .alias _ args,out,m' =>
    match assignment args with
    | some (name,cmd) =>
      if m.find name = none ∧ m.entries.length = 16 then
        out = [.print (text "Alias table full.\n")] ∧ m' = m
      else out = [] ∧ m.Stores name (front cmd 127) m'
    | none => out = report m args ∧ m' = m
  | .unalias args,out,m' =>
    if m.find (skip args) = none then
      out = [.print (text "Alias not found: "),.print (skip args).val,.print (text "\n")] ∧ m' = m
    else out = [] ∧ m.Removes (skip args) m'

def Serves (s : State) (command : Command × List Call) (t : State) : Prop :=
  perform s command.1 = .ok (t,command.2)

def MapServes (m : Aliases) (command : Command × List Call) (m' : Aliases) : Prop :=
  Answers m command.1 command.2 m'

/-- What a word stands for after one more command. An assignment that is made prints nothing. -/
def memorise (name : CString) (known : Option CString) : Command × List Call → Option CString
  | (.alias _ args,out) =>
    match assignment args with
    | some (assigned,cmd) => if assigned = name ∧ out = [] then some (front cmd 127) else known
    | none => known
  | (.unalias args,_) => if skip args = name then none else known

/-- The command that was assigned last, unless the alias was removed since. -/
def lastCommand (commands : List (Command × List Call)) (name : CString) : Option CString :=
  commands.foldl (memorise name) none

/-- A command and what stands behind the first word of a line. -/
def joined (cmd line : CString) : CString :=
  ⟨cmd.val ++ line.val.drop (word line.val).length,List.not_mem_append cmd.property fun member =>
    line.property (List.mem_of_mem_drop member)⟩

def expansion (known : Option CString) (line : CString) : CString :=
  match known with
  | some cmd => if (joined cmd line).val.length < 255 then joined cmd line else line
  | none => line

/-- What becomes of a line, given what the words stand for. -/
def dispatched (known : CString → Option CString) (input : CString) : Option CString :=
  if (skip input).val.length = 0 then none
  else some (expansion (known (firstWord input)) (skip input))

/-! The rows in use. -/

def entry (s : State) (r : Fin 16) : CString × CString :=
  (string (s.aliasNames r),string (s.aliasCmds r))

/-- The name is not empty, and both strings end within their rows. -/
structure Kept (e : CString × CString) : Prop where
  named : 0 < e.1.val.length
  name : e.1.val.length < 32
  cmd : e.2.val.length < 128

structure Holds (s : State) (m : Aliases) : Prop where
  count : s.aliasCount = m.entries.length
  rows : m.InRows (entry s) m.entries.length
  kept : ∀ e ∈ m.entries, Kept e

variable {s t : State} {m : Aliases} {n i j count rounds : Nat} {r next : Fin 16}
  {name cmd args line : CString}

theorem readString_row {buf : Fin n → Byte} (fits : (string buf).val.length < n) :
    readString buf = .ok (string buf) := if_pos fits

theorem string_row {buf : Fin n → Byte} {s : List Byte} (row : Row buf s) :
    string buf = ⟨s,row.noNul⟩ := Subtype.ext row.same

/-- `strncpy(buf, s, i); buf[i] = '\0';`, and what is then read from `buf`. -/
theorem copy_front {β : Type} (buf : Fin 32 → Byte) (s : CString) (short : i < 32)
    (f : CString → Except OutOfRange β) :
    (do
      let copied ← copyBounded buf s i
      let ended ← Checked.set copied i 0
      f (← readString ended)) = f (front s i) := by
  have row := strncpy_row buf s ⟨i,short⟩
  rw [copyBounded_at (j := ⟨i,short⟩) rfl,ok_bind,set_at (j := ⟨i,short⟩) rfl,ok_bind,row.string,ok_bind]
  rfl

theorem entry_same (names : t.aliasNames r = s.aliasNames r) (cmds : t.aliasCmds r = s.aliasCmds r) :
    entry t r = entry s r := by
  rw [entry,names,cmds,entry]

/-! The loops over the rows. -/

/-- The search meets the name in a row or in none. -/
theorem search_cases {names : Fin 16 → Fin 32 → Byte} (name : CString) (inside : i + rounds ≤ 16)
    (fits : ∀ r : Fin 16, r < i + rounds → (string (names r)).val.length < 32) :
    (∃ r : Fin 16, search names name rounds i = .ok (some (r : Nat)) ∧ r < i + rounds ∧
      string (names r) = name) ∨
    search names name rounds i = .ok none ∧
      ∀ r : Fin 16, i ≤ r → r < i + rounds → string (names r) ≠ name := by
  induction rounds generalizing i with
  | zero => exact .inr ⟨rfl,fun r above below => absurd below (Nat.not_lt.mpr above)⟩
  | succ rounds ih =>
    let here : Fin 16 := ⟨i,by omega⟩
    have compare : search names name (rounds + 1) i =
        if string (names here) = name then .ok (some i) else search names name rounds (i + 1) := by
      rw [search,get_at (j := here) rfl,ok_bind,readString_row (fits here (by simp [here])),ok_bind]
      refine if_congr ?_ rfl rfl
      rw [strcmp_eq_zero (string (names here)).property name.property]
      exact ⟨Subtype.ext,congrArg Subtype.val⟩
    by_cases same : string (names here) = name
    · rw [compare,if_pos same]
      exact .inl ⟨here,rfl,by simp [here],same⟩
    · have shift : i + 1 + rounds = i + (rounds + 1) := by omega
      rw [compare,if_neg same]
      rcases ih (i := i + 1) (by omega) (by rwa [shift]) with found | ⟨missing,others⟩
      · rw [shift] at found
        exact .inl found
      · refine .inr ⟨missing,fun r above below => ?_⟩
        rcases above.eq_or_lt with first | later
        · obtain rfl : here = r := Fin.ext first
          exact same
        · exact others r later (by omega)

theorem storeRow_spec (rows : Fin 16 → Fin (n + 1) → Byte) {i : Int} (here : i = r) (src : CString) :
    ∃ rows', storeRow rows i src = .ok rows' ∧ string (rows' r) = front src n ∧
      ∀ j ≠ r, rows' j = rows j := by
  have last : ((n : Nat) : Int) = (Fin.last n : Fin (n + 1)) := by simp
  have row := strncpy_row (rows r) src (Fin.last n)
  rw [Fin.val_last] at row
  refine ⟨Function.update rows r (Function.update (strncpy (rows r) src n) (Fin.last n) 0),?_,?_,?_⟩
  · rw [storeRow,get_at here,ok_bind,copyBounded_at last,ok_bind,set_at last,ok_bind,set_at here]
    rfl
  · rw [Function.update_self]
    exact string_row row
  · exact fun j other => Function.update_of_ne other _ _

theorem copyRow_spec {rows : Fin 16 → Fin n → Byte} (behind : (next : Nat) = r + 1)
    (fits : (string (rows next)).val.length < n) :
    ∃ rows', copyRow rows r = .ok rows' ∧ string (rows' r) = string (rows next) ∧
      ∀ j ≠ r, rows' j = rows j := by
  obtain ⟨copied,row⟩ := copyString_row (rows r) (string (rows next)) fits
  refine ⟨Function.update rows r (strcpy (rows r) (string (rows next))),?_,?_,?_⟩
  · rw [copyRow,get_at (j := next) (by omega),ok_bind,readString_row fits,ok_bind,get_at (j := r) rfl,
      ok_bind,copied,ok_bind,set_at (j := r) rfl]
  · rw [Function.update_self]
    exact string_row row
  · exact fun j other => Function.update_of_ne other _ _

theorem copyDown_spec (behind : (next : Nat) = r + 1) (kept : Kept (entry s next)) :
    ∃ t, copyDown s r = .ok t ∧ t.aliasCount = s.aliasCount ∧ entry t r = entry s next ∧
      ∀ j ≠ r, entry t j = entry s j := by
  obtain ⟨names,copied,name,otherNames⟩ := copyRow_spec behind kept.name
  obtain ⟨cmds,copied',cmd,otherCmds⟩ := copyRow_spec behind kept.cmd
  refine ⟨{s with aliasNames := names,aliasCmds := cmds},?_,rfl,Prod.ext name cmd,fun j other => ?_⟩
  · rw [copyDown,copied,ok_bind,copied']
    rfl
  · exact entry_same (otherNames j other) (otherCmds j other)

/-- The rows from `i` on move down by one. A row is copied before it is overwritten. -/
theorem copyDowns (inside : i + count < 16)
    (kept : ∀ r : Fin 16, i < r → r ≤ i + count → Kept (entry s r)) :
    ∃ t, (List.range' i count).foldlM copyDown s = .ok t ∧ t.aliasCount = s.aliasCount ∧
      (∀ j : Fin 16, j < i ∨ i + count ≤ j → entry t j = entry s j) ∧
      ∀ j next : Fin 16, i ≤ j → (next : Nat) = j + 1 → j < i + count → entry t j = entry s next := by
  induction count generalizing i s with
  | zero => exact ⟨s,rfl,rfl,fun _ _ => rfl,fun j _ above _ below => absurd below (Nat.not_lt.mpr above)⟩
  | succ count ih =>
    let here : Fin 16 := ⟨i,by omega⟩
    let above : Fin 16 := ⟨i + 1,by omega⟩
    have succ : (above : Nat) = here + 1 := rfl
    obtain ⟨u,copied,same,moved,others⟩ := copyDown_spec succ
      (kept above (Nat.lt_succ_self i) (by simp [above]))
    have apart {j : Fin 16} (other : (j : Nat) ≠ i) : entry u j = entry s j :=
      others j fun equal => other (congrArg Fin.val equal)
    obtain ⟨t,done,same',outside,shifted⟩ := ih (i := i + 1) (s := u) (by omega) fun r low high => by
      rw [apart (by omega)]
      exact kept r (by omega) (by omega)
    refine ⟨t,?_,same'.trans same,fun j away => ?_,fun j next low succ high => ?_⟩
    · rw [List.range'_succ,List.foldlM_cons]
      exact (congrArg (· >>= _) copied).trans done
    · rw [outside j (by omega),apart (by omega)]
    · by_cases first : (j : Nat) = i
      · obtain rfl : j = here := Fin.ext first
        obtain rfl : next = above := Fin.ext succ
        rw [outside here (.inl (Nat.lt_succ_self i)),moved]
      · rw [shifted j next (by omega) succ (by omega),apart (by omega)]

/-! Each function on the entries. -/

namespace Holds

theorem count_toNat (holds : Holds s m) : s.aliasCount.toNat = m.entries.length := by
  rw [holds.count,Int.toNat_natCast]

theorem row_kept (holds : Holds s m) (below : r < m.entries.length) : Kept (entry s r) :=
  holds.kept _ (holds.rows.mem below)

/-- The search tells whether the map has the name. -/
theorem search (holds : Holds s m) (name : CString) :
    (∃ r : Fin 16, search s.aliasNames name s.aliasCount.toNat 0 = .ok (some (r : Nat)) ∧
      r < m.entries.length ∧ (entry s r).1 = name) ∨
    search s.aliasNames name s.aliasCount.toNat 0 = .ok none ∧ m.find name = none := by
  rw [holds.count_toNat]
  have inside : 0 + m.entries.length ≤ 16 := (Nat.zero_add _).trans_le m.room
  rcases search_cases name inside fun r below => (holds.row_kept (r := r) (by omega)).name with
    ⟨r,found,below,same⟩ | ⟨missing,others⟩
  · exact .inl ⟨r,found,by omega,same⟩
  · refine .inr ⟨missing,OrderedMap.find_eq_none.mpr (holds.rows.notMem_keys fun r below => ?_)⟩
    exact others r (Nat.zero_le _) (by omega)

theorem lookup (holds : Holds s m) (name : CString) : aliasLookup s name = .ok (m.find name) := by
  unfold aliasLookup
  rcases holds.search name with ⟨r,found,below,same⟩ | ⟨missing,absent⟩
  · have fits := (holds.row_kept below).cmd
    rw [found,ok_bind,holds.rows.find below same]
    dsimp only
    rw [get_at (j := r) rfl,ok_bind,readString_row fits]
    rfl
  · rw [missing,ok_bind,absent]
    rfl

/-- A change of the rows that the map takes part in. -/
theorem stored {v : CString} {m' : Aliases} (holds : Holds s m) (stores : m.Stores name v m')
    (rows : m'.InRows (entry t) m'.entries.length) (count : t.aliasCount = m'.entries.length)
    (kept : Kept (name,v)) : Holds t m' := ⟨count,rows,stores.forall_mem holds.kept kept⟩

theorem assign (holds : Holds s m) (name : CString) (named : 0 < name.val.length)
    (short : name.val.length < 32) (cmd : CString) :
    ∃ t out m', assign s name cmd = .ok (t,out) ∧ Holds t m' ∧
      if m.find name = none ∧ m.entries.length = 16 then
        out = [.print (text "Alias table full.\n")] ∧ m' = m
      else out = [] ∧ m.Stores name (front cmd 127) m' := by
  have kept : Kept (name,front cmd 127) := ⟨named,short,(List.length_take_le ..).trans_lt (by decide)⟩
  have whole : front name 31 = name := Subtype.ext (List.take_of_length_le (Nat.le_of_lt_succ short))
  have room := m.room
  unfold AliasTable.assign
  rcases holds.search name with ⟨r,found,below,same⟩ | ⟨missing,absent⟩
  · obtain ⟨cmds,stored,here,others⟩ := storeRow_spec s.aliasCmds (r := r) rfl cmd
    obtain ⟨m',stores,rows⟩ := holds.rows.store_known (entry {s with aliasCmds := cmds}) below
      same (Prod.ext same here) fun j _ other => congrArg (_,string ·) (others j other)
    have known : m.find name ≠ none := by
      rw [holds.rows.find below same]
      exact Option.some_ne_none _
    have length := rows.length
    refine ⟨{s with aliasCmds := cmds},[],m',?_,?_,?_⟩
    · rw [found,ok_bind]
      exact congrArg (· >>= _) stored
    · exact holds.stored stores (length ▸ rows) (holds.count.trans (by rw [length])) kept
    · rw [if_neg fun both => known both.1]
      exact ⟨rfl,stores⟩
  · rw [missing,ok_bind]
    by_cases full : s.aliasCount ≥ 16
    · have taken : m.entries.length = 16 := by
        have count := holds.count
        omega
      refine ⟨s,_,m,if_pos full,holds,?_⟩
      rw [if_pos ⟨absent,taken⟩]
      exact ⟨rfl,rfl⟩
    · have count := holds.count
      have space : m.entries.length < 16 := by omega
      let free : Fin 16 := ⟨m.entries.length,space⟩
      have here : s.aliasCount = free := count
      obtain ⟨names,stored,first,others⟩ := storeRow_spec s.aliasNames here name
      obtain ⟨cmds,stored',second,others'⟩ := storeRow_spec s.aliasCmds here cmd
      obtain ⟨m',stores,rows⟩ := holds.rows.store_new
        (entry ⟨names,cmds,s.aliasCount + 1⟩) (OrderedMap.find_eq_none.mp absent) space
        (Prod.ext (first.trans whole) second) fun j below => by
          have other : j ≠ free := fun same => below.ne (congrArg Fin.val same)
          exact entry_same (others j other) (others' j other)
      have length := rows.length
      refine ⟨⟨names,cmds,s.aliasCount + 1⟩,[],m',?_,?_,?_⟩
      · refine (if_neg full).trans ?_
        rw [stored,ok_bind,stored']
        rfl
      · exact holds.stored stores (length ▸ rows) (by rw [length,count]; rfl) kept
      · rw [if_neg fun both => space.ne both.2]
        exact ⟨rfl,stores⟩

theorem listing (holds : Holds s m) : listAliases s =
    .ok (if m.entries.length = 0 then [.print (text "  No aliases defined.\n")]
      else (m.entries.flatMap fun e => aliasLine e.1 e.2) ++ [.setColor 10 0]) := by
  have line (i : Nat) (member : i ∈ List.range m.entries.length) :
      listRow s i = .ok (m.entries[i]?.elim [] fun e => aliasLine e.1 e.2) := by
    have inside := List.mem_range.mp member
    have kept := holds.row_kept (r := ⟨i,inside.trans_le m.room⟩) inside
    have row := holds.rows.at_row ⟨i,inside.trans_le m.room⟩ inside
    rw [listRow,get_at (j := ⟨i,inside.trans_le m.room⟩) rfl,ok_bind,readString_row kept.name,ok_bind,
      get_at (j := ⟨i,inside.trans_le m.room⟩) rfl,ok_bind,readString_row kept.cmd,row]
    rfl
  unfold listAliases
  rw [holds.count]
  by_cases none : m.entries.length = 0
  · rw [if_pos (by omega),if_pos none]
  · have lines : (List.range m.entries.length).map (fun i => m.entries[i]?.elim []
        fun e => aliasLine e.1 e.2) = m.entries.map fun e => aliasLine e.1 e.2 := by
      apply List.ext_getElem
      · simp
      · intro i left right
        simp only [List.getElem_map,List.getElem_range]
        rw [List.length_map] at right
        rw [List.getElem?_eq_getElem right]
        rfl
    rw [if_neg (by omega),if_neg none,Int.toNat_natCast,mapM_ok line,ok_bind,lines,List.flatMap_def]
    rfl

theorem cmdAlias_answers (holds : Holds s m) (name : Fin 32 → Byte) (args : CString) :
    ∃ t out m', cmdAlias name s args = .ok (t,out) ∧ Holds t m' ∧
      Answers m (.alias name args) out m' := by
  have answers (out : List Call) (m' : Aliases) : Answers m (.alias name args) out m' ↔
      match assignment args with
      | some (name,cmd) =>
        if m.find name = none ∧ m.entries.length = 16 then
          out = [.print (text "Alias table full.\n")] ∧ m' = m
        else out = [] ∧ m.Stores name (front cmd 127) m'
      | none => out = report m args ∧ m' = m := .rfl
  simp only [answers,cmdAlias,assignment,report]
  generalize size : (args.val.takeWhile fun c => decide (c ≠ 61)).length = nlen
  have inside : nlen ≤ args.val.length := size ▸ (List.takeWhile_prefix _).length_le
  by_cases empty : args.val.length = 0
  · have unset : nlen = args.val.length := by omega
    rw [if_pos empty,if_pos empty,if_pos (.inl unset),holds.listing]
    exact ⟨s,_,m,rfl,holds,rfl,rfl⟩
  rw [if_neg empty,if_neg empty]
  by_cases unset : nlen = args.val.length
  · rw [if_pos unset,if_pos unset,if_pos (.inl unset)]
    exact ⟨s,_,m,rfl,holds,rfl,rfl⟩
  rw [if_neg unset,if_neg unset]
  by_cases bad : nlen = 0 ∨ nlen ≥ 32
  · rw [if_pos bad,if_pos (.inr bad)]
    exact ⟨s,_,m,rfl,holds,rfl,rfl⟩
  · have short : nlen < 32 := by omega
    have length : (front args nlen).val.length = nlen := List.length_take_of_le inside
    rw [if_neg bad,if_neg (not_or.mpr ⟨unset,bad⟩),copy_front name args short]
    exact holds.assign (front args nlen) (by omega) (by omega) _

theorem cmdUnalias_answers (holds : Holds s m) (args : CString) :
    ∃ t out m', cmdUnalias s args = .ok (t,out) ∧ Holds t m' ∧ Answers m (.unalias args) out m' := by
  have answers (out : List Call) (m' : Aliases) : Answers m (.unalias args) out m' ↔
      if m.find (skip args) = none then
        out = [.print (text "Alias not found: "),.print (skip args).val,.print (text "\n")] ∧ m' = m
      else out = [] ∧ m.Removes (skip args) m' := .rfl
  simp only [answers,cmdUnalias]
  rcases holds.search (skip args) with ⟨r,found,below,same⟩ | ⟨missing,absent⟩
  · have room := m.room
    have inside : (r : Nat) + (m.entries.length - 1 - r) < 16 := by omega
    obtain ⟨u,done,count,outside,shifted⟩ := copyDowns (s := s) inside fun j _ high =>
      holds.row_kept (by omega)
    obtain ⟨m',removes,rows⟩ := holds.rows.remove
      (entry {u with aliasCount := u.aliasCount - 1}) below same
      (fun j before => outside j (.inl before))
      fun j next low succ high => shifted j next low succ (by omega)
    have length := rows.length
    refine ⟨{u with aliasCount := u.aliasCount - 1},[],m',?_,⟨?_,length ▸ rows,?_⟩,?_⟩
    · rw [found,ok_bind,holds.count_toNat]
      exact congrArg (· >>= _) done
    · have before := holds.count
      show u.aliasCount - 1 = m'.entries.length
      omega
    · exact removes.forall_mem holds.kept
    · rw [holds.rows.find below same,if_neg (Option.some_ne_none _)]
      exact ⟨rfl,removes⟩
  · simp only [missing,ok_bind,if_pos absent]
    exact ⟨s,_,m,rfl,holds,rfl,rfl⟩

theorem perform_answers (holds : Holds s m) : (command : Command) →
    ∃ t out m', perform s command = .ok (t,out) ∧ Holds t m' ∧ Answers m command out m'
  | .alias name args => holds.cmdAlias_answers name args
  | .unalias args => holds.cmdUnalias_answers args

end Holds

/-! The line that is dispatched. -/

theorem front_word (line : CString) : (front line (word line.val).length).val = word line.val :=
  (List.prefix_iff_eq_take.mp (List.takeWhile_prefix _)).symm

/-- Both copies stay inside of the buffer. -/
theorem expanded_eq (expanded : Fin 256 → Byte) (fits : cmd.val.length < 128)
    (short : (joined cmd line).val.length < 255) :
    (do
      let front ← strcpyTo expanded 0 cmd.val
      let whole ← strcpyTo front cmd.val.length (behind line (word line.val).length).val
      readString whole) = .ok (joined cmd line) := by
  have size : (joined cmd line).val.length =
      cmd.val.length + (behind line (word line.val).length).val.length := List.length_append
  have room : cmd.val.length < 256 := by omega
  have copied := strcpyTo_eq expanded cmd
  rw [if_pos room] at copied
  obtain ⟨whole,appended,holds⟩ := strcpyTo_append (contents_strcpy expanded cmd room)
    (behind line (word line.val).length).property (by omega)
  have row : Row whole (joined cmd line).val := ⟨holds,by omega⟩
  rw [copied,ok_bind,appended,ok_bind]
  exact row.string

/-- A long word is no alias. -/
theorem Holds.find_long (holds : Holds s m) (long : ¬(word line.val).length < 32) :
    m.find (front line (word line.val).length) = none := by
  rw [OrderedMap.find_eq_none,OrderedMap.mem_keys_iff]
  rintro ⟨cmd,member⟩
  have named := (holds.kept _ member).name
  rw [front_word] at named
  exact long named

theorem Holds.expandAlias_eq (holds : Holds s m) (first : Fin 32 → Byte)
    (expanded : Fin 256 → Byte) (line : CString) : expandAlias first expanded s line =
      .ok (expansion (m.find (front line (word line.val).length)) line) := by
  have size : line.val.takeWhile (fun c => decide (c ≠ 32)) = word line.val := rfl
  simp only [expandAlias,size]
  by_cases short : (word line.val).length < 32
  · rw [if_pos short,copy_front first line short,holds.lookup,ok_bind]
    cases known : m.find (front line (word line.val).length) with
    | none => rfl
    | some cmd =>
      have fits := (holds.kept _ (OrderedMap.find_eq_some.mp known)).cmd
      have length : (joined cmd line).val.length =
        cmd.val.length + (behind line (word line.val).length).val.length := List.length_append
      simp only [expansion,length]
      split_ifs with room
      · exact expanded_eq expanded fits (length.trans_lt room)
      · rfl
  · rw [if_neg short,holds.find_long short]
    rfl

theorem Holds.shellLine_eq (holds : Holds s m) (first : Fin 32 → Byte) (expanded : Fin 256 → Byte)
    (input : CString) : shellLine first expanded s input = .ok (dispatched m.find input) := by
  have named : front (skip input) (word (skip input).val).length = firstWord input := by
    apply Subtype.ext
    rw [front_word,ShellFiles.firstWord_val]
    rfl
  simp only [shellLine,dispatched]
  split_ifs with blank
  · rfl
  · rw [holds.expandAlias_eq,named]
    rfl

/-! The commands that were assigned last. -/

theorem find_memorise {m' : Aliases} {command : Command × List Call}
    (served : MapServes m command m') (name : CString) :
    m'.find name = memorise name (m.find name) command := by
  obtain ⟨command,out⟩ := command
  match command with
  | .alias buf args =>
    simp only [MapServes,Answers,memorise] at served ⊢
    cases assigned : assignment args with
    | none =>
      rw [assigned] at served
      rw [served.2]
    | some pair =>
      obtain ⟨key,cmd⟩ := pair
      rw [assigned] at served
      dsimp only at served ⊢
      split_ifs at served with full
      · obtain ⟨rfl,rfl⟩ := served
        exact (if_neg fun both => absurd both.2 (List.cons_ne_nil _ _)).symm
      · obtain ⟨rfl,stores⟩ := served
        by_cases same : key = name
        · rw [if_pos ⟨same,rfl⟩,← same]
          exact stores.find_same
        · rw [if_neg fun both => same both.1]
          exact stores.find_other (Ne.symm same)
  | .unalias args =>
    simp only [MapServes,Answers,memorise] at served ⊢
    split_ifs at served with unknown
    · rw [served.2]
      by_cases same : skip args = name
      · rw [if_pos same,← same,unknown]
      · rw [if_neg same]
    · by_cases same : skip args = name
      · rw [if_pos same,← same]
        exact served.2.find_same
      · rw [if_neg same]
        exact served.2.find_other (Ne.symm same)

theorem find_lastCommand {past : List (Aliases × (Command × List Call))}
    (run : Run MapServes (OrderedMap.empty 16 CString CString) past m) (name : CString) :
    m.find name = lastCommand (past.map Prod.snd) name := by
  induction run with
  | nil => rfl
  | snoc _ served ih =>
    rw [find_memorise served,ih,List.map_append,lastCommand,lastCommand,List.foldl_append]
    rfl

/-- Removing an alias leaves the others alone. -/
theorem Holds.cmdUnalias_others (holds : Holds s m) (args : CString) :
    ∃ t out, cmdUnalias s args = .ok (t,out) ∧
      ∀ name ≠ skip args, aliasLookup t name = aliasLookup s name := by
  obtain ⟨t,out,m',done,holds',answers⟩ := holds.cmdUnalias_answers args
  refine ⟨t,out,done,fun name other => ?_⟩
  have served : MapServes m (.unalias args,out) m' := answers
  rw [holds'.lookup,holds.lookup,find_memorise served]
  exact congrArg Except.ok (if_neg other.symm)

/-- Behind any commands the rows are those of a map with at most 16 names, all different, and
a line is dispatched with its first word replaced by the command that was assigned to it
last, where that makes less than 255 characters. Nothing outside of an array is touched, and
removing an alias leaves the others alone. -/
theorem alias_expands (commands : List Command) :
    ∃ past last answered m, past.map (fun entry => entry.2.1) = commands ∧
      Run Serves cleared past last ∧
      Run MapServes (OrderedMap.empty 16 CString CString) answered m ∧
      answered.map Prod.snd = past.map Prod.snd ∧ Holds last m ∧ last.aliasCount ≤ 16 ∧
      (∀ i j : Fin 16, i < last.aliasCount → j < last.aliasCount →
        string (last.aliasNames i) = string (last.aliasNames j) → i = j) ∧
      (∀ (first : Fin 32 → Byte) (expanded : Fin 256 → Byte) (input : CString),
        shellLine first expanded last input =
          .ok (dispatched (lastCommand (past.map Prod.snd)) input)) ∧
      ∀ args, ∃ t out, cmdUnalias last args = .ok (t,out) ∧
        ∀ name ≠ skip args, aliasLookup t name = aliasLookup last name := by
  have initial : Holds cleared (OrderedMap.empty 16 CString CString) :=
    ⟨rfl,⟨rfl,fun _ below => absurd below (Nat.not_lt_zero _)⟩,fun _ member => absurd member List.not_mem_nil⟩
  have advance (s : State) (m : Aliases) (command : Command) (holds : Holds s m) (_ : True) :
      ∃ a t m', Prod.fst a = command ∧ Serves s a t ∧ MapServes m a m' ∧ Holds t m' := by
    obtain ⟨t,out,m',done,holds',answers⟩ := holds.perform_answers command
    exact ⟨(command,out),t,m',rfl,done,answers,holds'⟩
  obtain ⟨past,last,answered,m,taken,run,run',labels,holds⟩ :=
    simulation initial advance commands fun _ _ => trivial
  have found : m.find = lastCommand (past.map Prod.snd) := funext fun name =>
    (find_lastCommand run' name).trans (by rw [labels])
  have count := holds.count
  have room := m.room
  refine ⟨past,last,answered,m,taken,run,run',labels,holds,by omega,?_,?_,holds.cmdUnalias_others⟩
  · exact fun i j low high => holds.rows.distinct (by omega) (by omega)
  · exact fun first expanded input => (holds.shellLine_eq first expanded input).trans (by rw [found])

end NimrodOS.AliasTable
