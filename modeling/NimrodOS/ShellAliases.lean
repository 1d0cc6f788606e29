import NimrodOS.AliasMap

/-! The list of aliases that the lines of the shell are followed with elsewhere holds what
stands in the table, and its functions do what those on the arrays do. -/
namespace NimrodOS.AliasTable

open Libc Checked
open Shell (Alias updateAlias)
open ShellFiles (skip word firstWord)
open Vga (Call)

def listed (e : CString × CString) : Alias := ⟨e.1.val,e.2.val⟩

/-- The map as a list. -/
def aliases (m : Aliases) : List Alias := m.entries.map listed

variable {s t : State} {m m' : Aliases} {name cmd args input : CString} {out : List Call}
  {entries : List (CString × CString)} {e : CString × CString}

theorem listed_name : strcmp (listed e).name name.val = 0 ↔ e.1 = name :=
  (strcmp_eq_zero e.1.property name.property).trans ⟨Subtype.ext,congrArg Subtype.val⟩

theorem listed_named (name : CString) : ((fun a => decide (strcmp (Alias.name a) name.val = 0)) ∘ listed) =
    fun e => decide (e.1 = name) := funext fun _ => decide_eq_decide.mpr listed_name

theorem aliasLookup_listed (m : Aliases) (name : CString) :
    Shell.aliasLookup (aliases m) name.val = (m.find name).map Subtype.val := by
  rw [Shell.aliasLookup,aliases,List.find?_map,listed_named,OrderedMap.find,Option.map_map,
    Option.map_map]
  rfl

theorem updateAlias_absent (absent : name ∉ entries.map Prod.fst) :
    updateAlias name.val cmd.val (entries.map listed) = none := by
  induction entries with
  | nil => rfl
  | cons e entries ih =>
    have other := List.ne_of_not_mem_cons absent
    have absent := List.not_mem_of_not_mem_cons absent
    rw [List.map_cons,updateAlias,if_neg fun same => other (listed_name.mp same).symm,
      ih absent]
    rfl

theorem updateAlias_known (distinct : (entries.map Prod.fst).Nodup)
    (known : name ∈ entries.map Prod.fst) : updateAlias name.val cmd.val (entries.map listed) =
      some ((OrderedMap.updated entries name (front cmd 127)).map listed) := by
  induction entries with
  | nil => cases known
  | cons e entries ih =>
    obtain ⟨absent,distinct⟩ := List.nodup_cons.mp distinct
    rw [List.map_cons,updateAlias,OrderedMap.updated,List.map_cons]
    by_cases same : e.1 = name
    · subst same
      rw [if_pos (listed_name.mpr rfl),if_pos rfl]
      exact congrArg (some <| _ :: List.map listed ·) (OrderedMap.updated_of_notMem absent).symm
    · have later := (List.mem_cons.mp known).resolve_left (Ne.symm same)
      rw [if_neg (mt listed_name.mp same),if_neg same,ih distinct later]
      rfl

theorem assign_listed (name cmd : CString) (served :
    if m.find name = none ∧ m.entries.length = 16 then m' = m else m.Stores name (front cmd 127) m') :
    (match updateAlias name.val cmd.val (aliases m) with
      | some updated => updated
      | none => if (aliases m).length ≥ 16 then aliases m
        else aliases m ++ [⟨name.val,cmd.val.take 127⟩]) = aliases m' := by
  have length : (aliases m).length = m.entries.length := List.length_map _
  have room := m.room
  by_cases known : name ∈ m.keys
  · rw [if_neg fun both => OrderedMap.find_eq_none.mp both.1 known,OrderedMap.Stores,if_pos known] at served
    rw [aliases,updateAlias_known m.distinct known,← served]
    rfl
  · rw [aliases,updateAlias_absent known]
    change (if (aliases m).length ≥ 16 then aliases m else _) = _
    rw [length]
    by_cases full : m.entries.length = 16
    · rw [if_pos ⟨OrderedMap.find_eq_none.mpr known,full⟩] at served
      rw [if_pos full.ge,served]
    · rw [if_neg fun both => full both.2,OrderedMap.Stores,if_neg known] at served
      rw [if_neg (by omega),aliases,served,List.map_append]
      rfl

theorem cmdAlias_listed {buf : Fin 32 → Byte} (served : MapServes m (.alias buf args,out) m') :
    Shell.cmdAlias (aliases m) args.val = aliases m' := by
  have name : args.val.takeWhile (fun c => decide (c ≠ 61)) =
      (front args (args.val.takeWhile fun c => decide (c ≠ 61)).length).val :=
    List.prefix_iff_eq_take.mp (List.takeWhile_prefix _)
  simp only [MapServes,Answers,assignment] at served
  simp only [Shell.cmdAlias]
  generalize size : (args.val.takeWhile fun c => decide (c ≠ 61)).length = nlen at name served ⊢
  by_cases unset : args.val.length = 0 ∨ nlen = args.val.length
  · have whole : nlen = args.val.length := by
      have inside : nlen ≤ args.val.length := size ▸ (List.takeWhile_prefix _).length_le
      omega
    rw [if_pos (.inl whole)] at served
    rw [if_pos unset,served.2]
  rw [if_neg unset]
  by_cases bad : nlen = 0 ∨ nlen ≥ 32
  · rw [if_pos (.inr bad)] at served
    rw [if_pos bad,served.2]
  · rw [if_neg fun either => either.elim (fun whole => unset (.inr whole)) bad] at served
    rw [if_neg bad,name]
    refine assign_listed _ (behind args (nlen + 1)) ?_
    dsimp only at served
    split_ifs at served ⊢
    · exact served.2
    · exact served.2

theorem cmdUnalias_listed (served : MapServes m (.unalias args,out) m') :
    Shell.cmdUnalias (aliases m) args.val = aliases m' := by
  have erased : Shell.cmdUnalias (aliases m) args.val =
      (OrderedMap.removed m.entries (skip args)).map listed := by
    rw [Shell.cmdUnalias,aliases,List.eraseP_map,OrderedMap.removed_eq_eraseP m.distinct]
    exact congrArg (fun p => (m.entries.eraseP p).map listed) (listed_named (skip args))
  simp only [MapServes,Answers] at served
  split_ifs at served with unknown
  · rw [erased,served.2,OrderedMap.removed_of_notMem (OrderedMap.find_eq_none.mp unknown)]
    rfl
  · rw [erased,aliases,served.2]

/-- The line with its first word replaced. -/
theorem expandAlias_listed (holds : Holds s m) (input : CString) :
    Shell.expandAlias (aliases m) input.val =
      (expansion (m.find (front input (word input.val).length)) input).val := by
  have size : input.val.takeWhile (fun c => decide (c ≠ 32)) = word input.val := rfl
  have lookup : Shell.aliasLookup (aliases m) (word input.val) =
      (m.find (front input (word input.val).length)).map Subtype.val := by
    rw [← aliasLookup_listed,front_word]
  simp only [Shell.expandAlias,size,lookup]
  split_ifs with short
  · cases m.find (front input (word input.val).length) with
    | none => rfl
    | some cmd =>
      simp only [Option.map_some,expansion,joined,List.length_append]
      split_ifs <;> rfl
  · rw [holds.find_long short]
    rfl

/-- Where the table holds the aliases of a state, a line that is executed is followed with the
line that the table gives. -/
theorem shellExecute_table {state : Shell.State} (holds : Holds s m)
    (same : state.aliases = aliases m) (outside : Shell.Outside) (iflag : Bool)
    (sc : Option Byte) (first : Fin 32 → Byte) (expanded : Fin 256 → Byte) (input : CString) :
    ∃ line, shellLine first expanded s input = .ok line ∧
      Shell.shellExecute outside iflag state input.val sc = match line with
        | none => .ok {state with ctrlCPressed := false}
        | some line => Shell.execute outside iflag {state with ctrlCPressed := false} sc
          (Shell.dispatch line.val) := by
  unfold shellLine Shell.shellExecute
  by_cases blank : (skip input).val.length = 0
  · exact ⟨none,if_pos blank,if_pos blank⟩
  · refine ⟨_,(if_neg blank).trans (congrArg _ (holds.expandAlias_eq first expanded _)),?_⟩
    refine (if_neg blank).trans ?_
    exact congrArg (fun line => Shell.execute outside iflag _ sc (Shell.dispatch line))
      ((congrArg (Shell.expandAlias · _) same).trans (expandAlias_listed holds (skip input)))

def shellCommand : Command → Shell.Command
  | .alias _ args => .alias args.val
  | .unalias args => .unalias args.val

/-- A command keeps the list in step with the table. -/
theorem execute_table {state : Shell.State} {command : Command} (holds : Holds s m)
    (same : state.aliases = aliases m) (done : perform s command = .ok (t,out))
    (outside : Shell.Outside) (iflag : Bool) (sc : Option Byte) :
    ∃ m', Holds t m' ∧ Shell.execute outside iflag state sc (shellCommand command) =
      .ok {state with aliases := aliases m'} := by
  obtain ⟨t',out',m',done',holds',answers⟩ := holds.perform_answers command
  obtain ⟨rfl,rfl⟩ := Prod.mk.inj (Except.ok.inj (done.symm.trans done'))
  have served : MapServes m (command,out) m' := answers
  refine ⟨m',holds',?_⟩
  match command with
  | .alias _ args => rw [shellCommand,Shell.execute,same,cmdAlias_listed served]
  | .unalias args => rw [shellCommand,Shell.execute,same,cmdUnalias_listed served]

end NimrodOS.AliasTable
