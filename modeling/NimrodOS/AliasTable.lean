import NimrodOS.KeyRows
import NimrodOS.LibcBuffers
import NimrodOS.ShellLines

/-! The aliases of `shell/shell.c` as they stand in its two arrays, with every access
checked. The arrays that a function keeps on the stack are arguments, since nothing is
known of what they hold at first. -/
namespace NimrodOS.AliasTable

open Libc Checked KeyBuffers
open Shell (text)
open ShellFiles (skip)
open Vga (Call)

structure State where
  aliasNames : Fin 16 → Fin 32 → Byte
  aliasCmds : Fin 16 → Fin 128 → Byte
  aliasCount : Int

/-- The arrays before anything is stored. -/
def cleared : State := ⟨fun _ _ => 0,fun _ _ => 0,0⟩

/-- The loop over the names that three functions begin with. -/
def search (names : Fin 16 → Fin 32 → Byte) (name : CString) :
    Nat → Nat → Except OutOfRange (Option Nat)
  | 0,_ => .ok none
  | rounds + 1,i => do
    let row ← get names i
    let here ← readString row
    if strcmp here.val name.val = 0 then return some i else search names name rounds (i + 1)

def aliasLookup (s : State) (name : CString) : Except OutOfRange (Option CString) := do
  match ← search s.aliasNames name s.aliasCount.toNat 0 with
  | some i =>
    let row ← get s.aliasCmds i
    return some (← readString row)
  | none => return none

/-! The block in `shell_execute` that replaces the first word. -/

/-- What is left of a string behind its first characters. -/
def behind (s : CString) (i : Nat) : CString :=
  ⟨s.val.drop i,fun member => s.property (List.mem_of_mem_drop member)⟩

def expandAlias (first : Fin 32 → Byte) (expanded : Fin 256 → Byte) (s : State) (input : CString) :
    Except OutOfRange CString := do
  let wlen := (input.val.takeWhile (· ≠ 32)).length
  if wlen < 32 then
    let copied ← copyBounded first input wlen
    let ended ← Checked.set copied wlen 0
    match ← aliasLookup s (← readString ended) with
    | some replacement =>
      let rest := behind input wlen
      if replacement.val.length + rest.val.length < 255 then
        let front ← strcpyTo expanded 0 replacement.val
        let whole ← strcpyTo front replacement.val.length rest.val
        readString whole
      else return input
    | none => return input
  else return input

/-- The line that `shell_execute` compares with the commands, unless it returns before. -/
def shellLine (first : Fin 32 → Byte) (expanded : Fin 256 → Byte) (s : State) (input : CString) :
    Except OutOfRange (Option CString) :=
  let input := skip input
  if input.val.length = 0 then .ok none else (expandAlias first expanded s input).map some

/-! The commands, with what they print. -/

/-- `strncpy(rows[i], src, n); rows[i][n] = '\0';` -/
def storeRow {n : Nat} (rows : Fin 16 → Fin (n + 1) → Byte) (i : Int) (src : CString) :
    Except OutOfRange (Fin 16 → Fin (n + 1) → Byte) := do
  let row ← get rows i
  let copied ← copyBounded row src n
  let ended ← Checked.set copied n 0
  Checked.set rows i ended

def assign (s : State) (name cmd : CString) : Except OutOfRange (State × List Call) := do
  match ← search s.aliasNames name s.aliasCount.toNat 0 with
  | some i =>
    let cmds ← storeRow s.aliasCmds i cmd
    return ({s with aliasCmds := cmds},[])
  | none =>
    if s.aliasCount ≥ 16 then return (s,[.print (text "Alias table full.\n")])
    else
      let names ← storeRow s.aliasNames s.aliasCount name
      let cmds ← storeRow s.aliasCmds s.aliasCount cmd
      return (⟨names,cmds,s.aliasCount + 1⟩,[])

/-- One line of the list, light cyan and white on black. -/
def aliasLine (name cmd : CString) : List Call :=
  [.setColor 11 0,.print (text "  "),.print name.val,.setColor 15 0,.print (text " = '"),
    .print cmd.val,.print (text "'\n")]

def listRow (s : State) (i : Nat) : Except OutOfRange (List Call) := do
  let row ← get s.aliasNames i
  let name ← readString row
  let row ← get s.aliasCmds i
  return aliasLine name (← readString row)

def listAliases (s : State) : Except OutOfRange (List Call) :=
  if s.aliasCount = 0 then .ok [.print (text "  No aliases defined.\n")]
  else do
    let lines ← (List.range s.aliasCount.toNat).mapM (listRow s)
    return lines.flatten ++ [.setColor 10 0]

def cmdAlias (name : Fin 32 → Byte) (s : State) (args : CString) :
    Except OutOfRange (State × List Call) :=
  if args.val.length = 0 then (listAliases s).map (s,·)
  else
    let nlen := (args.val.takeWhile (· ≠ 61)).length
    if nlen = args.val.length then .ok (s,[.print (text "Usage: alias name=command\n")])
    else if nlen = 0 ∨ nlen ≥ 32 then .ok (s,[.print (text "Invalid alias name.\n")])
    else do
      let copied ← copyBounded name args nlen
      let ended ← Checked.set copied nlen 0
      assign s (← readString ended) (behind args (nlen + 1))

/-- `strcpy(rows[j], rows[j + 1]);` -/
def copyRow {n : Nat} (rows : Fin 16 → Fin n → Byte) (j : Nat) :
    Except OutOfRange (Fin 16 → Fin n → Byte) := do
  let next ← get rows (j + 1 : Nat)
  let src ← readString next
  let row ← get rows j
  let copied ← copyString row src
  Checked.set rows j copied

def copyDown (s : State) (j : Nat) : Except OutOfRange State := do
  let names ← copyRow s.aliasNames j
  let cmds ← copyRow s.aliasCmds j
  return {s with aliasNames := names,aliasCmds := cmds}

def cmdUnalias (s : State) (args : CString) : Except OutOfRange (State × List Call) := do
  let args := skip args
  match ← search s.aliasNames args s.aliasCount.toNat 0 with
  | some i =>
    let shifted ← (List.range' i (s.aliasCount.toNat - 1 - i)).foldlM copyDown s
    return ({shifted with aliasCount := shifted.aliasCount - 1},[])
  | none => return (s,[.print (text "Alias not found: "),.print args.val,.print (text "\n")])

inductive Command where
  | alias (name : Fin 32 → Byte) (args : CString)
  | unalias (args : CString)

def perform (s : State) : Command → Except OutOfRange (State × List Call)
  | .alias name args => cmdAlias name s args
  | .unalias args => cmdUnalias s args

end NimrodOS.AliasTable
