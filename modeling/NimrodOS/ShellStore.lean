import NimrodOS.AliasMap
import NimrodOS.RamfsRuns
import NimrodOS.ShellDump
import NimrodOS.ShellGrep
import NimrodOS.ShellTable

/-! The commands `touch`, `rm`, `cat`, `stat` and `ls` of `shell/shell.c`, and sessions in which the
lines of a user reach the file system through the aliases and the chain of `shell_execute`. -/
namespace NimrodOS.ShellStore

open Libc Ramfs Transition
open AliasTable (Aliases dispatched shellLine)
open Shell (text)
open ShellFiles
open ShellTable (Branch Command chain dispatch meaning)
open Vga (Call printDec)

def cmdLs (files : Files) : List Call :=
  let (count,names) := ramfsList files 64
  if count = 0 then [.print (text "  (no files)\n")]
  else
    (names.flatMap fun name => [.setColor 11 0,.print (text "  "),.print name,.setColor 8 0,
      .print (text "  ")] ++ printDec (ramfsSize files (cstr name)) ++ [.print (text " bytes\n")]) ++
    .setColor 10 0 :: printDec (BitVec.ofInt 32 count) ++ [.print (text " file(s)\n")]

def cmdCat (files : Files) (args : CString) : Except Fault (List Call) :=
  let args := skip args
  if ramfsExists files args = 0 then .ok (notFound args)
  else do
    let (n,buf) ← ramfsRead files args (fun _ => 0) 4096
    if n > 0 then
      return .setColor 15 0 :: .print (bytesAt buf n.toNat) ::
        (if buf (n.toNat - 1) ≠ 10 then [.print [10]] else []) ++ [.setColor 10 0]
    else return []

def cmdTouch (files : Files) (args : CString) : Files × List Call :=
  let args := skip args
  if ramfsExists files args ≠ 0 then (files,[.print (text "File already exists.\n")])
  else
    let (files,r) := ramfsCreate files args
    if r = -2 then (files,inRed [.print (text "Filesystem full.\n")])
    else (files,[.print (text "Created: "),.print args.val,.print (text "\n")])

def cmdRm (files : Files) (args : CString) : Files × List Call :=
  let args := skip args
  let (files,r) := ramfsDelete files args
  if r = 0 then (files,[.print (text "Deleted: "),.print args.val,.print (text "\n")])
  else (files,notFound args)

def cmdStat (files : Files) (args : CString) : List Call :=
  let args := skip args
  if ramfsExists files args = 0 then notFound args
  else [.setColor 15 0,.print (text "  Name: "),.print args.val,.print (text "\n  Size: ")] ++
    printDec (ramfsSize files args) ++ .print (text " bytes\n  Max:  ") :: printDec 4096 ++
    [.print (text " bytes\n"),.setColor 10 0]

/-- The commands that are followed here. -/
def perform (files : Files) : Command → Option (Except Fault (Files × List Call))
  | .ls => some (.ok (files,cmdLs files))
  | .cat args => some ((cmdCat files (cstr args)).map (files,·))
  | .touch args => some (.ok (cmdTouch files (cstr args)))
  | .write args => some (cmdWrite files (cstr args))
  | .rm args => some (.ok (cmdRm files (cstr args)))
  | .stat args => some (.ok (files,cmdStat files (cstr args)))
  | .wc args => some ((cmdWc files (cstr args)).map (files,·))
  | .append args => some (cmdAppend files (cstr args))
  | .cp args => some (cmdCp files (cstr args))
  | .unknown input => some (.ok (files,inRed [.print (text "Unknown command: "),.print input,
      .print (text "\n")]))
  | _ => none

/-- A line, and what the stack holds where `shell_execute` has its arrays. -/
structure Typed where
  line : CString
  first : Fin 32 → Byte
  expanded : Fin 256 → Byte

/-- `shell_execute`, as far as its command is followed. -/
def shellExecute (table : AliasTable.State) (files : Files) (typed : Typed) :
    Option (Except Stop (Files × List Call)) :=
  match access (shellLine typed.first typed.expanded table typed.line) with
  | .error stop => some (.error stop)
  | .ok none => some (.ok (files,[]))
  | .ok (some input) => (perform files (dispatch input.val)).map (·.mapError .ramfs)

/-! What the commands are for. -/

/-- What a user asks for. -/
inductive Request where
  | nothing
  | list
  | touch (name : CString)
  | remove (name : CString)
  | read (name : CString)
  | stat (name : CString)
  | count (name : CString)
  | write (name : CString) (t : List Byte)
  | append (name : CString) (t : List Byte)
  | copy (src dst : CString)
  | unknown (input : List Byte)

/-- What a user is told. -/
inductive Reply where
  | nothing
  | usage (line : List Byte)
  | notFound (name : CString)
  | present
  | refused (line : List Byte)
  | created (name : CString)
  | deleted (name : CString)
  | bytes (s : Contents)
  | size (name : CString) (n : Nat)
  | counts (s : Contents)
  | wrote (n : Nat) (name : CString)
  | appended (name : CString)
  | copied (src dst : CString)
  | listing (files : List (CString × Nat))
  | unknown (input : List Byte)

/-- How it is told. -/
def Reply.calls : Reply → List Call
  | nothing => []
  | usage line => [.print line]
  | notFound name => ShellFiles.notFound name
  | present => [.print (text "File already exists.\n")]
  | refused line => inRed [.print line]
  | created name => [.print (text "Created: "),.print name.val,.print (text "\n")]
  | deleted name => [.print (text "Deleted: "),.print name.val,.print (text "\n")]
  | bytes s => if s.val = [] then [] else .setColor 15 0 :: .print s.val ::
      (if s.val.getLast? ≠ some 10 then [.print [10]] else []) ++ [.setColor 10 0]
  | size name n => [.setColor 15 0,.print (text "  Name: "),.print name.val,
      .print (text "\n  Size: ")] ++ printDec (BitVec.ofNat 32 n) ++
      .print (text " bytes\n  Max:  ") :: printDec 4096 ++ [.print (text " bytes\n"),.setColor 10 0]
  | counts s => if s.val = [] then [.print (text "  0 0 0\n")]
      else counted (s.val.count 10) (words s.val).length s.val.length
  | wrote n name => .print (text "Wrote ") :: printDec (BitVec.ofNat 32 n) ++
      [.print (text " bytes to "),.print name.val,.print (text "\n")]
  | appended name => [.print (text "Appended to "),.print name.val,.print (text "\n")]
  | copied src dst => [.print (text "Copied "),.print src.val,.print (text " -> "),.print dst.val,
      .print (text "\n")]
  | listing [] => [.print (text "  (no files)\n")]
  | listing files => (files.flatMap fun (name,n) => [.setColor 11 0,.print (text "  "),
      .print name.val,.setColor 8 0,.print (text "  ")] ++ printDec (BitVec.ofNat 32 n) ++
      [.print (text " bytes\n")]) ++
      .setColor 10 0 :: printDec (BitVec.ofNat 32 files.length) ++ [.print (text " file(s)\n")]
  | unknown input => inRed [.print (text "Unknown command: "),.print input,.print (text "\n")]

/-- The reply to a request from a map of files, and the map afterwards. A copy that finds no room is
reported all the same. -/
def Meets (m : FileMap) : Request → Reply → FileMap → Prop
  | .nothing,r,m' => r = .nothing ∧ m' = m
  | .unknown input,r,m' => r = .unknown input ∧ m' = m
  | .list,r,m' => m' = m ∧ ∃ names : List CString, names.Nodup ∧
      (∀ name, name ∈ names ↔ name ∈ m.files) ∧
      r = .listing (names.map fun name => (name,(m.files.lookup name).elim 0 (·.val.length)))
  | .touch name,r,m' =>
    if name ∈ m.files then r = .present ∧ m' = m
    else if m.files.keys.card = 64 then r = .refused (text "Filesystem full.\n") ∧ m' = m
    else r = .created name ∧ m'.files = m.files.insert name (clip [])
  | .remove name,r,m' =>
    if name ∈ m.files then r = .deleted name ∧ m'.files = m.files.erase name
    else r = .notFound name ∧ m' = m
  | .read name,r,m' => m' = m ∧ r = (m.files.lookup name).elim (.notFound name) .bytes
  | .stat name,r,m' => m' = m ∧
    r = (m.files.lookup name).elim (.notFound name) fun s => .size name s.val.length
  | .count name,r,m' => m' = m ∧ r = (m.files.lookup name).elim (.notFound name) .counts
  | .write name t,r,m' =>
    if name.val = [] ∨ t = [] then r = .usage (text "Usage: write <filename> <content>\n") ∧ m' = m
    else if name ∉ m.files ∧ m.files.keys.card = 64 then
      r = .refused (text "Write failed.\n") ∧ m' = m
    else r = .wrote t.length name ∧ m'.files = m.files.insert name (clip t)
  | .append name t,r,m' =>
    if name.val = [] ∨ t = [] then r = .usage (text "Usage: append <filename> <text>\n") ∧ m' = m
    else match m.files.lookup name with
      | none => r = .refused (text "Append failed.\n") ∧ m' = m
      | some old => r = .appended name ∧ m'.files = m.files.insert name (clip (old.val ++ t ++ [10]))
  | .copy src dst,r,m' =>
    if src.val = [] ∨ dst.val = [] then r = .usage (text "Usage: cp <source> <dest>\n") ∧ m' = m
    else match m.files.lookup src with
      | none => r = .notFound src ∧ m' = m
      | some s =>
        if s.val = [] then r = .nothing ∧ m' = m
        else r = .copied src dst ∧
          if dst ∉ m.files ∧ m.files.keys.card = 64 then m' = m
          else m'.files = m.files.insert dst s

/-- What a command asks for. -/
def request : Command → Option Request
  | .ls => some .list
  | .cat args => some (.read (skip (cstr args)))
  | .touch args => some (.touch (skip (cstr args)))
  | .write args => some (.write (firstWord (cstr args)) (behindFirst (cstr args)))
  | .rm args => some (.remove (skip (cstr args)))
  | .stat args => some (.stat (skip (cstr args)))
  | .wc args => some (.count (skip (cstr args)))
  | .append args => some (.append (firstWord (cstr args)) (behindFirst (cstr args)))
  | .cp args => some (.copy (firstWord (cstr args)) (secondWord (cstr args)))
  | .unknown input => some (.unknown input)
  | _ => none

/-- What a line asks for, given what the words stand for. -/
def requested (known : Aliases) (line : CString) : Option Request :=
  match dispatched known.find line with
  | none => some .nothing
  | some input => request (meaning chain input.val)

/-- The names of files that a request may make fit in their slots. -/
def Request.Short : Request → Prop
  | touch name => Ramfs.Short name
  | write name _ => Ramfs.Short name
  | append name _ => Ramfs.Short name
  | copy src dst => Ramfs.Short src ∧ Ramfs.Short dst
  | _ => True

instance : (r : Request) → Decidable r.Short
  | .touch name => inferInstanceAs (Decidable (name.val.length ≤ 31))
  | .write name _ => inferInstanceAs (Decidable (name.val.length ≤ 31))
  | .append name _ => inferInstanceAs (Decidable (name.val.length ≤ 31))
  | .copy src dst => inferInstanceAs (Decidable (src.val.length ≤ 31 ∧ dst.val.length ≤ 31))
  | .nothing | .list | .remove _ | .read _ | .stat _ | .count _ | .unknown _ =>
    inferInstanceAs (Decidable True)

/-- A line from the keyboard that asks for something, with short names. -/
def Permitted (known : Aliases) (typed : Typed) : Prop :=
  typed.line.val.length ≤ 255 ∧ (requested known typed.line).any (·.Short) = true

instance (known : Aliases) (typed : Typed) : Decidable (Permitted known typed) :=
  inferInstanceAs (Decidable (_ ∧ _))

/-- A line is executed. -/
def Executes (table : AliasTable.State) (files : Files) (done : Typed × List Call) (files' : Files) : Prop :=
  shellExecute table files done.1 = some (.ok (files',done.2))

/-- The same for the map. -/
def MapExecutes (known : Aliases) (m : FileMap) (done : Typed × List Call) (m' : FileMap) : Prop :=
  ∃ r reply, requested known done.1.line = some r ∧ Meets m r reply m' ∧ done.2 = Reply.calls reply

variable {files : Files} {m : FileMap} {args name : CString} {t : List Byte} {c : Command}
  {r : Request} {known : Aliases} {table : AliasTable.State} {line input : CString}

/-! Looking names up. -/

theorem exists_refused (ref : Refines files m) : ramfsExists files name = 0 ↔ m.files.lookup name = none := by
  rw [(exists_refines ref).2,Finmap.lookup_eq_none]
  split_ifs with present
  · exact iff_of_false one_ne_zero (not_not.mpr present)
  · exact iff_of_true rfl present

theorem size_word (ref : Refines files m) :
    ramfsSize files name = BitVec.ofNat 32 ((m.files.lookup name).elim 0 (·.val.length)) := by
  have answer := (@size_refines files m name ref).2
  cases found : m.files.lookup name with
  | none =>
    rw [found] at answer
    exact answer
  | some s =>
    rw [found] at answer
    rw [Option.elim_some,← answer,BitVec.ofNat_toNat,BitVec.setWidth_eq]

/-- The buffer after the file was read. -/
theorem read_file (ref : Refines files m) {s : Contents} (found : m.files.lookup name = some s) :
    ramfsRead files name (fun _ => 0) 4096 = .ok ((s.val.length : Int),overlay (fun _ => 0) s.val) := by
  obtain ⟨r,buf,done,-,answer⟩ := @read_refines files m name ref (fun _ => 0) 4096
  have all : min s.val.length (4096 : Word).toNat = s.val.length := Nat.min_eq_left s.property
  have whole : s.val.take (4096 : Word).toNat = s.val := List.take_of_length_le s.property
  rw [found] at answer
  obtain ⟨rfl,rfl⟩ := answer
  rw [done,whole,all]

theorem cstr_self (name : CString) : cstr name.val = name := Subtype.ext (cstr_val name.property)

theorem overlay_last {s : List Byte} (some' : s ≠ []) :
    overlay (fun _ => 0) s (s.length - 1) = 10 ↔ s.getLast? = some 10 := by
  have inside : s.length - 1 < s.length := Nat.sub_lt (List.length_pos_iff.mpr some') Nat.one_pos
  rw [List.getLast?_eq_getElem?,List.getElem?_eq_getElem inside,overlay,List.getD_eq_getElem _ _ inside,
    Option.some_inj]

/-! The commands that read. -/

theorem cmdLs_meets (ref : Refines files m) :
    ∃ reply, cmdLs files = reply.calls ∧ Meets m .list reply m := by
  obtain ⟨-,count,names,rows,distinct,inside,size⟩ := list_refines ref 64
  have all : names.length = m.files.keys.card := by
    rw [size]
    exact Nat.min_eq_right m.room
  have every : ∀ name, name ∈ names ↔ name ∈ m.files := by
    have same : names.toFinset = m.files.keys := by
      refine Finset.eq_of_subset_of_card_le (fun name member => ?_) ?_
      · exact Finmap.mem_keys.mpr (inside name (List.mem_toFinset.mp member))
      · rw [List.toFinset_card_of_nodup distinct,all]
    intro name
    rw [← List.mem_toFinset,same,Finmap.mem_keys]
  refine ⟨_,?_,rfl,names,distinct,every,rfl⟩
  have length : (ramfsList files 64).1 = names.length := by rw [count,rows,List.length_map]
  unfold cmdLs
  rw [show ramfsList files 64 = ((names.length : Int),names.map Subtype.val) from Prod.ext length rows]
  cases names with
  | nil => rfl
  | cons name names =>
    have some' : ¬((name :: names).length : Int) = 0 := by simp; omega
    simp only [if_neg some',List.flatMap_map,cstr_self]
    simp only [size_word ref,List.map_cons,Reply.calls,List.length_cons,List.length_map,List.flatMap_map,
      BitVec.ofInt_natCast,List.flatMap_cons]

theorem cmdCat_meets (ref : Refines files m) (args : CString) :
    ∃ reply, cmdCat files args = .ok (Reply.calls reply) ∧ Meets m (.read (skip args)) reply m := by
  refine ⟨_,?_,rfl,rfl⟩
  rw [cmdCat]
  cases found : m.files.lookup (skip args) with
  | none =>
    rw [if_pos ((exists_refused ref).mpr found)]
    rfl
  | some s =>
    have here : ¬ramfsExists files (skip args) = 0 := by
      rw [exists_refused ref,found]
      exact Option.some_ne_none s
    rw [if_neg here,read_file ref found]
    by_cases empty : s.val = []
    · simp [bind,Except.bind,empty,Reply.calls,pure,Except.pure]
    · have positive := List.length_pos_iff.mpr empty
      have whole : bytesAt (overlay (fun _ => 0) s.val) s.val.length = s.val := bytesAt_string s.val
      simp only [bind,Except.bind,if_pos (show (s.val.length : Int) > 0 by omega),Int.toNat_natCast,whole,
        Option.elim_some,Reply.calls,if_neg empty,Ne,overlay_last empty]
      rfl

theorem cmdStat_meets (ref : Refines files m) (args : CString) :
    ∃ reply, cmdStat files args = Reply.calls reply ∧ Meets m (.stat (skip args)) reply m := by
  refine ⟨_,?_,rfl,rfl⟩
  simp only [cmdStat,exists_refused ref,size_word ref]
  cases m.files.lookup (skip args) with
  | none => rfl
  | some s => rfl

theorem cmdWc_meets (ref : Refines files m) (args : CString) :
    ∃ reply, cmdWc files args = .ok (Reply.calls reply) ∧ Meets m (.count (skip args)) reply m := by
  refine ⟨_,?_,rfl,rfl⟩
  rw [cmdWc]
  cases found : m.files.lookup (skip args) with
  | none =>
    rw [if_pos ((exists_refused ref).mpr found)]
    rfl
  | some s =>
    have here : ¬ramfsExists files (skip args) = 0 := by
      rw [exists_refused ref,found]
      exact Option.some_ne_none s
    rw [if_neg here,read_file ref found]
    by_cases empty : s.val = []
    · simp [bind,Except.bind,empty,Reply.calls,pure,Except.pure]
    · have positive := List.length_pos_iff.mpr empty
      have whole : bytesAt (overlay (fun _ => 0) s.val) s.val.length = s.val := bytesAt_string s.val
      simp only [bind,Except.bind,if_neg (show ¬(s.val.length : Int) ≤ 0 by omega),Int.toNat_natCast,whole,
        Option.elim_some,Reply.calls,if_neg empty,wcLoop_eq,Nat.zero_add]
      rfl

/-! The commands that write. -/

theorem cmdTouch_meets (ref : Refines files m) (args : CString) (short : Short (skip args)) :
    ∃ reply m', (cmdTouch files args).2 = Reply.calls reply ∧ Meets m (.touch (skip args)) reply m' ∧
      Refines (cmdTouch files args).1 m' := by
  obtain ⟨m',answer,ref'⟩ := create_refines ref short
  simp only [cmdTouch]
  by_cases present : skip args ∈ m.files
  · have here : ramfsExists files (skip args) ≠ 0 := by
      rw [Ne,exists_refused ref,Finmap.lookup_eq_none]
      exact not_not.mpr present
    rw [if_pos here]
    exact ⟨.present,m,rfl,by rw [Meets,if_pos present]; exact ⟨rfl,rfl⟩,ref⟩
  · have here : ¬ramfsExists files (skip args) ≠ 0 := by
      rw [Ne,exists_refused ref,Finmap.lookup_eq_none]
      exact not_not.mpr present
    rw [if_neg here]
    rw [Answers,if_neg present] at answer
    by_cases full : m.files.keys.card = 64
    · rw [if_pos full] at answer
      obtain ⟨code,rfl⟩ := answer
      rw [if_pos code]
      exact ⟨.refused _,m',rfl,by rw [Meets,if_neg present,if_pos full]; exact ⟨rfl,rfl⟩,ref'⟩
    · rw [if_neg full] at answer
      obtain ⟨code,stored⟩ := answer
      rw [if_neg (by rw [code]; decide)]
      exact ⟨.created _,m',rfl,by rw [Meets,if_neg present,if_neg full]; exact ⟨rfl,stored⟩,ref'⟩

theorem cmdRm_meets (ref : Refines files m) (args : CString) :
    ∃ reply m', (cmdRm files args).2 = Reply.calls reply ∧ Meets m (.remove (skip args)) reply m' ∧
      Refines (cmdRm files args).1 m' := by
  obtain ⟨m',answer,ref'⟩ := @delete_refines files m (skip args) ref
  simp only [cmdRm]
  rw [Answers] at answer
  by_cases present : skip args ∈ m.files
  · rw [if_pos present] at answer
    obtain ⟨code,erased⟩ := answer
    rw [if_pos code]
    exact ⟨.deleted _,m',rfl,by rw [Meets,if_pos present]; exact ⟨rfl,erased⟩,ref'⟩
  · rw [if_neg present] at answer
    obtain ⟨code,rfl⟩ := answer
    rw [if_neg (by rw [code]; decide)]
    exact ⟨.notFound _,m',rfl,by rw [Meets,if_neg present]; exact ⟨rfl,rfl⟩,ref'⟩

theorem blank_iff {s t : List Byte} : s.length = 0 ∨ t.length = 0 ↔ s = [] ∨ t = [] := by
  rw [List.length_eq_zero_iff,List.length_eq_zero_iff]

theorem writeText_meets (ref : Refines files m) (short : Short name) (small : t.length ≤ 4096) :
    ∃ files' reply m', writeText files name t = .ok (files',Reply.calls reply) ∧
      Meets m (.write name t) reply m' ∧ Refines files' m' := by
  simp only [Meets]
  by_cases blank : name.val = [] ∨ t = []
  · simp only [writeText,if_pos (blank_iff.mpr blank),if_pos blank]
    exact ⟨files,.usage _,m,rfl,⟨rfl,rfl⟩,ref⟩
  obtain ⟨files',n,m',done,answer,ref'⟩ := write_refines ref short (fun i => t.getD i 0)
    (BitVec.ofNat 32 t.length)
  have length : (BitVec.ofNat 32 t.length).toNat = t.length := by
    rw [BitVec.toNat_ofNat]
    omega
  simp only [writeText,if_neg (mt blank_iff.mp blank),if_neg blank,done]
  rw [Answers,bytesAt_short small,length] at answer
  by_cases full : name ∉ m.files ∧ m.files.keys.card = 64
  · rw [if_pos full] at answer
    obtain ⟨rfl,rfl⟩ := answer
    simp only [if_pos full]
    exact ⟨files',.refused _,m',rfl,⟨rfl,rfl⟩,ref'⟩
  · rw [if_neg full] at answer
    obtain ⟨rfl,stored⟩ := answer
    have all : min t.length 4096 = t.length := Nat.min_eq_left small
    simp only [if_neg full,bind,Except.bind,all,BitVec.ofInt_natCast,
      if_neg (show ¬(t.length : Int) < 0 by omega)]
    exact ⟨files',.wrote _ _,m',rfl,⟨rfl,stored⟩,ref'⟩

theorem appendText_meets (ref : Refines files m) (small : t.length ≤ 4096) :
    ∃ files' reply m', appendText files name t = .ok (files',Reply.calls reply) ∧
      Meets m (.append name t) reply m' ∧ Refines files' m' := by
  simp only [Meets]
  by_cases blank : name.val = [] ∨ t = []
  · simp only [appendText,if_pos (blank_iff.mpr blank),if_pos blank]
    exact ⟨files,.usage _,m,rfl,⟨rfl,rfl⟩,ref⟩
  obtain ⟨middle,n,m',done,answer,ref'⟩ := @append_refines files m name ref (fun i => t.getD i 0)
    (BitVec.ofNat 32 t.length)
  simp only [appendText,if_neg (mt blank_iff.mp blank),if_neg blank,done]
  rw [Answers,bytesAt_short small] at answer
  cases found : m.files.lookup name with
  | none =>
    rw [found] at answer
    obtain ⟨rfl,rfl⟩ := answer
    exact ⟨middle,.refused _,m',rfl,⟨rfl,rfl⟩,ref'⟩
  | some old =>
    rw [found] at answer
    obtain ⟨code,stored⟩ := answer
    have positive : n ≥ 0 := by
      have := old.property
      rw [code]
      omega
    obtain ⟨files',n',m'',done',answer',ref''⟩ := @append_refines middle m' name ref'
      (fun i => [(10 : Byte)].getD i 0) 1
    have newline : bytesAt (fun i => [(10 : Byte)].getD i 0) (1 : Word).toNat = [10] := rfl
    rw [Answers,stored,Finmap.lookup_insert,newline] at answer'
    have joined : clip ((clip (old.val ++ t)).val ++ [10]) = clip (old.val ++ t ++ [10]) :=
      Subtype.ext (take_take_append 4096 (old.val ++ t) [10])
    simp only [bind,Except.bind,if_pos positive,done']
    refine ⟨files',.appended _,m'',rfl,⟨rfl,?_⟩,ref''⟩
    rw [answer'.2,Finmap.insert_insert,joined]

theorem copyFile_meets (ref : Refines files m) {src dst : CString} (short : Short dst) :
    ∃ files' reply m', copyFile files src dst = .ok (files',Reply.calls reply) ∧
      Meets m (.copy src dst) reply m' ∧ Refines files' m' := by
  simp only [Meets]
  by_cases blank : src.val = [] ∨ dst.val = []
  · simp only [copyFile,if_pos (blank_iff.mpr blank),if_pos blank]
    exact ⟨files,.usage _,m,rfl,⟨rfl,rfl⟩,ref⟩
  simp only [copyFile,if_neg (mt blank_iff.mp blank),if_neg blank]
  cases found : m.files.lookup src with
  | none =>
    rw [if_pos ((exists_refused ref).mpr found)]
    exact ⟨files,.notFound _,m,rfl,⟨rfl,rfl⟩,ref⟩
  | some s =>
    have here : ¬ramfsExists files src = 0 := by
      rw [exists_refused ref,found]
      exact Option.some_ne_none s
    rw [if_neg here,read_file ref found]
    by_cases empty : s.val = []
    · simp only [empty]
      exact ⟨files,.nothing,m,rfl,⟨rfl,rfl⟩,ref⟩
    · have positive := List.length_pos_iff.mpr empty
      obtain ⟨files',n,m',done,answer,ref'⟩ := write_refines ref short (overlay (fun _ => 0) s.val)
        (BitVec.ofNat 32 s.val.length)
      have whole : bytesAt (overlay (fun _ => 0) s.val) (BitVec.ofNat 32 s.val.length).toNat = s.val :=
        bytesAt_short s.property
      have kept : clip s.val = s := Subtype.ext (List.take_of_length_le s.property)
      simp only [bind,Except.bind,if_pos (show (s.val.length : Int) > 0 by omega),BitVec.ofInt_natCast,done,
        if_neg empty]
      rw [Answers,whole,kept] at answer
      refine ⟨files',.copied _ _,m',rfl,⟨rfl,?_⟩,ref'⟩
      split_ifs at answer ⊢ with full
      · exact answer.2
      · exact answer.2

/-! Lines. -/

/-- The text of a request is on its line. -/
def Request.Fits : Request → Prop
  | write _ t => t.length ≤ 4096
  | append _ t => t.length ≤ 4096
  | _ => True

theorem perform_meets (ref : Refines files m) (asks : request c = some r) (short : r.Short) (fits : r.Fits) :
    ∃ files' reply m', perform files c = some (.ok (files',Reply.calls reply)) ∧ Meets m r reply m' ∧
      Refines files' m' := by
  cases c with
  | ls =>
    obtain rfl := Option.some.inj asks
    obtain ⟨reply,told,meets⟩ := cmdLs_meets ref
    exact ⟨files,reply,m,by rw [perform,told],meets,ref⟩
  | cat args =>
    obtain rfl := Option.some.inj asks
    obtain ⟨reply,told,meets⟩ := cmdCat_meets ref (cstr args)
    exact ⟨files,reply,m,by rw [perform,told]; rfl,meets,ref⟩
  | touch args =>
    obtain rfl := Option.some.inj asks
    obtain ⟨reply,m',told,meets,ref'⟩ := cmdTouch_meets ref (cstr args) short
    exact ⟨_,reply,m',by rw [perform,← told],meets,ref'⟩
  | write args =>
    obtain rfl := Option.some.inj asks
    obtain ⟨named,behind⟩ := taken_short short
    obtain ⟨files',reply,m',told,meets,ref'⟩ := writeText_meets ref short fits
    exact ⟨files',reply,m',by rw [perform,cmdWrite,← told,← named,← behind],meets,ref'⟩
  | rm args =>
    obtain rfl := Option.some.inj asks
    obtain ⟨reply,m',told,meets,ref'⟩ := cmdRm_meets ref (cstr args)
    exact ⟨_,reply,m',by rw [perform,← told],meets,ref'⟩
  | stat args =>
    obtain rfl := Option.some.inj asks
    obtain ⟨reply,told,meets⟩ := cmdStat_meets ref (cstr args)
    exact ⟨files,reply,m,by rw [perform,told],meets,ref⟩
  | wc args =>
    obtain rfl := Option.some.inj asks
    obtain ⟨reply,told,meets⟩ := cmdWc_meets ref (cstr args)
    exact ⟨files,reply,m,by rw [perform,told]; rfl,meets,ref⟩
  | append args =>
    obtain rfl := Option.some.inj asks
    obtain ⟨named,behind⟩ := taken_short short
    obtain ⟨files',reply,m',told,meets,ref'⟩ := appendText_meets ref fits
    exact ⟨files',reply,m',by rw [perform,cmdAppend,← told,← named,← behind],meets,ref'⟩
  | cp args =>
    obtain rfl := Option.some.inj asks
    obtain ⟨files',reply,m',told,meets,ref'⟩ := copyFile_meets ref short.2
    exact ⟨files',reply,m',by rw [perform,cmdCp_short short.1,cut_of_short short.2,told],meets,ref'⟩
  | unknown input =>
    obtain rfl := Option.some.inj asks
    exact ⟨files,.unknown input,m,rfl,⟨rfl,rfl⟩,ref⟩
  | _ => cases asks

theorem call_text : ∀ b ∈ chain, ∀ input args : List Byte,
    b.call input = .write args ∨ b.call input = .append args → args.length ≤ input.length := by
  rw [← List.forall_iff_forall_mem]
  unfold chain
  simp only [List.Forall]
  and_intros
  all_goals
    intro input args said
    simp only [Branch.call,reduceCtorEq,or_false,false_or,Command.write.injEq,Command.append.injEq] at said
  all_goals exact said ▸ (List.drop_sublist _ _).length_le

theorem cstr_length (s : List Byte) : (cstr s).val.length ≤ s.length := (List.takeWhile_prefix _).length_le

theorem dispatch_text {args : List Byte} (said : dispatch input.val = .write args ∨ dispatch input.val = .append args) :
    args.length ≤ input.val.length := by
  rw [dispatch,ShellTable.dispatchIn] at said
  cases found : chain.find? fun b => b.Holds input.val with
  | none =>
    rw [found] at said
    simp at said
  | some b =>
    rw [found] at said
    exact call_text b (List.mem_of_find?_eq_some found) _ _ said

theorem dispatched_length (read : dispatched known.find line = some input) (short : line.val.length ≤ 255) :
    input.val.length ≤ 255 := by
  have skipped : (skip line).val.length ≤ line.val.length := Calc.skipSpaces_length _
  rw [dispatched] at read
  split_ifs at read
  obtain rfl := Option.some.inj read
  unfold AliasTable.expansion
  split
  · split_ifs with room
    · exact room.le.trans (by decide)
    · exact skipped.trans short
  · exact skipped.trans short

theorem request_fits (asks : request (dispatch input.val) = some r) (short : input.val.length ≤ 255) : r.Fits := by
  cases said : dispatch input.val with
  | write args =>
    rw [said] at asks
    obtain rfl := Option.some.inj asks
    have onLine := dispatch_text (.inl said)
    exact (behindFirst_length _).trans ((cstr_length args).trans (by omega))
  | append args =>
    rw [said] at asks
    obtain rfl := Option.some.inj asks
    have onLine := dispatch_text (.inr said)
    exact (behindFirst_length _).trans ((cstr_length args).trans (by omega))
  | _ =>
    rw [said] at asks
    cases asks <;> exact True.intro

/-- A line of the user is executed as the map would. -/
theorem line_meets (holds : AliasTable.Holds table known) (ref : Refines files m) {typed : Typed}
    (permitted : Permitted known typed) : ∃ out files' m', Executes table files (typed,out) files' ∧
      MapExecutes known m (typed,out) m' ∧ Refines files' m' := by
  obtain ⟨short,permitted⟩ := permitted
  obtain ⟨r,asks,names⟩ := (Option.any_eq_true ..).mp permitted
  have names := of_decide_eq_true names
  have read := holds.shellLine_eq typed.first typed.expanded typed.line
  simp only [Executes,MapExecutes,shellExecute,read,ShellFiles.access,Except.mapError]
  have asks' := asks
  rw [requested] at asks
  cases shown : dispatched known.find typed.line with
  | none =>
    rw [shown] at asks
    obtain rfl := Option.some.inj asks
    exact ⟨[],files,m,rfl,⟨_,.nothing,asks',⟨rfl,rfl⟩,rfl⟩,ref⟩
  | some input =>
    rw [shown] at asks
    have asks : request (dispatch input.val) = some r := by
      rw [dispatch,ShellTable.dispatchIn_eq ShellTable.chain_clear input.property]
      exact asks
    obtain ⟨files',reply,m',done,meets,ref'⟩ := perform_meets ref asks names
      (request_fits asks (dispatched_length shown short))
    refine ⟨_,files',m',?_,⟨r,reply,asks',meets,rfl⟩,ref'⟩
    simp only [done]
    rfl

/-- Sessions: whatever lines a user types, with whatever aliases, as long as names fit in their slots, no
line faults, and everything that is printed and stored is what a map of files answers. -/
theorem session_meets (holds : AliasTable.Holds table known) (ref : Refines files m) (lines : List Typed)
    (permitted : ∀ typed ∈ lines, Permitted known typed) : ∃ past files' answered m',
      past.map (fun entry => entry.2.1) = lines ∧ Run (Executes table) files past files' ∧
      Run (MapExecutes known) m answered m' ∧ answered.map Prod.snd = past.map Prod.snd ∧
      Refines files' m' := by
  apply simulation ref
  · intro files m typed ref permitted
    obtain ⟨out,files',m',done,meets,ref'⟩ := line_meets holds ref permitted
    exact ⟨(typed,out),files',m',rfl,done,meets,ref'⟩
  · exact permitted

def typed (line : CString) : Typed := ⟨line,fun _ => 0,fun _ => 0⟩

/-- A file is written, shown and removed. -/
def noteLines : List Typed :=
  [typed ⟨text "write note hello",by decide⟩,typed ⟨text "cat note",by decide⟩,typed ⟨text "rm note",by decide⟩]

theorem session_meets_note : ∃ past files' answered m',
    past.map (fun entry => entry.2.1) = noteLines ∧ Run (Executes AliasTable.cleared) ramfsInit past files' ∧
      Run (MapExecutes (OrderedMap.empty 16 CString CString)) FileMap.empty answered m' ∧
      answered.map Prod.snd = past.map Prod.snd ∧ Refines files' m' :=
  session_meets ⟨rfl,⟨rfl,fun _ below => absurd below (Nat.not_lt_zero _)⟩,
    fun _ member => absurd member List.not_mem_nil⟩ refines_init noteLines (by decide +kernel)

end NimrodOS.ShellStore
