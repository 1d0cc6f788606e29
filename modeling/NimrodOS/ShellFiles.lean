import NimrodOS.RamfsHeld
import NimrodOS.Shell
import NimrodOS.VgaColors

/-! The commands `write`, `append` and `cp` of `shell/shell.c`, with the calls that print. -/
namespace NimrodOS.ShellFiles

open Libc Ramfs
open Shell (text)
open Vga (Call printDec)

/-- The string that begins at a pointer. -/
def cstr (s : List Byte) : CString :=
  ⟨s.takeWhile (· ≠ 0),fun member => by simpa using List.mem_takeWhile_imp member⟩

/-- `while (*args && *args != ' ' && i < room) name[i++] = *args++;`, with what is left of `args`. -/
def copyName : Nat → List Byte → List Byte × List Byte
  | 0,args => ([],args)
  | _ + 1,[] => ([],[])
  | room + 1,c :: args =>
    if c ≠ 32 then
      let (name,rest) := copyName room args
      (c :: name,rest)
    else ([],c :: args)

/-- `if (*args == ' ') args++;` -/
def skipSpace : List Byte → List Byte
  | [] => []
  | c :: args => if c = 32 then args else c :: args

/-- Light red on black, and light green again. -/
def inRed (calls : List Call) : List Call := .setColor 12 0 :: calls ++ [.setColor 10 0]

/-- `cmd_write` with the file name taken from the line. -/
def writeText (files : Files) (filename : CString) (args : List Byte) :
    Except Fault (Files × List Call) :=
  if filename.val.length = 0 ∨ args.length = 0 then
    .ok (files,[.print (text "Usage: write <filename> <content>\n")])
  else do
    let (files,n) ← ramfsWrite files filename (fun i => args.getD i 0) (BitVec.ofNat 32 args.length)
    if n < 0 then return (files,inRed [.print (text "Write failed.\n")])
    else return (files,.print (text "Wrote ") :: printDec (BitVec.ofInt 32 n) ++
      [.print (text " bytes to "),.print filename.val,.print (text "\n")])

def cmdWrite (files : Files) (args : CString) : Except Fault (Files × List Call) :=
  let (filename,rest) := copyName 31 (Calc.skipSpaces args.val)
  writeText files (cstr filename) (skipSpace rest)

/-- `cmd_append` with the file name taken from the line. -/
def appendText (files : Files) (filename : CString) (args : List Byte) :
    Except Fault (Files × List Call) :=
  if filename.val.length = 0 ∨ args.length = 0 then
    .ok (files,[.print (text "Usage: append <filename> <text>\n")])
  else do
    let (files,n) ← ramfsAppend files filename (fun i => args.getD i 0) (BitVec.ofNat 32 args.length)
    if n ≥ 0 then do
      let (files,_) ← ramfsAppend files filename (fun i => [(10 : Byte)].getD i 0) 1
      return (files,[.print (text "Appended to "),.print filename.val,.print (text "\n")])
    else return (files,inRed [.print (text "Append failed.\n")])

def cmdAppend (files : Files) (args : CString) : Except Fault (Files × List Call) :=
  let (filename,rest) := copyName 31 (Calc.skipSpaces args.val)
  appendText files (cstr filename) (skipSpace rest)

/-- `cmd_cp` with both names taken from the line. -/
def copyFile (files : Files) (src dst : CString) : Except Fault (Files × List Call) :=
  if src.val.length = 0 ∨ dst.val.length = 0 then
    .ok (files,[.print (text "Usage: cp <source> <dest>\n")])
  else if ramfsExists files src = 0 then
    .ok (files,inRed [.print (text "File not found: "),.print src.val,.print (text "\n")])
  else do
    let (n,buf) ← ramfsRead files src (fun _ => 0) 4096
    if n > 0 then do
      let (files,_) ← ramfsWrite files dst buf (BitVec.ofInt 32 n)
      return (files,[.print (text "Copied "),.print src.val,.print (text " -> "),.print dst.val,
        .print (text "\n")])
    else return (files,[])

def cmdCp (files : Files) (args : CString) : Except Fault (Files × List Call) :=
  let (src,rest) := copyName 31 (Calc.skipSpaces args.val)
  let (dst,_) := copyName 31 (Calc.skipSpaces rest)
  copyFile files (cstr src) (cstr dst)

/-! What is on the line. -/

def word (s : List Byte) : List Byte := s.takeWhile (· ≠ 32)

def firstWord (args : CString) : CString := cstr (word (Calc.skipSpaces args.val))

/-- The text behind the first space that follows the first word. -/
def behindFirst (args : CString) : List Byte :=
  (Calc.skipSpaces args.val).drop ((word (Calc.skipSpaces args.val)).length + 1)

def secondWord (args : CString) : CString := cstr (word (Calc.skipSpaces
  ((Calc.skipSpaces args.val).drop (word (Calc.skipSpaces args.val)).length)))

/-- An error message in red, or how the command is used. -/
inductive Failed : List Call → Prop where
  | red (calls : List Call) : Failed (inRed calls)
  | usage (line : List Byte) (starts : text "Usage: " <+: line) : Failed [.print line]

/-- The message of `cp` about a copy. -/
def Copied (out : List Call) : Prop := .print (text "Copied ") ∈ out

variable {files files' : Files} {args : CString} {name src dst : CString} {s t old : List Byte}
  {out : List Call} {room : Nat}

/-! Words. -/

theorem cstr_val (noNul : 0 ∉ s) : (cstr s).val = s := by
  refine List.takeWhile_eq_self_iff.mpr fun c member => ?_
  exact decide_eq_true fun zero => noNul (zero ▸ member)

theorem copyName_eq (room : Nat) (s : List Byte) :
    copyName room s = ((word s).take room,s.drop (min (word s).length room)) := by
  induction room generalizing s with
  | zero => rw [copyName,List.take_zero,Nat.min_zero,List.drop_zero]
  | succ room ih =>
    cases s with
    | nil => rfl
    | cons c s =>
      rw [copyName,word]
      by_cases blank : c = 32
      · rw [if_neg (not_not.mpr blank),List.takeWhile_cons_of_neg (by simpa using blank)]
        rfl
      · rw [if_pos blank,ih,List.takeWhile_cons_of_pos (by simpa using blank),List.take_succ_cons,
          List.length_cons,Nat.succ_min_succ]
        rfl

theorem skipSpace_behind (s : List Byte) :
    skipSpace (s.drop (word s).length) = s.drop ((word s).length + 1) := by
  induction s with
  | nil => rfl
  | cons c s ih =>
    rw [word]
    by_cases blank : c = 32
    · rw [List.takeWhile_cons_of_neg (by simpa using blank)]
      exact if_pos blank
    · rw [List.takeWhile_cons_of_pos (by simpa using blank)]
      exact ih

/-- Inside of a word there is no space. -/
theorem word_inside (long : room < (word s).length) : ∃ c rest, s.drop room = c :: rest ∧ c ≠ 32 := by
  induction s generalizing room with
  | nil => cases long
  | cons c s ih =>
    rw [word] at long
    by_cases blank : c = 32
    · rw [List.takeWhile_cons_of_neg (by simpa using blank)] at long
      cases long
    · rw [List.takeWhile_cons_of_pos (by simpa using blank)] at long
      cases room with
      | zero => exact ⟨c,s,rfl,blank⟩
      | succ room => exact ih (Nat.lt_of_succ_lt_succ long)

theorem skipSpaces_noNul (args : CString) : 0 ∉ Calc.skipSpaces args.val := fun member =>
  args.property ((List.dropWhile_suffix _).subset member)

theorem firstWord_val (args : CString) : (firstWord args).val = word (Calc.skipSpaces args.val) :=
  cstr_val fun member => skipSpaces_noNul args ((List.takeWhile_prefix _).subset member)

theorem cstr_take (noNul : 0 ∉ s) : cstr (s.take 31) = cut (cstr s) := by
  apply Subtype.ext
  rw [cstr_val fun member => noNul (List.mem_of_mem_take member)]
  exact (congrArg (List.take 31) (cstr_val noNul)).symm

/-- Behind the spaces a line has a first word or nothing. -/
theorem word_nil (blank : word (Calc.skipSpaces s) = []) : Calc.skipSpaces s = [] := by
  have first := List.head?_dropWhile_not (fun c : Byte => c = 32) s
  cases line : Calc.skipSpaces s with
  | nil => rfl
  | cons c rest =>
    rw [Calc.skipSpaces] at line
    rw [line] at first
    rw [Calc.skipSpaces,line,word,List.takeWhile_cons_of_pos (by simpa using first)] at blank
    cases blank

theorem behindFirst_nil (blank : (firstWord args).val = []) : behindFirst args = [] := by
  rw [firstWord_val] at blank
  rw [behindFirst,word_nil blank]
  rfl

theorem secondWord_nil (blank : (firstWord args).val = []) : (secondWord args).val = [] := by
  rw [firstWord_val] at blank
  rw [secondWord,word_nil blank]
  rfl

/-- The name and the text that `write` and `append` work with. -/
theorem taken_short (short : Short (firstWord args)) :
    cstr (copyName 31 (Calc.skipSpaces args.val)).1 = firstWord args ∧
      skipSpace (copyName 31 (Calc.skipSpaces args.val)).2 = behindFirst args := by
  have whole : (word (Calc.skipSpaces args.val)).length ≤ 31 := firstWord_val args ▸ short
  rw [copyName_eq,Nat.min_eq_left whole,List.take_of_length_le whole]
  exact ⟨rfl,skipSpace_behind _⟩

theorem long_word (long : ¬Short (firstWord args)) :
    31 < (word (Calc.skipSpaces args.val)).length ∧ 0 ∉ word (Calc.skipSpaces args.val) :=
  ⟨firstWord_val args ▸ Nat.lt_of_not_le long,firstWord_val args ▸ (firstWord args).property⟩

/-- A longer word is cut, and its end is taken for the text. -/
theorem taken_long (long : ¬Short (firstWord args)) :
    cstr (copyName 31 (Calc.skipSpaces args.val)).1 = cut (firstWord args) ∧
      skipSpace (copyName 31 (Calc.skipSpaces args.val)).2 = (Calc.skipSpaces args.val).drop 31 ∧
      (Calc.skipSpaces args.val).drop 31 ≠ [] := by
  obtain ⟨beyond,noNul⟩ := long_word long
  obtain ⟨c,rest,here,solid⟩ := word_inside beyond
  rw [copyName_eq,Nat.min_eq_right beyond.le,here]
  exact ⟨cstr_take noNul,if_neg solid,List.cons_ne_nil c rest⟩

theorem cut_solid (long : ¬Short name) : (cut name).val ≠ [] := by
  have beyond := Nat.lt_of_not_le long
  intro blank
  have length : (name.val.take 31).length = 0 := congrArg List.length blank
  rw [List.length_take] at length
  omega

theorem behindFirst_length (args : CString) : (behindFirst args).length ≤ args.val.length :=
  (List.drop_sublist _ _).length_le.trans (Calc.skipSpaces_length _)

/-! Messages. -/

theorem failed_cases (failed : Failed out) : out.head? = some (.setColor 12 0) ∨ out.length = 1 := by
  cases failed with
  | red => exact .inl rfl
  | usage => exact .inr rfl

/-- A message that goes on behind its first call is not one about a failure. -/
theorem not_failed {line : List Byte} {calls : List Call} (more : calls ≠ []) :
    ¬Failed (.print line :: calls) := by
  intro failed
  rcases failed_cases failed with red | single
  · cases red
  · exact more (List.eq_nil_of_length_eq_zero (Nat.succ.inj single))

theorem failed_usage {line : List Byte} (starts : text "Usage: " <+: line) : Failed [.print line] :=
  .usage line starts

/-! The commands behind their names. -/

theorem bytesAt_string (s : List Byte) : bytesAt (fun i => s.getD i 0) s.length = s := by
  apply List.ext_getElem
  · exact bytesAt_length
  · intro i left right
    simp only [bytesAt,List.getElem_map,List.getElem_range]
    exact List.getD_eq_getElem _ _ right

/-- What does not fit is lost, whenever it is appended. -/
theorem take_take_append (n : Nat) (s t : List Byte) : (s.take n ++ t).take n = (s ++ t).take n := by
  have left : n - min n s.length = n - s.length := by omega
  rw [List.take_append,List.take_append,List.take_take,Nat.min_self,List.length_take,left]

/-- A short string is written and appended with its own length. -/
theorem bytesAt_short (small : s.length ≤ 4096) :
    bytesAt (fun i => s.getD i 0) (BitVec.ofNat 32 s.length).toNat = s := by
  have length : (BitVec.ofNat 32 s.length).toNat = s.length := by
    rw [BitVec.toNat_ofNat]
    omega
  rw [length]
  exact bytesAt_string s

theorem writeText_blank (files : Files) (blank : name.val = [] ∨ t = []) :
    ∃ out, writeText files name t = .ok (files,out) ∧ Failed out := by
  have zero : name.val.length = 0 ∨ t.length = 0 := blank.imp (congrArg _) (congrArg _)
  rw [writeText,if_pos zero]
  exact ⟨_,rfl,failed_usage (by decide)⟩

theorem writeText_refused (some' : name.val ≠ [] ∧ t ≠ []) (full : ¬Room files name) :
    ∃ out, writeText files name t = .ok (files,out) ∧ Failed out := by
  have solid : ¬(name.val.length = 0 ∨ t.length = 0) := by simpa using some'
  rw [writeText,if_neg solid,write_refused full]
  exact ⟨_,rfl,.red _⟩

theorem writeText_room (fit : SizesFit files) (short : Short name) (room : Room files name)
    (some' : name.val ≠ [] ∧ t ≠ []) (small : t.length ≤ 4096) :
    ∃ files' out, writeText files name t = .ok (files',out) ∧ ¬Failed out ∧
      held files' = Function.update (held files) name (some t) := by
  have solid : ¬(name.val.length = 0 ∨ t.length = 0) := by simpa using some'
  obtain ⟨files',done,-,holds⟩ := write_held fit short room (fun i => t.getD i 0)
    (BitVec.ofNat 32 t.length)
  have written : ¬((min (BitVec.ofNat 32 t.length).toNat 4096 : Nat) : Int) < 0 := by omega
  rw [bytesAt_short small,List.take_of_length_le small] at holds
  rw [writeText,if_neg solid,done]
  simp only [bind,Except.bind,if_neg written]
  exact ⟨files',_,rfl,not_failed (List.append_ne_nil_of_right_ne_nil _ (List.cons_ne_nil _ _)),holds⟩

theorem appendText_blank (files : Files) (blank : name.val = [] ∨ t = []) :
    ∃ out, appendText files name t = .ok (files,out) ∧ Failed out := by
  have zero : name.val.length = 0 ∨ t.length = 0 := blank.imp (congrArg _) (congrArg _)
  rw [appendText,if_pos zero]
  exact ⟨_,rfl,failed_usage (by decide)⟩

theorem appendText_refused (some' : name.val ≠ [] ∧ t ≠ []) (absent : held files name = none) :
    ∃ out, appendText files name t = .ok (files,out) ∧ Failed out := by
  have solid : ¬(name.val.length = 0 ∨ t.length = 0) := by simpa using some'
  rw [appendText,if_neg solid,append_refused absent]
  exact ⟨_,rfl,.red _⟩

theorem appendText_held (fit : SizesFit files) (old' : held files name = some old)
    (some' : name.val ≠ [] ∧ t ≠ []) (small : t.length ≤ 4096) :
    ∃ files' out, appendText files name t = .ok (files',out) ∧ ¬Failed out ∧
      held files' = Function.update (held files) name (some ((old ++ t ++ [10]).take 4096)) := by
  have solid : ¬(name.val.length = 0 ∨ t.length = 0) := by simpa using some'
  obtain ⟨middle,n,done,positive,fit',holds⟩ := append_held fit old' (fun i => t.getD i 0)
    (BitVec.ofNat 32 t.length)
  rw [bytesAt_short small] at holds
  have old'' : held middle name = some ((old ++ t).take 4096) := by rw [holds,Function.update_self]
  obtain ⟨files',_,done',-,-,holds'⟩ := append_held fit' old'' (fun i => [(10 : Byte)].getD i 0) 1
  have newline : bytesAt (fun i => [(10 : Byte)].getD i 0) (1 : Word).toNat = [10] := rfl
  rw [newline,take_take_append,holds,Function.update_idem] at holds'
  rw [appendText,if_neg solid,done]
  simp only [bind,Except.bind,if_pos positive,done']
  exact ⟨files',_,rfl,not_failed (List.cons_ne_nil _ _),holds'⟩

theorem copyFile_blank (files : Files) (blank : src.val = [] ∨ dst.val = []) :
    ∃ out, copyFile files src dst = .ok (files,out) ∧ Failed out ∧ ¬Copied out := by
  have zero : src.val.length = 0 ∨ dst.val.length = 0 := blank.imp (congrArg _) (congrArg _)
  rw [copyFile,if_pos zero]
  exact ⟨_,rfl,failed_usage (by decide),by unfold Copied; simp; decide⟩

theorem copyFile_missing (some' : src.val ≠ [] ∧ dst.val ≠ []) (absent : held files src = none) :
    ∃ out, copyFile files src dst = .ok (files,out) ∧ Failed out := by
  have solid : ¬(src.val.length = 0 ∨ dst.val.length = 0) := by simpa using some'
  rw [copyFile,if_neg solid,if_pos (exists_iff.mpr absent)]
  exact ⟨_,rfl,.red _⟩

/-- An empty source is read, and nothing else happens. -/
theorem copyFile_empty (fit : SizesFit files) (some' : src.val ≠ [] ∧ dst.val ≠ [])
    (empty : held files src = some []) : copyFile files src dst = .ok (files,[]) := by
  have solid : ¬(src.val.length = 0 ∨ dst.val.length = 0) := by simpa using some'
  have present : ¬ramfsExists files src = 0 := by
    rw [exists_iff,empty]
    exact Option.some_ne_none []
  rw [copyFile,if_neg solid,if_neg present,read_held fit empty]
  rfl

/-- What is read from the source is written, with or without success. -/
theorem copyFile_bytes (fit : SizesFit files) (some' : src.val ≠ [] ∧ dst.val ≠ [])
    (source : held files src = some s) (bytes : s ≠ []) (short : Short dst) :
    ∃ files' out, copyFile files src dst = .ok (files',out) ∧ Copied out ∧ ¬Failed out ∧
      (Room files dst → held files' = Function.update (held files) dst (some s)) ∧
      (¬Room files dst → files' = files) := by
  have solid : ¬(src.val.length = 0 ∨ dst.val.length = 0) := by simpa using some'
  have present : ¬ramfsExists files src = 0 := by
    rw [exists_iff,source]
    exact Option.some_ne_none s
  have bound := held_length source
  have positive := List.length_pos_iff.mpr bytes
  have all : min s.length (4096 : Word).toNat = s.length := Nat.min_eq_left bound
  have whole : s.take (4096 : Word).toNat = s := List.take_of_length_le bound
  have size : BitVec.ofInt 32 (s.length : Int) = BitVec.ofNat 32 s.length := BitVec.ofInt_natCast ..
  have front : bytesAt (overlay (fun _ => 0) s) (BitVec.ofNat 32 s.length).toNat = s := bytesAt_short bound
  rw [copyFile,if_neg solid,if_neg present,read_held fit source,all,whole]
  simp only [bind,Except.bind,if_pos (show (s.length : Int) > 0 by omega),size]
  by_cases room : Room files dst
  · obtain ⟨files',done,-,holds⟩ := write_held fit short room (overlay (fun _ => 0) s)
      (BitVec.ofNat 32 s.length)
    rw [front,List.take_of_length_le bound] at holds
    rw [done]
    exact ⟨files',_,rfl,List.mem_cons_self,not_failed (List.cons_ne_nil _ _),fun _ => holds,
      fun full => absurd room full⟩
  · rw [write_refused room]
    exact ⟨files,_,rfl,List.mem_cons_self,not_failed (List.cons_ne_nil _ _),fun some' => absurd some' room,
      fun _ => rfl⟩

/-! Copies. -/

theorem secondWord_noNul (args : CString) : 0 ∉ word (Calc.skipSpaces
    ((Calc.skipSpaces args.val).drop (word (Calc.skipSpaces args.val)).length)) := by
  intro member
  have inside := (List.dropWhile_suffix _).subset ((List.takeWhile_prefix _).subset member)
  exact skipSpaces_noNul args (List.mem_of_mem_drop inside)

theorem cmdCp_short (short : Short (firstWord args)) :
    cmdCp files args = copyFile files (firstWord args) (cut (secondWord args)) := by
  have whole : (word (Calc.skipSpaces args.val)).length ≤ 31 := firstWord_val args ▸ short
  unfold cmdCp
  simp only [copyName_eq,Nat.min_eq_left whole,List.take_of_length_le whole,
    cstr_take (secondWord_noNul args)]
  rfl

/-- A long first word is cut, and its end is taken for the destination. -/
theorem cmdCp_long (files : Files) (long : ¬Short (firstWord args)) : ∃ dst, dst.val ≠ [] ∧ Short dst ∧
    cmdCp files args = copyFile files (cut (firstWord args)) dst := by
  obtain ⟨beyond,noNul⟩ := long_word long
  obtain ⟨c,rest,here,solid⟩ := word_inside beyond
  have skipped : Calc.skipSpaces (c :: rest) = c :: rest :=
    List.dropWhile_cons_of_neg (by simpa using solid)
  have inside : word (c :: rest) = c :: word rest := List.takeWhile_cons_of_pos (by simpa using solid)
  have clean : 0 ∉ c :: word rest := by
    intro member
    rw [← inside] at member
    have member := (List.takeWhile_prefix _).subset member
    rw [← here] at member
    exact skipSpaces_noNul args (List.mem_of_mem_drop member)
  refine ⟨cut (cstr (c :: word rest)),?_,cut_short,?_⟩
  · rw [← cstr_take clean,cstr_val fun member => clean (List.mem_of_mem_take member)]
    exact List.cons_ne_nil _ _
  · unfold cmdCp
    simp only [copyName_eq,Nat.min_eq_right beyond.le,here,skipped,inside,cstr_take noNul,cstr_take clean]
    rfl

/-- The destination gets the contents of the source, or a failure is reported and no copy; no
other file changes. -/
structure Copies (files : Files) (src dst : CString) (files' : Files) (out : List Call) : Prop where
  outcome : (∃ s, held files src = some s ∧ held files' dst = some s) ∨ (Failed out ∧ ¬Copied out)
  others : ∀ other, other ≠ dst → held files' other = held files other

/-- The copy is as it should be, just when a name is missing, when there is something to copy and
room for it, or when there is nothing to copy and the destination is empty already. -/
theorem copies_iff (fit : SizesFit files) (source : held files (firstWord args) = some s)
    (short : Short (firstWord args)) (short' : Short (secondWord args)) :
    ∃ files' out, cmdCp files args = .ok (files',out) ∧
      (Copies files (firstWord args) (secondWord args) files' out ↔
        ((firstWord args).val = [] ∨ (secondWord args).val = []) ∨
        (s ≠ [] ∧ Room files (secondWord args)) ∨
        (s = [] ∧ held files (secondWord args) = some [])) := by
  rw [cmdCp_short short,cut_of_short short']
  by_cases blank : (firstWord args).val = [] ∨ (secondWord args).val = []
  · obtain ⟨out,done,failed,quiet⟩ := copyFile_blank files blank
    exact ⟨files,out,done,iff_of_true ⟨.inr ⟨failed,quiet⟩,fun _ _ => rfl⟩ (.inl blank)⟩
  have some' := not_or.mp blank
  rw [or_iff_right blank]
  by_cases empty : s = []
  · subst empty
    refine ⟨files,[],copyFile_empty fit some' source,?_⟩
    rw [or_iff_right fun both => both.1 rfl,and_iff_right rfl]
    constructor
    · rintro ⟨⟨s,source',same⟩ | ⟨failed,-⟩,-⟩
      · rw [same,← source',source]
      · rcases failed_cases failed with red | single
        · cases red
        · cases single
    · intro same
      exact ⟨.inl ⟨[],source,same⟩,fun _ _ => rfl⟩
  · obtain ⟨files',out,done,copied,quiet,holds,kept⟩ := copyFile_bytes fit some' source empty short'
    refine ⟨files',out,done,?_⟩
    rw [or_iff_left fun both => empty both.1,and_iff_right empty]
    constructor
    · rintro ⟨⟨s',source',same⟩ | ⟨failed,-⟩,-⟩
      · by_contra full
        rw [kept full] at same
        exact full (.inl (by rw [same]; exact Option.some_ne_none s'))
      · exact absurd failed quiet
    · intro room
      refine ⟨.inl ⟨s,source,by rw [holds room,Function.update_self]⟩,fun other apart => ?_⟩
      rw [holds room,Function.update_of_ne apart]

/-- A table with the file `a`, which has this size. -/
def oneFile (size : Word) : Files :=
  setFile ramfsInit 0 {createdFile clearedFile (cstr [97]) with data := fun _ => 104,size := size}

def copyLine : CString := ⟨text "a b",by decide⟩

theorem copies_iff_note : ∃ files' out, cmdCp (oneFile 2) copyLine = .ok (files',out) ∧
    (Copies (oneFile 2) (firstWord copyLine) (secondWord copyLine) files' out ↔
      ((firstWord copyLine).val = [] ∨ (secondWord copyLine).val = []) ∨
      ([104,104] ≠ ([] : List Byte) ∧ Room (oneFile 2) (secondWord copyLine)) ∨
      ([104,104] = ([] : List Byte) ∧ held (oneFile 2) (secondWord copyLine) = some [])) :=
  copies_iff (setFile_fits ramfsInit_fits (by decide)) (by decide +kernel) (by decide) (by decide)

/-- An empty file is not copied, and nothing is said about it. -/
theorem empty_not_copied : cmdCp (oneFile 0) copyLine = .ok (oneFile 0,[]) ∧
    ¬Copies (oneFile 0) (firstWord copyLine) (secondWord copyLine) (oneFile 0) [] := by
  have source : held (oneFile 0) (firstWord copyLine) = some [] := by decide +kernel
  have absent : held (oneFile 0) (secondWord copyLine) = none := by decide +kernel
  constructor
  · rw [cmdCp_short (by decide),cut_of_short (by decide)]
    exact copyFile_empty (setFile_fits ramfsInit_fits (by decide)) (by decide) source
  · rintro ⟨⟨s,-,same⟩ | ⟨failed,-⟩,-⟩
    · rw [absent] at same
      cases same
    · rcases failed_cases failed with red | single
      · cases red
      · cases single

end NimrodOS.ShellFiles
