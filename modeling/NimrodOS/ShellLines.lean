import NimrodOS.Lib.Lines
import NimrodOS.ShellFiles

/-! The commands `head` and `tail` of `shell/shell.c`. -/
namespace NimrodOS.ShellFiles

open Libc Ramfs Lines
open Shell (text)
open Vga (Call)

def skip (args : CString) : CString := ⟨Calc.skipSpaces args.val,skipSpaces_noNul args⟩

def notFound (name : CString) : List Call :=
  inRed [.print (text "File not found: "),.print name.val,.print (text "\n")]

/-- The loop of `cmd_head`: what is put and the final `lines`. -/
def headLoop (lines : Nat) : List Byte → List Byte × Nat
  | [] => ([],lines)
  | c :: s =>
    if lines < 10 then
      let (out,last) := headLoop (if c = 10 then lines + 1 else lines) s
      (c :: out,last)
    else ([],lines)

def cmdHead (files : Files) (args : CString) : Except Fault (List Call) :=
  let args := skip args
  if ramfsExists files args = 0 then .ok (notFound args)
  else do
    let (n,buf) ← ramfsRead files args (fun _ => 0) 4096
    if n ≤ 0 then return []
    else
      let (out,lines) := headLoop 0 (bytesAt buf n.toNat)
      return .setColor 15 0 :: out.map .putchar ++
        (if lines = 0 ∨ buf (n.toNat - 1) ≠ 10 then [.putchar 10] else []) ++ [.setColor 10 0]

/-- The second loop of `cmd_tail`. -/
def tailLoop (skip lines : Nat) : List Byte → List Byte
  | [] => []
  | c :: s =>
    let rest := tailLoop skip (if c = 10 then lines + 1 else lines) s
    if lines ≥ skip then c :: rest else rest

def cmdTail (files : Files) (args : CString) : Except Fault (List Call) :=
  let args := skip args
  if ramfsExists files args = 0 then .ok (notFound args)
  else do
    let (n,buf) ← ramfsRead files args (fun _ => 0) 4096
    if n ≤ 0 then return []
    else
      let read := bytesAt buf n.toNat
      let total := read.count 10
      let skip := if total > 10 then total - 10 else 0
      return .setColor 15 0 :: (tailLoop skip 0 read).map .putchar ++
        (if buf (n.toNat - 1) ≠ 10 then [.putchar 10] else []) ++ [.setColor 10 0]

/-- The bytes that calls print. -/
def printed (calls : List Call) : List Byte := calls.flatMap fun call =>
  match call with
  | .setColor _ _ => []
  | .putchar c => [c]
  | .print str | .printColor str _ _ => str.takeWhile (· ≠ 0)

/-- The first ten lines. -/
def firstLines (s : List Byte) : List Byte := ended 10 ((lines 10 s).take 10)

/-- The last ten lines. -/
def lastLines (s : List Byte) : List Byte := ended 10 ((lines 10 s).drop ((lines 10 s).length - 10))

variable {files : Files} {args : CString} {s : List Byte} {n k : Nat}

theorem printed_append (first second : List Call) : printed (first ++ second) = printed first ++ printed second :=
  List.flatMap_append

theorem printed_putchars (s : List Byte) : printed (s.map .putchar) = s := by
  rw [printed,List.flatMap_map]
  exact List.flatMap_singleton' s

/-- Text in white and, perhaps, a newline. -/
theorem printed_white (s : List Byte) (p : Prop) [Decidable p] : printed (.setColor 15 0 :: s.map .putchar ++
    (if p then [.putchar 10] else []) ++ [.setColor 10 0]) = s ++ if p then [10] else [] := by
  rw [← List.singleton_append,printed_append,printed_append,printed_append,printed_putchars]
  split_ifs <;> simp [printed]

/-! The loops. -/

theorem headLoop_eq (few : n + k = 10) (s : List Byte) :
    headLoop n s = (takeLines 10 k s,min 10 (n + s.count 10)) := by
  induction s generalizing n k with
  | nil =>
    rw [headLoop]
    cases k with
    | zero => exact Prod.ext rfl (by simp; omega)
    | succ k => exact Prod.ext rfl (by simp; omega)
  | cons c s ih =>
    rw [headLoop]
    cases k with
    | zero =>
      rw [if_neg (by omega)]
      exact Prod.ext rfl (by simp; omega)
    | succ k =>
      rw [if_pos (by omega),takeLines]
      by_cases newline : c = 10
      · subst newline
        rw [if_pos rfl,if_pos rfl,ih (by omega : n + 1 + k = 10),List.count_cons_self]
        exact Prod.ext rfl (by simp; omega)
      · rw [if_neg newline,if_neg newline,ih few,List.count_cons_of_ne newline]

theorem tailLoop_eq (skip n : Nat) (s : List Byte) : tailLoop skip n s = dropLines 10 (skip - n) s := by
  induction s generalizing n with
  | nil =>
    rw [tailLoop]
    cases skip - n <;> rfl
  | cons c s ih =>
    rw [tailLoop,ih]
    by_cases shown : n ≥ skip
    · rw [if_pos shown,Nat.sub_eq_zero_of_le shown,dropLines]
      by_cases newline : c = 10
      · rw [if_pos newline,Nat.sub_eq_zero_of_le (by omega),dropLines]
      · rw [if_neg newline,Nat.sub_eq_zero_of_le shown,dropLines]
    · obtain ⟨k,left⟩ := Nat.exists_eq_succ_of_ne_zero (show skip - n ≠ 0 by omega)
      rw [if_neg shown,left,dropLines]
      by_cases newline : c = 10
      · rw [if_pos newline,if_pos newline]
        congr 1
        omega
      · rw [if_neg newline,if_neg newline,left]

/-! What is printed. -/

theorem closed_iff (some' : s ≠ []) : Closed 10 s ↔ s.getLast? = some 10 := or_iff_right some'

/-- A buffer of 4096 bytes takes in the whole file. -/
theorem read_whole (fit : SizesFit files) {name : CString} (file : held files name = some s)
    (buf : Nat → Byte) : ramfsRead files name buf 4096 = .ok ((s.length : Int),overlay buf s) := by
  have bound := held_length file
  have all : min s.length (4096 : Word).toNat = s.length := Nat.min_eq_left bound
  have whole : s.take (4096 : Word).toNat = s := List.take_of_length_le bound
  rw [read_held fit file,all,whole]

/-- The buffer after the file was read. -/
theorem read_bytes (fit : SizesFit files) {name : CString} (file : held files name = some s) :
    ∃ buf, ramfsRead files name (fun _ => 0) 4096 = .ok ((s.length : Int),buf) ∧
      bytesAt buf s.length = s ∧ (s ≠ [] → (buf (s.length - 1) ≠ 10 ↔ ¬Closed 10 s)) := by
  refine ⟨overlay (fun _ => 0) s,read_whole fit file _,bytesAt_string s,fun some' => ?_⟩
  have inside : s.length - 1 < s.length := Nat.sub_lt (List.length_pos_iff.mpr some') Nat.one_pos
  rw [closed_iff some',List.getLast?_eq_getElem?,List.getElem?_eq_getElem inside,overlay,
    List.getD_eq_getElem _ _ inside,Option.some_inj]

theorem exists_held {name : CString} (file : held files name = some s) : ¬ramfsExists files name = 0 := by
  rw [exists_iff,file]
  exact Option.some_ne_none s

theorem cmdHead_prints (fit : SizesFit files) (file : held files (skip args) = some s) (some' : s ≠ []) :
    ∃ out, cmdHead files args = .ok out ∧
      printed out = takeLines 10 10 s ++ if Closed 10 s then [] else [10] := by
  obtain ⟨buf,read,bytes,last⟩ := read_bytes fit file
  have positive := List.length_pos_iff.mpr some'
  have open' : (min 10 (0 + s.count 10) = 0 ∨ buf (s.length - 1) ≠ 10) ↔ ¬Closed 10 s := by
    rw [last some',or_iff_right_of_imp]
    intro none closed
    have member := List.mem_of_getLast? ((closed_iff some').mp closed)
    have more := List.count_pos_iff.mpr member
    omega
  unfold cmdHead
  rw [if_neg (exists_held file),read]
  simp only [bind,Except.bind,if_neg (show ¬(s.length : Int) ≤ 0 by omega),Int.toNat_natCast,bytes,
    headLoop_eq (show 0 + 10 = 10 from rfl),open']
  exact ⟨_,rfl,by rw [printed_white,ite_not]⟩

theorem cmdTail_prints (fit : SizesFit files) (file : held files (skip args) = some s) (some' : s ≠ []) :
    ∃ out, cmdTail files args = .ok out ∧
      printed out = dropLines 10 (s.count 10 - 10) s ++ if Closed 10 s then [] else [10] := by
  obtain ⟨buf,read,bytes,last⟩ := read_bytes fit file
  have positive := List.length_pos_iff.mpr some'
  have skipped : (if s.count 10 > 10 then s.count 10 - 10 else 0) - 0 = s.count 10 - 10 := by
    split_ifs <;> omega
  unfold cmdTail
  rw [if_neg (exists_held file),read]
  simp only [bind,Except.bind,if_neg (show ¬(s.length : Int) ≤ 0 by omega),Int.toNat_natCast,bytes,
    tailLoop_eq,skipped,last some']
  exact ⟨_,rfl,by rw [printed_white,ite_not]⟩

/-! Lines. -/

theorem few_lines (few : s.count 10 < 10) : (lines 10 s).length ≤ 10 := by
  rw [lines_length]
  split_ifs <;> omega

theorem closing (s : List Byte) : (s ++ if Closed 10 s then [] else [10]) = ended 10 (lines 10 s) := by
  rw [ended_lines]
  split_ifs
  · exact List.append_nil s
  · rfl

/-- Behind the tenth newline the newline at the end is one too many. -/
theorem head_iff (s : List Byte) : (takeLines 10 10 s ++ if Closed 10 s then [] else [10]) = firstLines s ↔
    s.count 10 < 10 ∨ Closed 10 s := by
  rw [takeLines_eq,firstLines]
  by_cases few : s.count 10 < 10
  · rw [if_neg (Nat.not_le.mpr few),closing,List.take_of_length_le (few_lines few)]
    exact iff_of_true rfl (.inl few)
  · rw [if_pos (Nat.le_of_not_lt few),or_iff_right few]
    by_cases closed : Closed 10 s
    · rw [if_pos closed,List.append_nil]
      exact iff_of_true rfl closed
    · rw [if_neg closed]
      refine iff_of_false (fun same => ?_) closed
      exact List.cons_ne_nil _ _ (List.append_right_eq_self.mp same)

/-- A last line without a newline is one more than the newlines that are counted. -/
theorem tail_iff (s : List Byte) :
    (dropLines 10 (s.count 10 - 10) s ++ if Closed 10 s then [] else [10]) = lastLines s ↔
      s.count 10 < 10 ∨ Closed 10 s := by
  have total := lines_length 10 s
  have clean : ∀ k, ∀ l ∈ (lines 10 s).drop k, 10 ∉ l := fun k l member =>
    not_mem_lines (List.mem_of_mem_drop member)
  have ending : Closed 10 (dropLines 10 (s.count 10 - 10) s) ↔ Closed 10 s :=
    closed_dropLines (Nat.sub_le (s.count 10) 10)
  simp only [← ending]
  rw [closing,lines_dropLines,lastLines,ending]
  constructor
  · intro same
    have counts := congrArg (List.count 10) same
    rw [count_ended (clean _),count_ended (clean _),List.length_drop,List.length_drop,total] at counts
    by_contra both
    obtain ⟨many,rest⟩ := not_or.mp both
    rw [if_neg rest] at counts
    omega
  · intro enough
    have place : s.count 10 - 10 = (lines 10 s).length - 10 := by
      rw [total]
      split_ifs with closed
      · rfl
      · have few := enough.resolve_right closed
        omega
    rw [place]

/-- `head` and `tail` print the lines that they should, just when there are fewer than ten newlines
or the last line has one. -/
theorem lines_selected_iff (fit : SizesFit files) (file : held files (skip args) = some s) (some' : s ≠ []) :
    (∃ out, cmdHead files args = .ok out ∧
      (printed out = firstLines s ↔ s.count 10 < 10 ∨ s.getLast? = some 10)) ∧
    ∃ out, cmdTail files args = .ok out ∧
      (printed out = lastLines s ↔ s.count 10 < 10 ∨ s.getLast? = some 10) := by
  obtain ⟨head,done,first⟩ := cmdHead_prints fit file some'
  obtain ⟨tail,done',last⟩ := cmdTail_prints fit file some'
  rw [← closed_iff some']
  exact ⟨⟨head,done,by rw [first,head_iff]⟩,tail,done',by rw [last,tail_iff]⟩

theorem lines_selected_note :
    (∃ out, cmdHead (oneFile 2) (cstr [97]) = .ok out ∧ (printed out = firstLines [104,104] ↔
      ([104,104] : List Byte).count 10 < 10 ∨ ([104,104] : List Byte).getLast? = some 10)) ∧
    ∃ out, cmdTail (oneFile 2) (cstr [97]) = .ok out ∧ (printed out = lastLines [104,104] ↔
      ([104,104] : List Byte).count 10 < 10 ∨ ([104,104] : List Byte).getLast? = some 10) :=
  lines_selected_iff (setFile_fits ramfsInit_fits (by decide)) (by decide +kernel) (by decide)

/-- Ten empty lines and a last one without a newline. -/
def elevenLines : List Byte := List.replicate 10 10 ++ [104]

/-- A table with the file `a`, which holds these bytes. -/
def fileOf (bytes : List Byte) : Files := fun i =>
  {oneFile (BitVec.ofNat 32 bytes.length) i with data := fun i => bytes.getD i 0}

/-- Of eleven lines `head` prints a newline too many, and `tail` prints all. -/
theorem eleven_lines : (∃ out, cmdHead (fileOf elevenLines) (cstr [97]) = .ok out ∧
      printed out ≠ firstLines elevenLines) ∧
    ∃ out, cmdTail (fileOf elevenLines) (cstr [97]) = .ok out ∧ printed out ≠ lastLines elevenLines := by
  have one : SizesFit (oneFile (BitVec.ofNat 32 elevenLines.length)) := setFile_fits ramfsInit_fits (by decide)
  have fit : SizesFit (fileOf elevenLines) := one
  have file : held (fileOf elevenLines) (skip (cstr [97])) = some elevenLines := by decide +kernel
  have many : ¬(elevenLines.count 10 < 10 ∨ Closed 10 elevenLines) := by decide
  obtain ⟨head,done,first⟩ := cmdHead_prints fit file (by decide)
  obtain ⟨tail,done',last⟩ := cmdTail_prints fit file (by decide)
  refine ⟨⟨head,done,?_⟩,tail,done',?_⟩
  · rw [first,Ne,head_iff]
    exact many
  · rw [last,Ne,tail_iff]
    exact many

end NimrodOS.ShellFiles
