import NimrodOS.EditorSaves
import NimrodOS.ShellFiles

/-! The text of a session of `cmd_edit` in `shell/shell.c`, from the file to the file. The lines are
taken as `editor_wait_line` delivers them. -/
namespace NimrodOS.EditorSaves

open Libc Ramfs
open Shell (text)
open ShellFiles (oneFile cstr bytesAt_short)

/-- What the loop of `cmd_edit` makes of a line. -/
inductive Next where
  | quit
  | save (quit : Bool)
  | loop (content : List Byte)

def lookAt (content line : List Byte) : Next :=
  if strcmp line (text ":q") = 0 then .quit
  else if strcmp line (text ":w") = 0 then .save false
  else if strcmp line (text ":wq") = 0 then .save true
  else .loop (addLine content line)

def save (files : Files) (name : CString) (content : List Byte) : Except Fault Files :=
  (ramfsWrite files name (fun i => content.getD i 0) (BitVec.ofNat 32 content.length)).map Prod.fst

/-- The loop, as long as lines are delivered. -/
def editLoop (name : CString) : Files → List Byte → List (List Byte) → Except Fault Files
  | files,_,[] => .ok files
  | files,content,line :: lines =>
    match lookAt content line with
    | .quit => .ok files
    | .save true => save files name content
    | .save false => do
      let files ← save files name content
      editLoop name files content lines
    | .loop content => editLoop name files content lines

def cmdEdit (files : Files) (name : CString) (lines : List (List Byte)) : Except Fault Files := do
  let content ← loadFile files name
  editLoop name files content lines

/-- The steps of a session look at their lines in the same way. -/
theorem takeLine_next (s : System) (e : Edit) (line : List Byte) : takeLine s e line =
    match lookAt e.content line with
    | .quit => leave s
    | .save quit => .ok (goTo s e (.save quit))
    | .loop content => .ok (goTo s {e with content := content} .loop) := by
  unfold takeLine lookAt
  split_ifs <;> rfl

/-! What should become of the text. -/

/-- A line that fits in the file goes behind the text, and another one is rejected. -/
def addedLine (content line : List Byte) : List Byte :=
  if content.length + line.length + 1 ≤ 4096 then content ++ line ++ [10] else content

def editedText (s : List Byte) (lines : List (List Byte)) : List Byte := lines.foldl addedLine s

/-- The line is no command of the editor. -/
def Text (line : List Byte) : Prop := line ≠ text ":q" ∧ line ≠ text ":w" ∧ line ≠ text ":wq"

variable {files files' : Files} {name : CString} {s content line : List Byte} {lines : List (List Byte)}

/-- Lines that fit are all added. -/
theorem editedText_fits (fits : (s ++ lines.flatMap (· ++ [10])).length ≤ 4096) :
    editedText s lines = s ++ lines.flatMap (· ++ [10]) := by
  induction lines generalizing s with
  | nil => exact (List.append_nil s).symm
  | cons line lines ih =>
    have whole : s ++ (line :: lines).flatMap (· ++ [10]) = s ++ line ++ [10] ++ lines.flatMap (· ++ [10]) := by
      simp
    rw [whole] at fits ⊢
    have first : s.length + line.length + 1 ≤ 4096 := by
      simp only [List.length_append,List.length_singleton] at fits
      omega
    rw [editedText,List.foldl_cons,addedLine,if_pos first]
    exact ih fits

/-! What becomes of it. -/

theorem addLine_length (fits : content.length ≤ 4095) (line : List Byte) :
    (addLine content line).length ≤ 4095 := by
  unfold addLine
  split_ifs with room
  · simp only [List.length_append,List.length_singleton]
    omega
  · exact fits

/-- The buffer of `cmd_edit` keeps a byte for its terminator. -/
theorem foldl_length (fits : content.length ≤ 4095) (lines : List (List Byte)) :
    (lines.foldl addLine content).length ≤ 4095 := by
  induction lines generalizing content with
  | nil => exact fits
  | cons line lines ih => exact ih (addLine_length fits line)

theorem addedLine_length (content line : List Byte) : content.length ≤ (addedLine content line).length := by
  unfold addedLine
  split_ifs
  · simp only [List.length_append]
    omega
  · exact Nat.le_refl _

theorem editedText_length (s : List Byte) (lines : List (List Byte)) :
    s.length ≤ (editedText s lines).length := by
  induction lines generalizing s with
  | nil => exact Nat.le_refl _
  | cons line lines ih => exact (addedLine_length s line).trans (ih (addedLine s line))

/-- As long as the file is not filled to its end, both rules add the same lines. -/
theorem foldl_eq (small : (editedText s lines).length < 4096) : lines.foldl addLine s = editedText s lines := by
  induction lines generalizing s with
  | nil => rfl
  | cons line lines ih =>
    have after := editedText_length (addedLine s line) lines
    have same : addLine s line = addedLine s line := by
      have less : (addedLine s line).length < 4096 := after.trans_lt small
      unfold addLine addedLine at *
      split_ifs at * with strict room
      · rfl
      · omega
      · simp only [List.length_append,List.length_singleton] at less
        omega
      · rfl
    rw [List.foldl_cons,same]
    exact ih small

/-- The file is read without its last byte if that is the 4096th. -/
theorem loadFile_held (fit : SizesFit files) (file : held files name = some s) :
    loadFile files name = .ok (s.take 4095) := by
  have present : ramfsExists files name ≠ 0 := fun missing => by
    rw [exists_iff.mp missing] at file
    cases file
  have length : (s.take 4095).length = min s.length 4095 := by
    rw [List.length_take,Nat.min_comm]
  have bytes : (List.range (min s.length 4095)).map (overlay (fun _ => 0) (s.take 4095)) = s.take 4095 := by
    rw [← length]
    exact ShellFiles.bytesAt_string (s.take 4095)
  rw [loadFile,if_neg present,read_held fit file]
  refine congrArg Except.ok ?_
  rw [if_neg (Int.not_lt.mpr (Int.natCast_nonneg _)),Int.toNat_natCast]
  exact bytes

/-- `:wq` writes the text to the file. -/
theorem save_held (fit : SizesFit files) (file : held files name = some s) (small : content.length ≤ 4095) :
    ∃ files', save files name content = .ok files' ∧
      held files' = Function.update (held files) name (some content) := by
  obtain ⟨i,found,-⟩ := held_slot file
  obtain ⟨files',result,-,holds⟩ := writeFile_held fit found (fun i => content.getD i 0)
    (BitVec.ofNat 32 content.length)
  refine ⟨files',?_,?_⟩
  · rw [save,ramfsWrite,found]
    simp only [result]
    rfl
  · rw [holds,bytesAt_short (small.trans (by decide)),List.take_of_length_le (small.trans (by decide))]

/-- A line of text is no command, so that it is added. -/
theorem lookAt_text (proper : Text line) (noNul : 0 ∉ line) : lookAt content line = .loop (addLine content line) := by
  obtain ⟨quit,write,both⟩ := proper
  have apart {command : List Byte} (string : 0 ∉ command) (other : line ≠ command) : ¬strcmp line command = 0 :=
    fun equal => other ((strcmp_eq_zero noNul string).mp equal)
  rw [lookAt,if_neg (apart (by decide) quit),if_neg (apart (by decide) write),if_neg (apart (by decide) both)]

theorem editLoop_text (proper : ∀ line ∈ lines, Text line ∧ 0 ∉ line) :
    editLoop name files content (lines ++ [text ":wq"]) = save files name (lines.foldl addLine content) := by
  induction lines generalizing content with
  | nil => rfl
  | cons line lines ih =>
    obtain ⟨plain,noNul⟩ := proper line List.mem_cons_self
    rw [List.cons_append,editLoop,lookAt_text plain noNul]
    exact ih fun line member => proper line (List.mem_cons_of_mem _ member)

/-- A file that holds one byte throughout. -/
theorem contents_same {f : RamfsFile} {c : Byte} (same : f.data = fun _ => c) :
    (fileContents f).val = List.replicate (min f.size.toNat 4096) c := by
  change (List.ofFn f.data).take f.size.toNat = _
  rw [same,List.ofFn_const,List.take_replicate]

/-- A session that ends with `:wq` leaves the text that it should if that is shorter than the
longest file. -/
theorem edit_keeps_iff (fit : SizesFit files) (file : held files name = some s)
    (proper : ∀ line ∈ lines, Text line ∧ 0 ∉ line) :
    ∃ files', cmdEdit files name (lines ++ [text ":wq"]) = .ok files' ∧
      (held files' = Function.update (held files) name (some (editedText s lines)) ↔
        (editedText s lines).length < 4096) := by
  have loaded : (s.take 4095).length ≤ 4095 := List.length_take_le 4095 s
  have small := foldl_length loaded lines
  obtain ⟨files',saved,holds⟩ := save_held fit file small
  refine ⟨files',?_,?_⟩
  · rw [cmdEdit,loadFile_held fit file]
    exact (editLoop_text proper).trans saved
  · rw [holds]
    constructor
    · intro same
      have here := congrFun same name
      rw [Function.update_self,Function.update_self] at here
      rw [← Option.some.inj here]
      exact Nat.lt_succ_of_le small
    · intro short
      have whole : s.take 4095 = s :=
        List.take_of_length_le (Nat.le_of_lt_succ ((editedText_length s lines).trans_lt short))
      rw [whole,foldl_eq short]

theorem edit_keeps_iff_two : ∃ files', cmdEdit (oneFile 2) (cstr [97]) ([text "x"] ++ [text ":wq"]) = .ok files' ∧
    (held files' = Function.update (held (oneFile 2)) (cstr [97]) (some (editedText [104,104] [text "x"])) ↔
      (editedText [104,104] [text "x"]).length < 4096) :=
  edit_keeps_iff (setFile_fits ramfsInit_fits (by decide)) (by decide +kernel) (by
    intro line member
    obtain rfl := List.mem_singleton.mp member
    exact ⟨⟨by decide,by decide,by decide⟩,by decide⟩)

/-- A file of the greatest size loses its last byte, even if no line is typed. -/
theorem last_byte_lost : held (oneFile 4096) (cstr [97]) = some (List.replicate 4096 104) ∧
    ∃ files', cmdEdit (oneFile 4096) (cstr [97]) [text ":wq"] = .ok files' ∧
      held files' (cstr [97]) = some (List.replicate 4095 104) ∧
      held files' (cstr [97]) ≠ held (oneFile 4096) (cstr [97]) := by
  have fit : SizesFit (oneFile 4096) := setFile_fits ramfsInit_fits (by decide)
  have found : findFile (oneFile 4096) (cstr [97]) = some 0 := by decide +kernel
  have size : (oneFile 4096 0).size.toNat = 4096 := by decide +kernel
  have file : held (oneFile 4096) (cstr [97]) = some (List.replicate 4096 104) := by
    have whole : (fileContents (oneFile 4096 0)).val = List.replicate (min (oneFile 4096 0).size.toNat 4096) 104 :=
      contents_same rfl
    rw [held_found found,whole,size,Nat.min_self]
  have loaded : (List.replicate 4096 (104 : Byte)).take 4095 = List.replicate 4095 104 := by
    rw [List.take_replicate]
    rfl
  have shorter : (List.replicate 4095 (104 : Byte)).length = 4095 := List.length_replicate
  obtain ⟨files',saved,holds⟩ := save_held fit file shorter.le
  have here := congrFun holds (cstr [97])
  rw [Function.update_self] at here
  refine ⟨file,files',?_,here,?_⟩
  · rw [cmdEdit,loadFile_held fit file,loaded]
    exact saved
  · rw [here,file]
    intro same
    have lengths := congrArg List.length (Option.some.inj same)
    rw [shorter,List.length_replicate] at lengths
    omega

end NimrodOS.EditorSaves
