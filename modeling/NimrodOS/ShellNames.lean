import NimrodOS.ShellFiles

/-! Which files `write`, `append` and `cp` use for the words on their line. -/
namespace NimrodOS.ShellFiles

open Libc Ramfs
open Shell (text)
open Vga (Call)

/-- A failure is reported, and the files are as they were. -/
def Rejected (files files' : Files) (out : List Call) : Prop := Failed out ∧ files' = files

/-- The text behind the first word is the new contents of the file of that name. -/
def WritesTyped (files : Files) (args : CString) (files' : Files) (out : List Call) : Prop :=
  Rejected files files' out ∨ (Short (firstWord args) ∧
    held files' = Function.update (held files) (firstWord args) (some (behindFirst args)))

/-- The text and, while there is room, a newline go behind the contents of that file. -/
def AppendsTyped (files : Files) (args : CString) (files' : Files) (out : List Call) : Prop :=
  Rejected files files' out ∨ (Short (firstWord args) ∧ ∃ old, held files (firstWord args) = some old ∧
    old.length + (behindFirst args).length ≤ 4096 ∧ held files' = Function.update (held files)
      (firstWord args) (some ((old ++ behindFirst args ++ [10]).take 4096)))

/-- The first word is the source and the second one the destination, where nothing else changes. -/
def CopiesTyped (files : Files) (args : CString) (files' : Files) (out : List Call) : Prop :=
  Rejected files files' out ∨ (Short (firstWord args) ∧ Short (secondWord args) ∧
    ∃ s, held files (firstWord args) = some s ∧ (held files' = held files ∨
      held files' = Function.update (held files) (secondWord args) (some s)))

variable {files files' : Files} {args src dst : CString} {s : List Byte} {out : List Call}

theorem Rejected.of_failed (failed : Failed out) : Rejected files files out := ⟨failed,rfl⟩

theorem cmdWrite_short (short : Short (firstWord args)) :
    cmdWrite files args = writeText files (firstWord args) (behindFirst args) := by
  obtain ⟨name,rest⟩ := taken_short short
  rw [← name,← rest]
  rfl

theorem cmdWrite_long (long : ¬Short (firstWord args)) : cmdWrite files args =
    writeText files (cut (firstWord args)) ((Calc.skipSpaces args.val).drop 31) := by
  obtain ⟨name,rest,-⟩ := taken_long long
  rw [← name,← rest]
  rfl

theorem cmdAppend_short (short : Short (firstWord args)) :
    cmdAppend files args = appendText files (firstWord args) (behindFirst args) := by
  obtain ⟨name,rest⟩ := taken_short short
  rw [← name,← rest]
  rfl

theorem cmdAppend_long (long : ¬Short (firstWord args)) : cmdAppend files args =
    appendText files (cut (firstWord args)) ((Calc.skipSpaces args.val).drop 31) := by
  obtain ⟨name,rest,-⟩ := taken_long long
  rw [← name,← rest]
  rfl

theorem drop_short (small : args.val.length ≤ 255) : ((Calc.skipSpaces args.val).drop 31).length ≤ 4096 := by
  have skipped := Calc.skipSpaces_length args.val
  rw [List.length_drop]
  omega

/-- `write` keeps to the words of its line unless the first one is too long and there is room for a
file of the name that is cut from it. -/
theorem cmdWrite_iff (fit : SizesFit files) (small : args.val.length ≤ 255) :
    ∃ files' out, cmdWrite files args = .ok (files',out) ∧ (WritesTyped files args files' out ↔
      Short (firstWord args) ∨ ¬Room files (cut (firstWord args))) := by
  by_cases short : Short (firstWord args)
  · have fits := (behindFirst_length args).trans (small.trans (by decide : 255 ≤ 4096))
    rw [cmdWrite_short short]
    by_cases blank : (firstWord args).val = [] ∨ behindFirst args = []
    · obtain ⟨out,done,failed⟩ := writeText_blank files blank
      exact ⟨files,out,done,iff_of_true (.inl (.of_failed failed)) (.inl short)⟩
    · by_cases room : Room files (firstWord args)
      · obtain ⟨files',out,done,-,holds⟩ := writeText_room fit short room (not_or.mp blank) fits
        exact ⟨files',out,done,iff_of_true (.inr ⟨short,holds⟩) (.inl short)⟩
      · obtain ⟨out,done,failed⟩ := writeText_refused (not_or.mp blank) room
        exact ⟨files,out,done,iff_of_true (.inl (.of_failed failed)) (.inl short)⟩
  · have some' := (taken_long short).2.2
    rw [cmdWrite_long short,or_iff_right short]
    by_cases room : Room files (cut (firstWord args))
    · obtain ⟨files',out,done,quiet,-⟩ := writeText_room fit cut_short room
        ⟨cut_solid short,some'⟩ (drop_short small)
      refine ⟨files',out,done,iff_of_false ?_ (not_not.mpr room)⟩
      rintro (⟨failed,-⟩ | ⟨short',-⟩)
      · exact quiet failed
      · exact short short'
    · obtain ⟨out,done,failed⟩ := writeText_refused ⟨cut_solid short,some'⟩ room
      exact ⟨files,out,done,iff_of_true (.inl (.of_failed failed)) room⟩

/-- `append` does so unless the first word is too long and there is a file of the name that is cut
from it, or the text does not fit in the file. -/
theorem cmdAppend_iff (fit : SizesFit files) (small : args.val.length ≤ 255) :
    ∃ files' out, cmdAppend files args = .ok (files',out) ∧ (AppendsTyped files args files' out ↔
      if Short (firstWord args) then behindFirst args = [] ∨
        ∀ old, held files (firstWord args) = some old → old.length + (behindFirst args).length ≤ 4096
      else held files (cut (firstWord args)) = none) := by
  by_cases short : Short (firstWord args)
  · have fits := (behindFirst_length args).trans (small.trans (by decide : 255 ≤ 4096))
    rw [cmdAppend_short short,if_pos short]
    by_cases blank : behindFirst args = []
    · have blank' : (firstWord args).val = [] ∨ behindFirst args = [] := .inr blank
      obtain ⟨out,done,failed⟩ := appendText_blank files blank'
      exact ⟨files,out,done,iff_of_true (.inl (.of_failed failed)) (.inl blank)⟩
    · have solid : (firstWord args).val ≠ [] := mt behindFirst_nil blank
      rw [or_iff_right blank]
      cases old : held files (firstWord args) with
      | none =>
        obtain ⟨out,done,failed⟩ := appendText_refused ⟨solid,blank⟩ old
        exact ⟨files,out,done,iff_of_true (.inl (.of_failed failed)) nofun⟩
      | some bytes =>
        obtain ⟨files',out,done,quiet,holds⟩ := appendText_held fit old ⟨solid,blank⟩ fits
        refine ⟨files',out,done,?_⟩
        constructor
        · rintro (⟨failed,-⟩ | ⟨-,bytes',same,room,-⟩)
          · exact absurd failed quiet
          · rintro _ ⟨⟩
            obtain rfl := Option.some.inj (old.symm.trans same)
            exact room
        · intro room
          exact .inr ⟨short,bytes,old,room bytes rfl,holds⟩
  · have some' := (taken_long short).2.2
    rw [cmdAppend_long short,if_neg short]
    cases old : held files (cut (firstWord args)) with
    | none =>
      obtain ⟨out,done,failed⟩ := appendText_refused ⟨cut_solid short,some'⟩ old
      exact ⟨files,out,done,iff_of_true (.inl (.of_failed failed)) rfl⟩
    | some bytes =>
      obtain ⟨files',out,done,quiet,-⟩ := appendText_held fit old ⟨cut_solid short,some'⟩ (drop_short small)
      refine ⟨files',out,done,iff_of_false ?_ (Option.some_ne_none bytes)⟩
      rintro (⟨failed,-⟩ | ⟨short',-⟩)
      · exact quiet failed
      · exact short short'

/-- With a source that is there, `cp` reports no failure. -/
theorem copyFile_quiet (fit : SizesFit files) (some' : src.val ≠ [] ∧ dst.val ≠ [])
    (source : held files src = some s) (short : Short dst) :
    ∃ files' out, copyFile files src dst = .ok (files',out) ∧ ¬Failed out ∧
      (held files' = held files ∨ held files' = Function.update (held files) dst (some s)) := by
  by_cases empty : s = []
  · subst empty
    refine ⟨files,[],copyFile_empty fit some' source,fun failed => ?_,.inl rfl⟩
    rcases failed_cases failed with red | single
    · cases red
    · cases single
  · obtain ⟨files',out,done,-,quiet,holds,kept⟩ := copyFile_bytes fit some' source empty short
    refine ⟨files',out,done,quiet,?_⟩
    by_cases room : Room files dst
    · exact .inr (holds room)
    · exact .inl (congrArg held (kept room))

/-- `cp` does so unless one of the words is too long and there is a file of the name that is taken
for the source. -/
theorem cmdCp_iff (fit : SizesFit files) :
    ∃ files' out, cmdCp files args = .ok (files',out) ∧ (CopiesTyped files args files' out ↔
      (Short (firstWord args) ∧ Short (secondWord args)) ∨ held files (cut (firstWord args)) = none) := by
  by_cases short : Short (firstWord args)
  · rw [cmdCp_short short,cut_of_short short]
    by_cases blank : (firstWord args).val = [] ∨ (secondWord args).val = []
    · have short' : Short (secondWord args) := by
        have empty : (secondWord args).val = [] := blank.elim secondWord_nil id
        rw [Short,empty]
        exact Nat.zero_le 31
      rw [cut_of_short short']
      obtain ⟨out,done,failed,-⟩ := copyFile_blank files blank
      exact ⟨files,out,done,iff_of_true (.inl (.of_failed failed)) (.inl ⟨short,short'⟩)⟩
    · have some' : (firstWord args).val ≠ [] ∧ (cut (secondWord args)).val ≠ [] := by
        refine ⟨(not_or.mp blank).1,?_⟩
        by_cases short' : Short (secondWord args)
        · rw [cut_of_short short']
          exact (not_or.mp blank).2
        · exact cut_solid short'
      cases source : held files (firstWord args) with
      | none =>
        obtain ⟨out,done,failed⟩ := copyFile_missing some' source
        exact ⟨files,out,done,iff_of_true (.inl (.of_failed failed)) (.inr rfl)⟩
      | some s =>
        obtain ⟨files',out,done,quiet,holds⟩ := copyFile_quiet fit some' source cut_short
        refine ⟨files',out,done,?_⟩
        rw [or_iff_left (Option.some_ne_none s)]
        constructor
        · rintro (⟨failed,-⟩ | ⟨-,short',-⟩)
          · exact absurd failed quiet
          · exact ⟨short,short'⟩
        · rintro ⟨-,short'⟩
          rw [cut_of_short short'] at holds
          exact .inr ⟨short,short',s,source,holds⟩
  · obtain ⟨dst,solid,short',same⟩ := cmdCp_long files short
    rw [same,or_iff_right fun both => short both.1]
    cases source : held files (cut (firstWord args)) with
    | none =>
      obtain ⟨out,done,failed⟩ := copyFile_missing ⟨cut_solid short,solid⟩ source
      exact ⟨files,out,done,iff_of_true (.inl (.of_failed failed)) rfl⟩
    | some s =>
      obtain ⟨files',out,done,quiet,-⟩ := copyFile_quiet fit ⟨cut_solid short,solid⟩ source short'
      refine ⟨files',out,done,iff_of_false ?_ (Option.some_ne_none s)⟩
      rintro (⟨failed,-⟩ | ⟨short'',-⟩)
      · exact quiet failed
      · exact short short''

/-- When the three commands act on the words of their line or report a failure. -/
theorem typed_words_iff (files : Files) (fit : SizesFit files) (args : CString)
    (small : args.val.length ≤ 255) :
    (∃ files' out, cmdWrite files args = .ok (files',out) ∧ (WritesTyped files args files' out ↔
      Short (firstWord args) ∨ ¬Room files (cut (firstWord args)))) ∧
    (∃ files' out, cmdAppend files args = .ok (files',out) ∧ (AppendsTyped files args files' out ↔
      if Short (firstWord args) then behindFirst args = [] ∨
        ∀ old, held files (firstWord args) = some old → old.length + (behindFirst args).length ≤ 4096
      else held files (cut (firstWord args)) = none)) ∧
    ∃ files' out, cmdCp files args = .ok (files',out) ∧ (CopiesTyped files args files' out ↔
      (Short (firstWord args) ∧ Short (secondWord args)) ∨ held files (cut (firstWord args)) = none) :=
  ⟨cmdWrite_iff fit small,cmdAppend_iff fit small,cmdCp_iff fit⟩

theorem typed_words_note :
    (∃ files' out, cmdWrite (oneFile 2) copyLine = .ok (files',out) ∧
      (WritesTyped (oneFile 2) copyLine files' out ↔
        Short (firstWord copyLine) ∨ ¬Room (oneFile 2) (cut (firstWord copyLine)))) ∧
    (∃ files' out, cmdAppend (oneFile 2) copyLine = .ok (files',out) ∧
      (AppendsTyped (oneFile 2) copyLine files' out ↔
        if Short (firstWord copyLine) then behindFirst copyLine = [] ∨
          ∀ old, held (oneFile 2) (firstWord copyLine) = some old →
            old.length + (behindFirst copyLine).length ≤ 4096
        else held (oneFile 2) (cut (firstWord copyLine)) = none)) ∧
    ∃ files' out, cmdCp (oneFile 2) copyLine = .ok (files',out) ∧
      (CopiesTyped (oneFile 2) copyLine files' out ↔
        (Short (firstWord copyLine) ∧ Short (secondWord copyLine)) ∨
          held (oneFile 2) (cut (firstWord copyLine)) = none) :=
  typed_words_iff (oneFile 2) (setFile_fits ramfsInit_fits (by decide)) copyLine (by decide)

/-- A name of 32 characters and a text. -/
def longLine : CString := ⟨List.replicate 32 97 ++ text " hi",by decide⟩

/-- The text goes to a file with the first 31 characters for its name. -/
theorem long_word_written : ∃ files' out, cmdWrite ramfsInit longLine = .ok (files',out) ∧
    ¬WritesTyped ramfsInit longLine files' out ∧
    held files' (cut (firstWord longLine)) = some (text "a hi") := by
  have long : ¬Short (firstWord longLine) := by decide
  have room : Room ramfsInit (cut (firstWord longLine)) := .inr (by decide +kernel)
  have some' := (taken_long long).2.2
  obtain ⟨files',out,done,quiet,holds⟩ := writeText_room ramfsInit_fits cut_short room
    ⟨cut_solid long,some'⟩ (by decide)
  refine ⟨files',out,(cmdWrite_long long).trans done,?_,?_⟩
  · rintro (⟨failed,-⟩ | ⟨short,-⟩)
    · exact quiet failed
    · exact long short
  · rw [holds,Function.update_self]
    decide

end NimrodOS.ShellFiles
