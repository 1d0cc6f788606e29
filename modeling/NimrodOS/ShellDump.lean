import NimrodOS.Hexadecimal
import NimrodOS.ShellLines

/-! The commands `hexdump` and `wc` of `shell/shell.c`, and what a reader of the dump gets. -/
namespace NimrodOS.ShellFiles

open Libc Ramfs Lines Hexadecimal
open Shell (text)
open Vga (Call printDec)

/-! `hexdump`. -/

/-- `static const char hex[]` of `cmd_hexdump`. -/
def dumpDigit (d : Nat) : Byte := (text "0123456789ABCDEF").getD d 0

def offsetDigits (off : Nat) : List Call := [12,8,4,0].map fun s => .putchar (dumpDigit ((off >>> s) &&& 0xF))

/-- A round of the loop over the bytes of a row. -/
def hexColumn (buf : Nat → Byte) (n off i : Nat) : List Call :=
  (if off + i < n then
    let b := buf (off + i)
    [.putchar (dumpDigit (b >>> 4).toNat),.putchar (dumpDigit (b &&& 0xF).toNat)]
  else [.print (text "  ")]) ++ .putchar 32 :: if i = 7 then [.putchar 32] else []

/-- A `char` is signed, so bytes from 128 on are no text. -/
def asciiColumn (buf : Nat → Byte) (off i : Nat) : Call :=
  let c := buf (off + i)
  .putchar (if 32 ≤ c.toInt ∧ c.toInt < 127 then c else 46)

def hexRow (buf : Nat → Byte) (n off : Nat) : List Call :=
  .setColor 8 0 :: offsetDigits off ++ .print (text "  ") ::
    .setColor 11 0 :: (List.range 16).flatMap (hexColumn buf n off) ++ .print (text " ") ::
    .setColor 14 0 :: (List.range (min 16 (n - off))).map (asciiColumn buf off) ++ [.putchar 10]

/-- The loop over the rows; each looks for Ctrl+C first. -/
def hexRows (pressed : Nat → Bool) (buf : Nat → Byte) (n off : Nat) : List Call :=
  if off < n then
    if pressed off then [] else hexRow buf n off ++ hexRows pressed buf n (off + 16)
  else []
termination_by n - off

def cmdHexdump (files : Files) (args : CString) (pressed : Nat → Bool) : Except Fault (List Call) :=
  let args := skip args
  if ramfsExists files args = 0 then .ok (notFound args)
  else do
    let (n,buf) ← ramfsRead files args (fun _ => 0) 4096
    if n ≤ 0 then return [.print (text "  (empty)\n")]
    else return hexRows pressed buf n.toNat 0 ++ [.setColor 10 0]

/-! `wc`. -/

def blank (c : Byte) : Bool := c = 32 ∨ c = 10 ∨ c = 9

/-- The loop of `cmd_wc`: the final `lines` and `words`. -/
def wcLoop (lines words : Nat) (inWord : Bool) : List Byte → Nat × Nat
  | [] => (lines,words)
  | c :: s =>
    let lines := if c = 10 then lines + 1 else lines
    if blank c then wcLoop lines words false s
    else if ¬inWord then wcLoop lines (words + 1) true s
    else wcLoop lines words true s

def counted (lines words bytes : Nat) : List Call :=
  [.setColor 15 0,.print (text "  ")] ++ printDec (BitVec.ofNat 32 lines) ++ .print (text " lines, ") ::
    printDec (BitVec.ofNat 32 words) ++ .print (text " words, ") :: printDec (BitVec.ofNat 32 bytes) ++
    [.print (text " bytes\n"),.setColor 10 0]

def cmdWc (files : Files) (args : CString) : Except Fault (List Call) :=
  let args := skip args
  if ramfsExists files args = 0 then .ok (notFound args)
  else do
    let (n,buf) ← ramfsRead files args (fun _ => 0) 4096
    if n ≤ 0 then return [.print (text "  0 0 0\n")]
    else
      let (lines,words) := wcLoop 0 0 false (bytesAt buf n.toNat)
      return counted lines words n.toNat

/-! What a reader finds in a row of a dump. -/

/-- The number in front. -/
def rowOffset (row : List Byte) : Nat := Numerals.value 16 (Numerals.leading hexDigit row)

/-- The byte of a column, when there is one. -/
def rowByte (row : List Byte) (i : Nat) : Option Byte :=
  match row.drop (6 + 3 * i + if i < 8 then 0 else 1) with
  | high :: low :: _ => do return BitVec.ofNat 8 ((← hexDigit high) * 16 + (← hexDigit low))
  | _ => none

def rowBytes (row : List Byte) : List Byte := (List.range 16).filterMap (rowByte row)

/-- What stands behind the columns. -/
def rowText (row : List Byte) : List Byte := row.drop 56

/-- A byte as text, or a point. -/
def shown (c : Byte) : Byte := if 32 ≤ c.toNat ∧ c.toNat < 127 then c else 46

variable {files : Files} {args : CString} {s b : List Byte} {n off i : Nat}

/-! Digits. -/

theorem dumpDigit_read : ∀ d < 16, hexDigit (dumpDigit d) = some d ∧ dumpDigit d ≠ 10 := by decide

theorem nibble_lt (m s : Nat) : (m >>> s) &&& 0xF < 16 := Nat.and_lt_two_pow _ (by decide : 0xF < 2^4)

theorem offset_value (small : off < 65536) :
    Numerals.value 16 ([12,8,4,0].map fun s => (off >>> s) &&& 0xF) = off := by
  have low (m : Nat) : m &&& 0xF = m % 16 := Nat.and_two_pow_sub_one_eq_mod m 4
  simp [Numerals.value,low,Nat.shiftRight_eq_div_pow]
  omega

theorem byte_value (c : Byte) : BitVec.ofNat 8 ((c >>> 4).toNat * 16 + (c &&& 0xF).toNat) = c := by
  have halves : (c >>> 4).toNat * 16 + (c &&& 0xF).toNat = c.toNat := by
    revert c
    decide
  rw [halves,BitVec.ofNat_toNat,BitVec.setWidth_eq]

theorem byte_nibbles (c : Byte) : (c >>> 4).toNat < 16 ∧ (c &&& 0xF).toNat < 16 := by
  revert c
  decide

/-! Rows. -/

/-- The columns of a byte, or of no byte. -/
def columnText (b : List Byte) (i : Nat) : List Byte :=
  (match b[i]? with
    | some c => [dumpDigit (c >>> 4).toNat,dumpDigit (c &&& 0xF).toNat]
    | none => [32,32]) ++ 32 :: if i = 7 then [32] else []

def rowFront (off : Nat) : List Byte :=
  ([12,8,4,0].map fun s => dumpDigit ((off >>> s) &&& 0xF)) ++ [32,32]

/-- The row of some bytes, without its newline. -/
def rowLine (off : Nat) (b : List Byte) : List Byte :=
  rowFront off ++ (List.range 16).flatMap (columnText b) ++ 32 :: b.map shown

theorem shown_eq (c : Byte) : (if 32 ≤ c.toInt ∧ c.toInt < 127 then c else 46) = shown c := by
  have signed : 32 ≤ c.toInt ∧ c.toInt < 127 ↔ 32 ≤ c.toNat ∧ c.toNat < 127 := by
    rw [BitVec.toInt_eq_toNat_cond]
    have := c.isLt
    split_ifs <;> omega
  rw [shown,if_congr signed rfl rfl]

@[simp] theorem printed_nil : printed [] = [] := rfl

@[simp] theorem printed_setColor (fg bg : Byte) (calls : List Call) :
    printed (.setColor fg bg :: calls) = printed calls := rfl

@[simp] theorem printed_putchar (c : Byte) (calls : List Call) :
    printed (.putchar c :: calls) = c :: printed calls := rfl

@[simp] theorem printed_print (str : List Byte) (calls : List Call) :
    printed (.print str :: calls) = str.takeWhile (· ≠ 0) ++ printed calls := rfl

theorem printed_column (buf : Nat → Byte) (s : List Byte) (off i : Nat) (few : i < 16)
    (read : ∀ j, buf j = s.getD j 0) :
    printed (hexColumn buf s.length off i) = columnText ((s.drop off).take 16) i := by
  rw [hexColumn,columnText,List.getElem?_take_of_lt few,List.getElem?_drop,read]
  by_cases inside : off + i < s.length
  · rw [if_pos inside,List.getElem?_eq_getElem inside,List.getD_eq_getElem _ _ inside]
    split_ifs <;> rfl
  · rw [if_neg inside,List.getElem?_eq_none (by omega)]
    split_ifs <;> rfl

theorem printed_row (buf : Nat → Byte) (s : List Byte) (off : Nat) (read : ∀ j, buf j = s.getD j 0) :
    printed (hexRow buf s.length off) = rowLine off ((s.drop off).take 16) ++ [10] := by
  have columns : printed ((List.range 16).flatMap (hexColumn buf s.length off)) =
      (List.range 16).flatMap (columnText ((s.drop off).take 16)) := by
    rw [printed,List.flatMap_assoc]
    exact List.flatMap_congr fun i member =>
      printed_column buf s off i (List.mem_range.mp member) read
  have texts : printed ((List.range (min 16 (s.length - off))).map (asciiColumn buf off)) =
      ((s.drop off).take 16).map shown := by
    have puts : asciiColumn buf off = Call.putchar ∘ fun i => shown (s.getD (off + i) 0) :=
      funext fun i => by rw [asciiColumn,shown_eq,read]; rfl
    rw [puts,← List.map_map,printed_putchars]
    apply List.ext_getElem
    · simp
    · intro i left right
      have inside : off + i < s.length := by simp at left; omega
      simp [List.getElem?_eq_getElem inside]
  have offset : printed (offsetDigits off) = [12,8,4,0].map fun s => dumpDigit ((off >>> s) &&& 0xF) := rfl
  have gap : (text "  ").takeWhile (· ≠ 0) = [32,32] := by decide
  have one : (text " ").takeWhile (· ≠ 0) = [32] := by decide
  rw [hexRow,rowLine,rowFront]
  simp only [List.cons_append,List.append_assoc,printed_append,printed_setColor,printed_print,
    printed_putchar,printed_nil,columns,texts,offset,gap,one,List.nil_append]

/-! Reading a row. -/

theorem columnText_length (b : List Byte) (i : Nat) :
    (columnText b i).length = 3 + if i = 7 then 1 else 0 := by
  rw [columnText]
  split <;> split_ifs <;> rfl

theorem columns_length (b : List Byte) (i : Nat) :
    ((List.range i).flatMap (columnText b)).length = 3 * i + if i < 8 then 0 else 1 := by
  induction i with
  | zero => rfl
  | succ i ih =>
    rw [List.range_succ,List.flatMap_append,List.length_append,ih,List.flatMap_singleton,columnText_length]
    split_ifs <;> omega

/-- Where a column stands in its row. -/
theorem row_column (off : Nat) (b : List Byte) (few : i < 16) : ∃ rest,
    (rowLine off b).drop (6 + 3 * i + if i < 8 then 0 else 1) = columnText b i ++ rest := by
  obtain ⟨k,split⟩ : ∃ k, 16 = i + (k + 1) := ⟨15 - i,by omega⟩
  have front : (rowFront off ++ (List.range i).flatMap (columnText b)).length =
      6 + 3 * i + if i < 8 then 0 else 1 := by
    rw [List.length_append,columns_length,Nat.add_assoc]
    rfl
  rw [rowLine,split,List.range_add,List.flatMap_append,List.range_succ_eq_map,List.map_cons,
    List.flatMap_cons]
  simp only [List.append_assoc]
  rw [← List.append_assoc (rowFront off),List.drop_left' front]
  exact ⟨_,rfl⟩

theorem rowByte_line (off : Nat) (b : List Byte) (few : i < 16) : rowByte (rowLine off b) i = b[i]? := by
  obtain ⟨rest,here⟩ := row_column off b few
  rw [rowByte,here,columnText]
  cases b[i]? with
  | none => rfl
  | some c =>
    obtain ⟨high,low⟩ := byte_nibbles c
    simp only [List.cons_append,List.nil_append,(dumpDigit_read _ high).1,(dumpDigit_read _ low).1]
    exact congrArg some (byte_value c)

theorem range_getElem (few : b.length ≤ n) : (List.range n).filterMap (b[·]?) = b := by
  induction b generalizing n with
  | nil => simp
  | cons c b ih =>
    obtain ⟨n,rfl⟩ := Nat.exists_eq_succ_of_ne_zero (Nat.ne_of_gt (Nat.lt_of_lt_of_le (Nat.succ_pos _) few))
    have behind := ih (Nat.le_of_succ_le_succ few)
    simp [List.range_succ_eq_map,List.filterMap_map,behind]

theorem rowBytes_line (off : Nat) (few : b.length ≤ 16) : rowBytes (rowLine off b) = b := by
  have columns : rowBytes (rowLine off b) = (List.range 16).filterMap (b[·]?) :=
    List.filterMap_congr fun i member => rowByte_line off b (List.mem_range.mp member)
  rw [columns,range_getElem few]

theorem leading_digits {ds : List Nat} (small : ∀ d ∈ ds, d < 16) (rest : List Byte) :
    Numerals.leading hexDigit (ds.map dumpDigit ++ 32 :: rest) = ds := by
  induction ds with
  | nil => rfl
  | cons d ds ih =>
    obtain ⟨first,small⟩ := List.forall_mem_cons.mp small
    rw [List.map_cons,List.cons_append,Numerals.leading,(dumpDigit_read d first).1]
    exact congrArg (d :: ·) (ih small)

theorem rowOffset_line (small : off < 65536) (b : List Byte) : rowOffset (rowLine off b) = off := by
  have digits : ∀ d ∈ [12,8,4,0].map fun s => (off >>> s) &&& 0xF, d < 16 := by
    intro d member
    obtain ⟨s,-,rfl⟩ := List.mem_map.mp member
    exact nibble_lt off s
  have front : rowFront off =
      ([12,8,4,0].map fun s => (off >>> s) &&& 0xF).map dumpDigit ++ 32 :: [32] := by
    rw [rowFront,List.map_map]
    rfl
  rw [rowOffset,rowLine,front]
  simp only [List.append_assoc,List.cons_append]
  rw [leading_digits digits,offset_value small]

theorem columns_length_all (off : Nat) (b : List Byte) :
    (rowFront off ++ (List.range 16).flatMap (columnText b)).length = 55 := by
  rw [List.length_append,columns_length]
  rfl

theorem rowText_line (off : Nat) (b : List Byte) : rowText (rowLine off b) = b.map shown := by
  rw [rowText,rowLine,show 56 = 55 + 1 from rfl,← List.drop_drop,List.drop_left' (columns_length_all off b)]
  rfl

theorem rowLine_length (off : Nat) (b : List Byte) : (rowLine off b).length = 56 + b.length := by
  rw [rowLine,List.length_append,columns_length_all,List.length_cons,List.length_map]
  omega

theorem shown_clean (c : Byte) : shown c ≠ 10 := by
  revert c
  decide

theorem columnText_clean (b : List Byte) (i : Nat) : 10 ∉ columnText b i := by
  have space : ∀ p : Prop, [Decidable p] → 10 ∉ (32 :: if p then [32] else [] : List Byte) := by
    intro p _
    split_ifs <;> decide
  rw [columnText]
  cases b[i]? with
  | none =>
    exact fun member => (List.mem_append.mp member).elim (by decide) (space _)
  | some c =>
    obtain ⟨high,low⟩ := byte_nibbles c
    intro member
    rcases List.mem_append.mp member with digit | other
    · simp only [List.mem_cons,List.not_mem_nil,or_false] at digit
      exact digit.elim ((dumpDigit_read _ high).2 ·.symm) ((dumpDigit_read _ low).2 ·.symm)
    · exact space _ other

theorem rowLine_clean (off : Nat) (b : List Byte) : 10 ∉ rowLine off b := by
  intro member
  simp only [rowLine,rowFront,List.mem_append,List.mem_cons,List.mem_map,List.mem_flatMap] at member
  rcases member with ((⟨s,-,same⟩ | gap) | ⟨i,-,column⟩) | one | ⟨c,-,same⟩
  · exact (dumpDigit_read _ (nibble_lt off s)).2 same
  · revert gap
    decide
  · exact columnText_clean b i column
  · revert one
    decide
  · exact shown_clean c same

/-! The dump. -/

/-- The rows of a file from an offset on. -/
def dumpRow (s : List Byte) (off j : Nat) : List Byte :=
  rowLine (off + 16 * j) ((s.drop (off + 16 * j)).take 16)

def dumpRows (s : List Byte) (off count : Nat) : List (List Byte) := (List.range count).map (dumpRow s off)

theorem dumpRows_succ (s : List Byte) (off count : Nat) :
    dumpRows s off (count + 1) = rowLine off ((s.drop off).take 16) :: dumpRows s (off + 16) count := by
  have next : dumpRow s off ∘ Nat.succ = dumpRow s (off + 16) := funext fun j => by
    have same : off + 16 * j.succ = off + 16 + 16 * j := by omega
    exact congrArg (fun off => rowLine off ((s.drop off).take 16)) same
  rw [dumpRows,List.range_succ_eq_map,List.map_cons,List.map_map,next]
  rfl

/-- Rows are printed up to the end of the file or a press of Ctrl+C. -/
theorem hexRows_prints (pressed : Nat → Bool) (buf : Nat → Byte) (off : Nat)
    (read : ∀ j, buf j = s.getD j 0) :
    ∃ count, printed (hexRows pressed buf s.length off) = ended 10 (dumpRows s off count) ∧
      (∀ j < count, off + 16 * j < s.length ∧ pressed (off + 16 * j) = false) ∧
      (s.length ≤ off + 16 * count ∨ pressed (off + 16 * count) = true) := by
  induction off using hexRows.induct pressed s.length with
  | case1 off inside stop =>
    refine ⟨0,?_,fun j none => absurd none (Nat.not_lt_zero j),.inr stop⟩
    rw [hexRows,if_pos inside,if_pos stop]
    rfl
  | case2 off inside goes ih =>
    obtain ⟨count,rows,before,last⟩ := ih
    refine ⟨count + 1,?_,fun j below => ?_,?_⟩
    · rw [hexRows,if_pos inside,if_neg goes,printed_append,printed_row buf s off read,rows,dumpRows_succ]
      rfl
    · cases j with
      | zero => exact ⟨inside,Bool.eq_false_iff.mpr goes⟩
      | succ j =>
        have same : off + 16 * (j + 1) = off + 16 + 16 * j := by omega
        exact same ▸ before j (Nat.lt_of_succ_lt_succ below)
    · have same : off + 16 * (count + 1) = off + 16 + 16 * count := by omega
      exact same ▸ last
  | case3 off beyond =>
    refine ⟨0,?_,fun j none => absurd none (Nat.not_lt_zero j),.inl (Nat.le_of_not_lt beyond)⟩
    rw [hexRows,if_neg beyond]
    rfl

theorem dumpRows_bytes (s : List Byte) (count : Nat) :
    (dumpRows s 0 count).flatMap rowBytes = s.take (16 * count) := by
  induction count with
  | zero => rfl
  | succ count ih =>
    have few : ((s.drop (0 + 16 * count)).take 16).length ≤ 16 := List.length_take_le ..
    rw [dumpRows,List.range_succ,List.map_append,List.flatMap_append,← dumpRows,ih,List.map_singleton,
      List.flatMap_singleton,dumpRow,rowBytes_line _ few,Nat.zero_add,Nat.mul_succ,List.take_add]

/-- The dump is read back: row by row its number is the place in the file, its columns are the bytes
there and its text shows them, and no row is longer than the screen. With no press of Ctrl+C the
rows are the whole file, and else the part in front of the press. -/
theorem hexdump_reads_back (fit : SizesFit files) (file : held files (skip args) = some s)
    (some' : s ≠ []) (pressed : Nat → Bool) : ∃ out rows, cmdHexdump files args pressed = .ok out ∧
      lines 10 (printed out) = rows ∧ rows.flatMap rowBytes = s.take (16 * rows.length) ∧
      (s.length ≤ 16 * rows.length ∨ pressed (16 * rows.length) = true) ∧
      ∀ k row, rows[k]? = some row → pressed (16 * k) = false ∧ rowOffset row = 16 * k ∧
        rowBytes row = (s.drop (16 * k)).take 16 ∧ rowText row = (rowBytes row).map shown ∧
        row.length ≤ 72 := by
  have positive := List.length_pos_iff.mpr some'
  have bound := held_length file
  obtain ⟨count,rows,before,last⟩ := hexRows_prints (s := s) pressed (overlay (fun _ => 0) s) 0 fun _ => rfl
  simp only [Nat.zero_add] at before last
  have size : (dumpRows s 0 count).length = count := by rw [dumpRows,List.length_map,List.length_range]
  have clean : ∀ row ∈ dumpRows s 0 count, 10 ∉ row := by
    intro row member
    obtain ⟨j,-,rfl⟩ := List.mem_map.mp member
    exact rowLine_clean _ _
  refine ⟨hexRows pressed (overlay (fun _ => 0) s) s.length 0 ++ [.setColor 10 0],dumpRows s 0 count,
    ?_,?_,?_,?_,?_⟩
  · unfold cmdHexdump
    rw [if_neg (exists_held file),read_whole fit file]
    simp only [bind,Except.bind,if_neg (show ¬(s.length : Int) ≤ 0 by omega),Int.toNat_natCast]
    rfl
  · rw [printed_append,rows,printed_setColor,printed_nil,List.append_nil,lines_ended clean]
  · rw [size,dumpRows_bytes]
  · rw [size]
    exact last
  · intro k row here
    have below : k < count := size ▸ (List.getElem?_eq_some_iff.mp here).1
    obtain ⟨inside,going⟩ := before k below
    rw [dumpRows,List.getElem?_map,List.getElem?_range below] at here
    obtain rfl := Option.some.inj here
    have few : ((s.drop (0 + 16 * k)).take 16).length ≤ 16 := List.length_take_le ..
    rw [dumpRow,rowOffset_line (by omega),rowBytes_line _ few,rowText_line,rowLine_length,Nat.zero_add]
    refine ⟨going,rfl,rfl,rfl,?_⟩
    rw [Nat.zero_add] at few
    omega

theorem hexdump_reads_back_note : ∃ out rows, cmdHexdump (oneFile 2) (cstr [97]) (fun _ => false) = .ok out ∧
    lines 10 (printed out) = rows ∧ rows.flatMap rowBytes = [104,104].take (16 * rows.length) ∧
    (([104,104] : List Byte).length ≤ 16 * rows.length ∨ false = true) ∧
    ∀ k row, rows[k]? = some row → false = false ∧ rowOffset row = 16 * k ∧
      rowBytes row = ([104,104].drop (16 * k)).take 16 ∧ rowText row = (rowBytes row).map shown ∧
      row.length ≤ 72 :=
  hexdump_reads_back (setFile_fits ramfsInit_fits (by decide)) (by decide +kernel) (by decide) fun _ => false

/-! Words. -/

/-- The pieces between blanks that are not empty. -/
def words (s : List Byte) : List (List Byte) := (s.splitOnP blank).filter (· ≠ [])

/-- Inside of a word the first piece goes on with it and does not count. -/
theorem wcLoop_eq (lines count : Nat) (inWord : Bool) (s : List Byte) : wcLoop lines count inWord s =
    (lines + s.count 10,count + ((if inWord then (s.splitOnP blank).tail else s.splitOnP blank).filter
      (· ≠ [])).length) := by
  induction s generalizing lines count inWord with
  | nil => cases inWord <;> rfl
  | cons c s ih =>
    have newlines : (if c = 10 then lines + 1 else lines) + s.count 10 = lines + (c :: s).count 10 := by
      by_cases newline : c = 10
      · subst newline
        rw [if_pos rfl,List.count_cons_self]
        omega
      · rw [if_neg newline,List.count_cons_of_ne newline]
    rw [wcLoop,List.splitOnP_cons_eq_if_modifyHead]
    by_cases gap : blank c
    · rw [if_pos gap,if_pos gap,ih,newlines]
      cases inWord <;> rfl
    · rw [if_neg gap,if_neg gap]
      obtain ⟨first,pieces,split⟩ := List.exists_cons_of_ne_nil (List.splitOnP_ne_nil blank s)
      cases inWord with
      | false =>
        rw [if_pos (by decide),ih,newlines,split]
        simp
        omega
      | true =>
        rw [if_neg (by decide),ih,newlines,split]
        rfl

/-- `wc` counts newlines, words and bytes. -/
theorem cmdWc_counts (fit : SizesFit files) (file : held files (skip args) = some s) (some' : s ≠ []) :
    cmdWc files args = .ok (counted (s.count 10) (words s).length s.length) := by
  have positive := List.length_pos_iff.mpr some'
  have whole : bytesAt (overlay (fun _ => 0) s) s.length = s := bytesAt_string s
  unfold cmdWc
  rw [if_neg (exists_held file),read_whole fit file]
  simp only [bind,Except.bind,if_neg (show ¬(s.length : Int) ≤ 0 by omega),Int.toNat_natCast,whole,
    wcLoop_eq,Nat.zero_add]
  rfl

end NimrodOS.ShellFiles
