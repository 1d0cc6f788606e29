import NimrodOS.KeyHistory
import NimrodOS.VgaTape

/-! What `keyboard_callback` of `drivers/keyboard.c` shows of the line that is typed at a prompt.
Enter, Ctrl+C and Ctrl+L, which lead to another prompt, are left out, and so is the editor. -/
namespace NimrodOS.KeyScreen

open Libc Checked KeyBuffers Transition Vga
open Shell (Keyboard scancodeAscii scancodeAsciiShift)

/-- The keyboard and the screen. The source does not count the rows that have left the screen. -/
structure Console where
  keys : Buffers
  screen : State
  gone : Nat

def putchar (s : Console) (c : Byte) : Except OutOfRange Console := do
  let lost ← rowsLost s.screen c
  let screen ← vgaPutchar s.screen c
  return {s with screen := screen,gone := s.gone + lost}

def print (s : Console) (text : Fin 256 → Byte) : Except OutOfRange Console := do
  let line ← readString text
  line.val.foldlM putchar s

/-- The loop of `replace_input`. -/
def eraseInput : Nat → Console → Except OutOfRange Console
  | 0,s => .ok s
  | len + 1,s => do
    let screen ← vgaBackspace s.screen
    eraseInput len {s with keys := {s.keys with keyBufferLen := len},screen := screen}

def replaceInput (s : Console) (newText : Fin 256 → Byte) : Except OutOfRange Console := do
  let erased ← eraseInput s.keys.keyBufferLen.toNat s
  let keys ← KeyBuffers.replaceInput erased.keys newText
  print {erased with keys := keys} keys.keyBuffer

def showEntry (s : Console) : Except OutOfRange Console := do
  let row ← get s.keys.history s.keys.historyPos
  replaceInput s row

def upArrow (s : Console) : Except OutOfRange Console :=
  if s.keys.historyCount = 0 then return s
  else if s.keys.historyPos = -1 then do
    let saved ← saveInput s.keys
    showEntry {s with keys := saved}
  else if s.keys.historyPos < s.keys.historyCount - 1 then
    showEntry {s with keys := {s.keys with historyPos := s.keys.historyPos + 1}}
  else return s

def downArrow (s : Console) : Except OutOfRange Console :=
  if s.keys.historyPos < 0 then return s
  else if s.keys.historyPos - 1 < 0 then
    replaceInput {s with keys := {s.keys with historyPos := s.keys.historyPos - 1}} s.keys.savedInput
  else showEntry {s with keys := {s.keys with historyPos := s.keys.historyPos - 1}}

/-- A character that does not end the line. -/
def typedKey (s : Console) (c : Byte) : Except OutOfRange Console :=
  if c = 8 then
    if s.keys.keyBufferLen > 0 then do
      let keys ← KeyBuffers.typedKey s.keys c
      let screen ← vgaBackspace s.screen
      return {s with keys := keys,screen := screen}
    else return s
  else if c ≠ 0 ∧ s.keys.keyBufferLen < 256 - 1 then do
    let keys ← KeyBuffers.typedKey s.keys c
    putchar {s with keys := keys} c
  else return s

def press (s : Console) (scancode : Byte) : Except OutOfRange Console :=
  if scancode &&& 0x80 ≠ 0 then return {s with keys := released s.keys (scancode &&& 0x7F)}
  else if scancode = 0x1D then return {s with keys := {s.keys with ctrlHeld := true}}
  else if scancode = 0x2A ∨ scancode = 0x36 then return {s with keys := {s.keys with shiftHeld := true}}
  -- Ctrl+C, the keys of the editor and Ctrl+L would come here.
  else if scancode = 0x48 then upArrow s
  else if scancode = 0x50 then downArrow s
  else if scancode.toNat < scancodeAscii.length then do
    let c ← char s.keys scancode
    typedKey s c
  else return s

/-- Any other key than Enter, Ctrl+C and Ctrl+L. -/
def OnLine (b : Buffers) (scancode : Byte) : Prop :=
  scancode ≠ 0x1C ∧ ¬(b.ctrlHeld ∧ (scancode = 0x2E ∨ scancode = 0x26))

def Step (s : Console) (scancode : Byte) (s' : Console) : Prop :=
  OnLine s.keys scancode ∧ press s scancode = .ok s'

/-! What belongs together. -/

/-- The screen shows `key_buffer` behind the prompt, with the cursors at its end. -/
def Agrees (prompt : Tape Byte) (s : Console) : Prop :=
  Pictured s.screen (prompt.writes 4 9 (contents s.keys.keyBuffer)) s.gone

/-- Every line that can be shown stays in its rows. -/
structure Clean (k : Keyboard) : Prop where
  line : ∀ c ∈ k.keyBuffer, InRow c
  history : ∀ l ∈ k.history, ∀ c ∈ l, InRow c
  saved : ∀ c ∈ k.savedInput, InRow c

/-- The arrays of the keyboard hold such lines, and there is no editor. -/
def Typing (b : Buffers) : Prop := ∃ k e, Holds b k e ∧ ¬e.editorMode ∧ Clean k

/-- A prompt, whose rows hold nothing behind its end. -/
structure Fresh (prompt : Tape Byte) (s : Console) : Prop where
  typing : Typing s.keys
  empty : contents s.keys.keyBuffer = []
  follows : Follows s.screen prompt s.gone

/-- What a key takes off the line can be taken off the screen by going back one column for each
character. -/
def Exact (place : Nat) (b : Buffers) (scancode : Byte) : Prop :=
  let line := contents b.keyBuffer
  (scancode = 0x0E → line ≠ [] →
    Tape.after 4 9 place line = Tape.after 4 9 place line.dropLast + 1) ∧
  ∀ shown ∈ shownLine b scancode, Tape.Alike 4 9 32 place line shown

variable {s s' : Console} {b b' : Buffers} {t t' prompt : Tape Byte} {k : Keyboard} {e : Editor}
  {scancode c : Byte} {line new : List Byte} {text : Fin 256 → Byte}

/-! Lines. -/

/-- The keys of the tables, apart from Enter, stay in the row. -/
theorem char_inRow (k : Keyboard) (inside : scancode.toNat < 58) (other : scancode ≠ 0x1C) :
    InRow (k.char scancode) := by
  have plain : ∀ i : Fin 58, scancodeAscii.getD i 0 ≠ 13 := by decide
  have shifted : ∀ i : Fin 58, scancodeAsciiShift.getD i 0 ≠ 13 := by decide
  refine ⟨fun newline => other ((Shell.char_enter k inside).mp newline),?_⟩
  rw [Keyboard.char]
  split_ifs
  · exact shifted ⟨scancode.toNat,inside⟩
  · exact plain ⟨scancode.toNat,inside⟩

theorem char_backspace (k : Keyboard) (inside : scancode.toNat < 58) :
    k.char scancode = 8 ↔ scancode = 0x0E := by
  have plain : ∀ i : Fin 58, scancodeAscii.getD i 0 = 8 ↔ i.val = 14 := by decide
  have shifted : ∀ i : Fin 58, scancodeAsciiShift.getD i 0 = 8 ↔ i.val = 14 := by decide
  have place : scancode = 0x0E ↔ scancode.toNat = 14 := BitVec.toNat_inj.symm
  rw [place,Keyboard.char]
  split_ifs
  · exact shifted ⟨scancode.toNat,inside⟩
  · exact plain ⟨scancode.toNat,inside⟩

namespace Clean

theorem entry (clean : Clean k) (i : Nat) : ∀ c ∈ k.history.getD i [], InRow c := by
  intro c member
  by_cases inside : i < k.history.length
  · rw [List.getD_eq_getElem _ _ inside] at member
    exact clean.history _ (List.getElem_mem inside) c member
  · rw [List.getD_eq_default _ _ (Nat.le_of_not_lt inside)] at member
    cases member

theorem shows (clean : Clean k) (proper : ∀ c ∈ new, InRow c) : Clean (k.replaceInput new) :=
  ⟨fun c member => proper c (List.mem_of_mem_take member),clean.history,clean.saved⟩

theorem upArrow (clean : Clean k) : Clean (Shell.upArrow k) := by
  unfold Shell.upArrow
  split_ifs
  · exact clean
  · split
    · have kept : Clean {k with historyPos := some 0,savedInput := k.keyBuffer} :=
        ⟨clean.line,clean.history,clean.line⟩
      exact kept.shows (clean.entry 0)
    · next pos _ =>
      split_ifs
      · have kept : Clean {k with historyPos := some (pos + 1)} := ⟨clean.line,clean.history,clean.saved⟩
        exact kept.shows (clean.entry (pos + 1))
      · exact clean

theorem downArrow (clean : Clean k) : Clean (Shell.downArrow k) := by
  unfold Shell.downArrow
  have kept (pos : Option Nat) : Clean {k with historyPos := pos} := ⟨clean.line,clean.history,clean.saved⟩
  split
  · exact clean
  · exact (kept none).shows clean.saved
  · next pos _ => exact (kept (some pos)).shows (clean.entry pos)

theorem typedLine (clean : Clean k) (inRow : c ≠ 10 → InRow c) : Clean (typedLine k c) := by
  unfold KeyBuffers.typedLine
  split_ifs with back enter room
  · exact ⟨fun c member => clean.line c (List.dropLast_subset _ member),clean.history,clean.saved⟩
  · refine ⟨nofun,fun l member => ?_,clean.saved⟩
    unfold Shell.historyPush at member
    split_ifs at member
    · exact clean.history l member
    · exact clean.history l member
    · rcases List.mem_cons.mp (List.mem_of_mem_take member) with rfl | older
      · exact clean.line
      · exact clean.history l older
  · refine ⟨List.forall_mem_append.mpr ⟨clean.line,List.forall_mem_singleton.mpr (inRow enter)⟩,
      clean.history,clean.saved⟩
  · exact clean

theorem released (clean : Clean k) : Clean (Shell.released k scancode) := by
  unfold Shell.released
  dsimp only
  split_ifs
  · exact ⟨clean.line,clean.history,clean.saved⟩
  · exact ⟨clean.line,clean.history,clean.saved⟩
  · exact clean

/-- Any key outside of the editor keeps the lines clean. -/
theorem lineKey (clean : Clean k) (scancode : Byte) : Clean (lineKey k scancode) := by
  have held (line : List Byte) (pos : Option Nat) (shift ctrl : Bool) (row : ∀ c ∈ line, InRow c) :
      Clean {k with keyBuffer := line,historyPos := pos,shiftHeld := shift,ctrlHeld := ctrl} :=
    ⟨row,clean.history,clean.saved⟩
  apply lineKey_cases (motive := Clean) k scancode
  case released => exact clean.released
  case ctrl => exact held _ _ _ _ clean.line
  case shift => exact held _ _ _ _ clean.line
  case dropped => exact held _ _ _ _ nofun
  case quiet => exact clean
  case up => exact clean.upArrow
  case down => exact clean.downArrow
  case typed =>
    intro small
    exact clean.typedLine fun line => char_inRow k small fun enter =>
      line ((Shell.char_enter k small).mpr enter)

end Clean

/-- Any keys behind `keyboard_init` leave such lines. -/
theorem keyboardInit_typing (scancodes : List Byte) : ∃ start b, keyboardInit zeroed = .ok start ∧
    scancodes.foldlM keyboardCallback start = .ok b ∧ Typing b := by
  obtain ⟨start,booted,holds⟩ := keyboardInit_holds
  have kept : ∀ (scancodes : List Byte) (b : Buffers) (k : Keyboard), Holds b k zeroed.editor → Clean k →
      ∃ b', scancodes.foldlM keyboardCallback b = .ok b' ∧ Typing b' := by
    intro scancodes
    induction scancodes with
    | nil => exact fun b k holds clean => ⟨b,rfl,k,_,holds,nofun,clean⟩
    | cons scancode scancodes ih =>
      intro b k holds clean
      have outside : ¬KeyBuffers.Taken b scancode := fun taken => absurd (holds.apart ▸ taken.mode) (by decide)
      obtain ⟨next,moved,holds'⟩ := holds.keyboardCallback outside
      rw [List.foldlM_cons,moved]
      exact ih next _ holds' (clean.lineKey scancode)
  obtain ⟨b,typed,typing⟩ := kept scancodes start atStart holds ⟨nofun,nofun,nofun⟩
  exact ⟨start,b,booted,typed,typing⟩

/-! What is shown. -/

/-- The screen has come to show a tape. -/
structure Moves (s s' : Console) (t : Tape Byte) : Prop where
  follows : Follows s'.screen t s'.gone
  gone : s'.gone = max s.gone (t.place / 80 - 24)

theorem Moves.of_follows (follows : Follows s'.screen t s'.gone) (gone : s'.gone = s.gone) : Moves s s' t := by
  have low := follows.low
  exact ⟨follows,by omega⟩

theorem putchar_moves (follows : Follows s.screen t s.gone) (inRow : InRow c) :
    ∃ s', putchar s c = .ok s' ∧ s'.keys = s.keys ∧ Moves s s' (t.write 4 9 c) := by
  obtain ⟨screen,lost,done,count,follows',gone⟩ := follows.putchar inRow
  unfold putchar
  rw [count,done]
  exact ⟨_,rfl,rfl,follows',gone⟩

theorem chars_move (follows : Follows s.screen t s.gone) (proper : ∀ c ∈ line, InRow c) :
    ∃ s', line.foldlM putchar s = .ok s' ∧ s'.keys = s.keys ∧ Moves s s' (t.writes 4 9 line) := by
  induction line generalizing s t with
  | nil => exact ⟨s,rfl,rfl,.of_follows follows rfl⟩
  | cons c line ih =>
    obtain ⟨first,rest⟩ := List.forall_mem_cons.mp proper
    obtain ⟨middle,done,keys,moves⟩ := putchar_moves follows first
    obtain ⟨s',done',keys',moves'⟩ := ih moves.follows rest
    have later := Tape.length_le_after (show 0 < 4 by decide) (9 : Byte) (t.write 4 9 c).place line
    have place : ((t.write 4 9 c).writes 4 9 line).place = Tape.after 4 9 (t.write 4 9 c).place line :=
      Tape.writes_place (t.write 4 9 c) line
    have gone := moves.gone
    have gone' := moves'.gone
    rw [List.foldlM_cons,done]
    refine ⟨s',done',keys'.trans keys,moves'.follows,?_⟩
    rw [gone',gone]
    show _ = max s.gone (((t.write 4 9 c).writes 4 9 line).place / 80 - 24)
    omega

theorem print_moves (row : Row text line) (proper : ∀ c ∈ line, InRow c)
    (follows : Follows s.screen t s.gone) :
    ∃ s', print s text = .ok s' ∧ s'.keys = s.keys ∧ Moves s s' (t.writes 4 9 line) := by
  unfold print
  rw [row.string]
  exact chars_move follows proper

theorem eraseInput_follows (n : Nat) (follows : Follows s.screen t s.gone) :
    ∃ s' len, eraseInput n s = .ok s' ∧ s'.keys = {s.keys with keyBufferLen := len} ∧
      s'.gone = s.gone ∧ Follows s'.screen (eraseFrom s.gone n t) s.gone := by
  induction n generalizing s t with
  | zero => exact ⟨s,s.keys.keyBufferLen,rfl,rfl,rfl,follows⟩
  | succ n ih =>
    obtain ⟨screen,done,follows'⟩ := follows.backspace
    obtain ⟨s',len,done',keys,gone,shown⟩ :=
      ih (s := ⟨{s.keys with keyBufferLen := n},screen,s.gone⟩) follows'
    rw [eraseInput,done]
    exact ⟨s',len,done',keys,gone,shown⟩

/-- Another line is shown in place of the one in the buffer. -/
theorem replaceInput_moves (row : Row text new) (proper : ∀ c ∈ new, InRow c)
    (len : s.keys.keyBufferLen = line.length) (follows : Follows s.screen t s.gone) :
    ∃ s', replaceInput s text = .ok s' ∧ KeyBuffers.replaceInput s.keys text = .ok s'.keys ∧
      Row s'.keys.keyBuffer new ∧ Moves s s' ((eraseFrom s.gone line.length t).writes 4 9 new) := by
  obtain ⟨erased,rest,done,keys,gone,follows'⟩ := eraseInput_follows line.length follows
  obtain ⟨buf,put,shown⟩ := replaceInput_row s.keys row
  have put' : KeyBuffers.replaceInput erased.keys text = KeyBuffers.replaceInput s.keys text := by
    rw [keys]
    rfl
  rw [← gone] at follows'
  obtain ⟨s',printed,same,moves⟩ := print_moves
    (s := ⟨{s.keys with keyBuffer := buf,keyBufferLen := new.length},erased.screen,erased.gone⟩)
    shown proper follows'
  refine ⟨s',?_,?_,?_,?_⟩
  · rw [replaceInput,len,Int.toNat_natCast,done]
    simp only [bind,Except.bind,put',put]
    exact printed
  · rw [same]
    exact put
  · rw [same]
    exact shown
  · rw [gone] at moves
    exact ⟨moves.follows,gone ▸ moves.gone⟩

/-- What a key can do to the tape and the line. -/
inductive Effect (s : Console) (t : Tape Byte) (line : List Byte) (scancode : Byte) :
    Tape Byte → List Byte → Prop where
  | quiet (shown : shownLine s.keys scancode = none) (other : scancode = 0x0E → line = []) :
      Effect s t line scancode t line
  | typed (c : Byte) (shown : shownLine s.keys scancode = none) (other : scancode ≠ 0x0E) :
      Effect s t line scancode (t.write 4 9 c) (line ++ [c])
  | erased (back : scancode = 0x0E) (some' : line ≠ []) :
      Effect s t line scancode (backFrom s.gone t) line.dropLast
  | replaced {new : List Byte} (shown : shownLine s.keys scancode = some new) :
      Effect s t line scancode ((eraseFrom s.gone line.length t).writes 4 9 new) new

/-- The key is taken by the buffers and by the screen, and this is its effect. -/
def Taken (s : Console) (t : Tape Byte) (line : List Byte) (scancode : Byte)
    (done : Except OutOfRange Console) (keys : Except OutOfRange Buffers) : Prop :=
  ∃ s' t' line', done = .ok s' ∧ keys = .ok s'.keys ∧ Row s'.keys.keyBuffer line' ∧ Moves s s' t' ∧
    Effect s t line scancode t' line'

theorem entryLine_row (holds : Holds b k e) {i : Nat} (inside : i < k.history.length) {pos : Int}
    (here : pos = i) : entryLine b pos = some (k.history.getD i []) := by
  have row := holds.rows ⟨i,inside.trans_le holds.room⟩
  rw [entryLine,get_at (j := ⟨i,inside.trans_le holds.room⟩) here]
  exact congrArg some row.same

/-- An entry of the history is shown. -/
theorem showEntry_moves (holds : Holds b k e) (clean : Clean k) {i : Nat} (inside : i < k.history.length)
    (history : s.keys.history = b.history) (pos : s.keys.historyPos = i)
    (len : s.keys.keyBufferLen = line.length) (follows : Follows s.screen t s.gone) :
    ∃ s', showEntry s = .ok s' ∧ KeyBuffers.showEntry s.keys = .ok s'.keys ∧
      Row s'.keys.keyBuffer (k.history.getD i []) ∧
      Moves s s' ((eraseFrom s.gone line.length t).writes 4 9 (k.history.getD i [])) := by
  have row := holds.rows ⟨i,inside.trans_le holds.room⟩
  have found : get s.keys.history s.keys.historyPos = .ok (b.history ⟨i,inside.trans_le holds.room⟩) := by
    rw [history]
    exact get_at pos
  unfold showEntry KeyBuffers.showEntry
  rw [found,ok_bind,ok_bind]
  exact replaceInput_moves row (clean.entry i) len follows

theorem upArrow_taken (holds : Holds s.keys k e) (clean : Clean k) (follows : Follows s.screen t s.gone) :
    Taken s t k.keyBuffer 0x48 (upArrow s) (KeyBuffers.upArrow s.keys) := by
  have count := holds.count
  have pos := holds.pos
  unfold upArrow KeyBuffers.upArrow
  by_cases none : s.keys.historyCount = 0
  · have shown : shownLine s.keys 0x48 = Option.none := by rw [shownLine,if_pos rfl,if_pos none]
    rw [if_pos none,if_pos none]
    exact ⟨s,_,_,rfl,rfl,holds.line,.of_follows follows rfl,.quiet shown (absurd · (by decide))⟩
  rw [if_neg none,if_neg none]
  by_cases first : s.keys.historyPos = -1
  · obtain ⟨saved,put,-⟩ := saveInput_row holds.line holds.len
    have some' : 0 < k.history.length := by omega
    have shown : shownLine s.keys 0x48 = some (k.history.getD 0 []) := by
      rw [shownLine,if_pos rfl,if_neg none,if_pos first]
      exact entryLine_row holds some' rfl
    obtain ⟨s',done,keys,row,moves⟩ := showEntry_moves
      (s := ⟨{s.keys with savedInput := saved,savedLen := s.keys.keyBufferLen,historyPos := 0},s.screen,s.gone⟩)
      holds clean some' rfl rfl holds.len follows
    rw [if_pos first,if_pos first,put,ok_bind,ok_bind]
    exact ⟨s',_,_,done,keys,row,⟨moves.follows,moves.gone⟩,.replaced shown⟩
  rw [if_neg first,if_neg first]
  by_cases older : s.keys.historyPos < s.keys.historyCount - 1
  · obtain ⟨p,here⟩ : ∃ p : Nat, s.keys.historyPos = p := by
      refine Int.eq_ofNat_of_zero_le ?_
      have sound := holds.sound.position
      omega
    have next : s.keys.historyPos + 1 = (p + 1 : Nat) := by omega
    have inside : p + 1 < k.history.length := by omega
    have shown : shownLine s.keys 0x48 = some (k.history.getD (p + 1) []) := by
      rw [shownLine,if_pos rfl,if_neg none,if_neg first,if_pos older]
      exact entryLine_row holds inside next
    obtain ⟨s',done,keys,row,moves⟩ := showEntry_moves
      (s := ⟨{s.keys with historyPos := s.keys.historyPos + 1},s.screen,s.gone⟩)
      holds clean inside rfl next holds.len follows
    rw [if_pos older,if_pos older]
    exact ⟨s',_,_,done,keys,row,⟨moves.follows,moves.gone⟩,.replaced shown⟩
  · have shown : shownLine s.keys 0x48 = Option.none := by
      rw [shownLine,if_pos rfl,if_neg none,if_neg first,if_neg older]
    rw [if_neg older,if_neg older]
    exact ⟨s,_,_,rfl,rfl,holds.line,.of_follows follows rfl,.quiet shown (absurd · (by decide))⟩

theorem downArrow_taken (holds : Holds s.keys k e) (clean : Clean k) (follows : Follows s.screen t s.gone) :
    Taken s t k.keyBuffer 0x50 (downArrow s) (KeyBuffers.downArrow s.keys) := by
  have sound := holds.sound.position
  have count := holds.count
  unfold downArrow KeyBuffers.downArrow
  by_cases current : s.keys.historyPos < 0
  · have shown : shownLine s.keys 0x50 = none := by
      rw [shownLine,if_neg (by decide),if_pos rfl,if_pos current]
    rw [if_pos current,if_pos current]
    exact ⟨s,_,_,rfl,rfl,holds.line,.of_follows follows rfl,.quiet shown (absurd · (by decide))⟩
  rw [if_neg current,if_neg current]
  by_cases last : s.keys.historyPos - 1 < 0
  · have shown : shownLine s.keys 0x50 = some k.savedInput := by
      rw [shownLine,if_neg (by decide),if_pos rfl,if_neg current,if_pos last,holds.saved.same]
    obtain ⟨s',done,keys,row,moves⟩ := replaceInput_moves
      (s := ⟨{s.keys with historyPos := s.keys.historyPos - 1},s.screen,s.gone⟩)
      holds.saved clean.saved holds.len follows
    rw [if_pos last,if_pos last]
    exact ⟨s',_,_,done,keys,row,⟨moves.follows,moves.gone⟩,.replaced shown⟩
  · obtain ⟨p,newer⟩ : ∃ p : Nat, s.keys.historyPos - 1 = p := Int.eq_ofNat_of_zero_le (by omega)
    have inside : p < k.history.length := by omega
    have shown : shownLine s.keys 0x50 = some (k.history.getD p []) := by
      rw [shownLine,if_neg (by decide),if_pos rfl,if_neg current,if_neg last]
      exact entryLine_row holds inside newer
    obtain ⟨s',done,keys,row,moves⟩ := showEntry_moves
      (s := ⟨{s.keys with historyPos := s.keys.historyPos - 1},s.screen,s.gone⟩)
      holds clean inside rfl newer holds.len follows
    rw [if_neg last,if_neg last]
    exact ⟨s',_,_,done,keys,row,⟨moves.follows,moves.gone⟩,.replaced shown⟩

/-- A key of the tables. -/
theorem typedKey_taken (holds : Holds s.keys k e) (follows : Follows s.screen t s.gone)
    (shown : shownLine s.keys scancode = none) (back : c = 8 ↔ scancode = 0x0E) (inRow : InRow c) :
    Taken s t k.keyBuffer scancode (typedKey s c) (KeyBuffers.typedKey s.keys c) := by
  have len := holds.len
  obtain ⟨keys,done,holds'⟩ := holds.typedKey c
  have row := holds'.line
  unfold typedKey
  rw [done]
  unfold typedLine at row
  by_cases erases : c = 8
  · rw [if_pos erases] at row ⊢
    by_cases some' : s.keys.keyBufferLen > 0
    · obtain ⟨screen,went,follows'⟩ := follows.backspace
      have full : k.keyBuffer ≠ [] := List.ne_nil_of_length_pos (by omega)
      rw [if_pos some',went]
      exact ⟨_,_,_,rfl,rfl,row,.of_follows follows' rfl,.erased (back.mp erases) full⟩
    · have empty : k.keyBuffer = [] := List.eq_nil_of_length_eq_zero (by omega)
      have same : keys = s.keys := by
        rw [KeyBuffers.typedKey,if_pos erases,if_neg some'] at done
        exact (Except.ok.inj done).symm
      rw [if_neg some',same]
      exact ⟨s,_,_,rfl,rfl,holds.line,.of_follows follows rfl,.quiet shown fun _ => empty⟩
  · have other : scancode ≠ 0x0E := fun code => erases (back.mpr code)
    rw [if_neg erases,if_neg inRow.1] at row
    rw [if_neg erases]
    by_cases room : c ≠ 0 ∧ s.keys.keyBufferLen < 256 - 1
    · have room' : c ≠ 0 ∧ k.keyBuffer.length < 255 := ⟨room.1,by omega⟩
      obtain ⟨s',printed,same,moves⟩ := putchar_moves (s := ⟨keys,s.screen,s.gone⟩) follows inRow
      rw [if_pos room'] at row
      rw [if_pos room]
      refine ⟨s',_,_,printed,congrArg Except.ok same.symm,?_,⟨moves.follows,moves.gone⟩,.typed c shown other⟩
      rw [same]
      exact row
    · have same : keys = s.keys := by
        rw [KeyBuffers.typedKey,if_neg erases,if_neg inRow.1,if_neg room] at done
        exact (Except.ok.inj done).symm
      rw [if_neg room,same]
      exact ⟨s,_,_,rfl,rfl,holds.line,.of_follows follows rfl,.quiet shown (absurd · other)⟩

/-- What every key does. The buffers change as if there were no screen. -/
theorem press_taken (holds : Holds s.keys k e) (mode : ¬e.editorMode) (clean : Clean k)
    (follows : Follows s.screen t s.gone) (onLine : OnLine s.keys scancode) :
    Taken s t k.keyBuffer scancode (press s scancode) (keyboardCallback s.keys scancode) := by
  obtain ⟨enter,combined⟩ := onLine
  have quiet (shown : shownLine s.keys scancode = none) (other : scancode ≠ 0x0E) {b' : Buffers}
      (same : b'.keyBuffer = s.keys.keyBuffer) :
      Taken s t k.keyBuffer scancode (.ok {s with keys := b'}) (.ok b') :=
    ⟨_,_,_,rfl,rfl,show Row b'.keyBuffer _ from same ▸ holds.line,.of_follows follows rfl,
      .quiet shown (absurd · other)⟩
  unfold press keyboardCallback
  by_cases release : scancode &&& 0x80 ≠ 0
  · rw [if_pos release,if_pos release]
    refine quiet (shownLine_other ⟨?_,?_⟩) ?_ ?_
    iterate 3
      rintro rfl
      exact release rfl
    unfold released
    split_ifs <;> rfl
  rw [if_neg release,if_neg release]
  by_cases ctrl : scancode = 0x1D
  · rw [if_pos ctrl,if_pos ctrl]
    exact quiet (shownLine_other (ctrl ▸ by decide)) (ctrl ▸ by decide) rfl
  rw [if_neg ctrl,if_neg ctrl]
  by_cases shift : scancode = 0x2A ∨ scancode = 0x36
  · rw [if_pos shift,if_pos shift]
    refine quiet (shownLine_other ?_) ?_ rfl
    all_goals rcases shift with rfl | rfl <;> decide
  have interrupt : ¬(s.keys.ctrlHeld ∧ scancode = 0x2E) := fun both => combined ⟨both.1,.inl both.2⟩
  have clear : ¬(s.keys.ctrlHeld ∧ scancode = 0x26) := fun both => combined ⟨both.1,.inr both.2⟩
  have shell : ¬(s.keys.editor.editorMode ∧ scancode.toNat < scancodeAscii.length) := fun both =>
    mode (holds.apart ▸ both.1)
  rw [if_neg shift,if_neg shift,if_neg interrupt,if_neg shell,if_neg clear]
  by_cases up : scancode = 0x48
  · subst up
    rw [if_pos rfl,if_pos rfl]
    exact upArrow_taken holds clean follows
  rw [if_neg up,if_neg up]
  by_cases down : scancode = 0x50
  · subst down
    rw [if_pos rfl,if_pos rfl]
    exact downArrow_taken holds clean follows
  rw [if_neg down,if_neg down]
  by_cases inside : scancode.toNat < scancodeAscii.length
  · have small : scancode.toNat < 58 := Shell.scancodeAscii_length ▸ inside
    rw [if_pos inside,if_pos inside,holds.char inside]
    exact typedKey_taken holds follows (shownLine_other ⟨up,down⟩) (char_backspace k small)
      (char_inRow k small enter)
  · rw [if_neg inside,if_neg inside]
    refine quiet (shownLine_other ⟨up,down⟩) ?_ rfl
    rintro rfl
    exact inside (by decide)

/-! When screen and buffer agree. -/

/-- The tape becomes that of the line just when the key is exact. -/
theorem effect_exact (effect : Effect s t line scancode t' new) (held : contents s.keys.keyBuffer = line)
    (same : t = prompt.writes 4 9 line) (clear : prompt.Clear 32) (above : s.gone * 80 ≤ prompt.place) :
    t' = prompt.writes 4 9 new ↔ Exact prompt.place s.keys scancode := by
  have some' : 0 < 4 := by decide
  have ended : t.place = Tape.after 4 9 prompt.place line := same ▸ Tape.writes_place prompt line
  have longer := Tape.length_le_after some' (9 : Byte) prompt.place line
  unfold Exact
  dsimp only
  rw [held]
  cases effect with
  | quiet shown other =>
    refine iff_of_true same ⟨fun code some' => absurd (other code) some',?_⟩
    rw [shown]
    nofun
  | typed c shown other =>
    refine iff_of_true ?_ ⟨fun code => absurd code other,?_⟩
    · rw [same,Tape.writes_append]
      rfl
    · rw [shown]
      nofun
  | erased back full =>
    have apart := List.dropLast_append_getLast full
    generalize line.dropLast = front at apart ⊢
    generalize line.getLast full = c at apart
    have last : t = (prompt.writes 4 9 front).write 4 9 c := by
      rw [same,← apart,Tape.writes_append]
      rfl
    have one : Tape.after 4 9 prompt.place line = Tape.advance 4 9 (prompt.writes 4 9 front).place c := by
      rw [← apart,Tape.after_append,Tape.writes_place]
      rfl
    have behind : s.gone * 80 < t.place := by
      have more := List.length_pos_iff.mpr full
      omega
    have none : shownLine s.keys scancode = none := shownLine_other (back ▸ by decide)
    rw [backFrom_eq behind,last,Tape.back_write_iff some' (clear.writes some' front),← one,Tape.writes_place,none]
    exact ⟨fun one => ⟨fun _ _ => one,nofun⟩,fun both => both.1 back full⟩
  | replaced shown =>
    have behind : s.gone * 80 + line.length ≤ t.place := by omega
    have other : scancode ≠ 0x0E := by
      rintro rfl
      rw [shownLine_other (by decide)] at shown
      cases shown
    rw [eraseFrom_eq behind,same,Tape.rewrite_iff some' clear,shown]
    constructor
    · intro alike
      refine ⟨fun code => absurd code other,?_⟩
      rintro _ ⟨⟩
      exact alike
    · exact fun both => both.2 new rfl

/-- The tape does not change before the prompt's end, and the prompt stays on the screen. -/
theorem effect_near (effect : Effect s t line scancode t' new) (same : t = prompt.writes 4 9 line)
    (above : s.gone * 80 ≤ prompt.place) (short : line.length ≤ 255) (short' : new.length ≤ 255) :
    t'.place < prompt.place + 24 * 80 ∧ ∀ i, i < prompt.place → t'.cells i = prompt.cells i := by
  have some' : 0 < 4 := by decide
  have ended : t.place = Tape.after 4 9 prompt.place line := same ▸ Tape.writes_place prompt line
  have longer := Tape.length_le_after some' (9 : Byte) prompt.place line
  have shorter := Tape.after_le some' (9 : Byte) prompt.place line
  have before {i : Nat} (inside : i < prompt.place) : t.cells i = prompt.cells i := by
    rw [same,Tape.writes_before some' inside]
  cases effect with
  | quiet => exact ⟨by omega,fun i inside => before inside⟩
  | typed c =>
    have next := Tape.advance_le some' 9 t.place c
    refine ⟨show Tape.advance 4 9 t.place c < _ by omega,fun i inside => ?_⟩
    rw [Tape.write_before (by omega),before inside]
  | erased back full =>
    have more := List.length_pos_iff.mpr full
    rw [backFrom_eq (by omega)]
    refine ⟨show t.place - 1 < _ by omega,fun i inside => ?_⟩
    have apart : i ≠ t.place - 1 := by omega
    exact (Function.update_of_ne apart _ _).trans (before inside)
  | replaced =>
    rw [eraseFrom_eq (by omega)]
    have returned : (t.erase 32 line.length).place = t.place - line.length := Tape.erase_place line.length t
    have last := Tape.after_le some' 9 (t.erase 32 line.length).place new
    refine ⟨?_,fun i inside => ?_⟩
    · rw [Tape.writes_place]
      omega
    · have kept : i < t.place - line.length := by omega
      rw [Tape.writes_before some' (returned ▸ kept),Tape.erase_before kept,before inside]

/-- Screen and buffer agree, and the prompt is on the screen. -/
def Together (prompt : Tape Byte) (s : Console) : Prop := s.gone * 80 ≤ prompt.place ∧
  ∃ k e, Holds s.keys k e ∧ ¬e.editorMode ∧ Clean k ∧ Follows s.screen (prompt.writes 4 9 k.keyBuffer) s.gone

/-- The screen shows some tape or other. -/
def Ready (s : Console) : Prop := Typing s.keys ∧ ∃ t, Follows s.screen t s.gone

theorem Fresh.together (fresh : Fresh prompt s) : Together prompt s := by
  obtain ⟨⟨k,e,holds,mode,clean⟩,empty,follows⟩ := fresh
  have visible : s.gone ≤ prompt.place / 80 := follows.pictured.views.above
  have none : k.keyBuffer = [] := holds.line.same.symm.trans empty
  refine ⟨by omega,k,e,holds,mode,clean,?_⟩
  rw [none]
  exact follows

theorem Together.agrees (together : Together prompt s) : Agrees prompt s := by
  obtain ⟨-,k,e,holds,-,-,follows⟩ := together
  rw [Agrees,holds.line.same]
  exact follows.pictured

theorem Together.ready (together : Together prompt s) : Ready s := by
  obtain ⟨-,k,e,holds,mode,clean,follows⟩ := together
  exact ⟨⟨k,e,holds,mode,clean⟩,_,follows⟩

/-- A key with the lines that it leaves. -/
theorem step_holds (holds : Holds s.keys k e) (mode : ¬e.editorMode)
    (keys : keyboardCallback s.keys scancode = .ok s'.keys) : Holds s'.keys (lineKey k scancode) e := by
  have outside : ¬KeyBuffers.Taken s.keys scancode := fun taken => mode (holds.apart ▸ taken.mode)
  obtain ⟨b,done,holds'⟩ := holds.keyboardCallback outside
  obtain rfl := Except.ok.inj (done.symm.trans keys)
  exact holds'

theorem step_together (together : Together prompt s) (clear : prompt.Clear 32)
    (moved : Step s scancode s') : (Agrees prompt s' ↔ Exact prompt.place s.keys scancode) ∧
      (Exact prompt.place s.keys scancode → Together prompt s') := by
  obtain ⟨above,k,e,holds,mode,clean,follows⟩ := together
  obtain ⟨onLine,done⟩ := moved
  obtain ⟨next,t',new,done',keys,row,moves,effect⟩ := press_taken holds mode clean follows onLine
  obtain rfl := Except.ok.inj (done'.symm.trans done)
  have holds' := step_holds holds mode keys
  have line : (lineKey k scancode).keyBuffer = new := holds'.line.same.symm.trans row.same
  have tape := effect_exact effect holds.line.same rfl clear above
  obtain ⟨near,before⟩ := effect_near effect rfl above (Nat.le_of_lt_succ holds.line.fits)
    (Nat.le_of_lt_succ row.fits)
  have gone := moves.gone
  have above' : next.gone * 80 ≤ prompt.place := by omega
  refine ⟨?_,fun exact' => ⟨above',_,e,holds',mode,clean.lineKey scancode,?_⟩⟩
  · rw [← tape,Agrees,row.same]
    constructor
    · intro agrees
      refine moves.follows.same agrees.views (clear.writes (by decide) new) fun i inside => ?_
      rw [before i (by omega),Tape.writes_before (by decide) (by omega)]
    · rintro rfl
      exact moves.follows.pictured
  · rw [line,← tape.mpr exact']
    exact moves.follows

theorem step_ready (ready : Ready s) (onLine : OnLine s.keys scancode) :
    ∃ s', Step s scancode s' ∧ Ready s' := by
  obtain ⟨⟨k,e,holds,mode,clean⟩,t,follows⟩ := ready
  obtain ⟨s',t',new,done,keys,row,moves,effect⟩ := press_taken holds mode clean follows onLine
  exact ⟨s',⟨onLine,done⟩,⟨_,e,step_holds holds mode keys,mode,clean.lineKey scancode⟩,t',moves.follows⟩

theorem run_ready {past : List (Console × Byte)} (ready : Ready s) (run : Run Step s past s') : Ready s' := by
  refine run.invariant ready fun s scancode t before moved => ?_
  obtain ⟨next,moved',after⟩ := step_ready before moved.1
  obtain rfl := Except.ok.inj (moved'.2.symm.trans moved.2)
  exact after

/-- At a fresh prompt, screen and buffer agree all the time just when every key is exact; and there
is always a next state. -/
theorem screen_agrees_iff (fresh : Fresh prompt s) (past : List (Console × Byte)) (last : Console)
    (run : Run Step s past last) :
    ((∀ state ∈ past.map Prod.fst ++ [last], Agrees prompt state) ↔
      ∀ entry ∈ past, Exact prompt.place entry.1.keys entry.2) ∧
    ∀ scancode, OnLine last.keys scancode → ∃ next, Step last scancode next := by
  have clear := fresh.follows.clear
  have together := fresh.together
  constructor
  · exact run.exact_states_under together together.agrees
      (fun s scancode s' before exact' moved => (step_together before clear moved).2 exact')
      (fun s scancode s' before _ moved => (step_together before clear moved).1)
  · intro scancode onLine
    obtain ⟨next,moved,-⟩ := step_ready (run_ready together.ready run) onLine
    exact ⟨next,moved⟩

/-! The prompt of `shell_prompt` on a screen that was cleared. -/

def promptTape : Tape Byte :=
  (⟨fun _ => 32,0⟩ : Tape Byte).writes 4 9 (Shell.text "nimrod@kernel $ ")

def atPrompt : Console where
  keys := zeroed
  screen := ⟨fun i => makeVgaEntry (promptTape.cells i) 0x0A,16,0,0x0A,16⟩
  gone := 0

theorem atPrompt_fresh : Fresh promptTape atPrompt := by
  refine ⟨⟨atStart,zeroed.editor,zeroed_holds,nofun,nofun,nofun,nofun⟩,?_,⟨?_,rfl⟩,by decide,?_⟩
  · exact zeroed_holds.line.same
  · refine views_iff.mpr ⟨fun r k inside across => ?_,rfl,rfl,Nat.zero_le _⟩
    rw [entries_inside inside across]
    show _ = promptTape.cells ((0 + r) * 80 + k)
    rw [Nat.zero_add]
    exact makeVgaEntry_char _ _
  · exact Tape.Clear.writes (by decide) (fun _ _ => rfl) _

theorem screen_agrees_tab : ∃ tabbed, Run Step atPrompt [(atPrompt,0x0F)] tabbed ∧
    ((∀ state ∈ [(atPrompt,(0x0F : Byte))].map Prod.fst ++ [tabbed], Agrees promptTape state) ↔
      ∀ entry ∈ [(atPrompt,(0x0F : Byte))], Exact promptTape.place entry.1.keys entry.2) ∧
    ∀ scancode, OnLine tabbed.keys scancode → ∃ next, Step tabbed scancode next := by
  have onLine : OnLine atPrompt.keys 0x0F := ⟨by decide,fun both => absurd both.1 (by decide)⟩
  obtain ⟨tabbed,moved,-⟩ := step_ready atPrompt_fresh.together.ready onLine
  have run := Run.single moved
  exact ⟨tabbed,run,screen_agrees_iff atPrompt_fresh [(atPrompt,0x0F)] tabbed run⟩

/-- A Tab and a Backspace: the line is empty, and the cursor is three columns behind the prompt. -/
theorem tab_erased : ∃ tabbed erased, Step atPrompt 0x0F tabbed ∧ Step tabbed 0x0E erased ∧
    erased.keys.keyBufferLen = 0 ∧ erased.screen.cursorX = 19 ∧ atPrompt.screen.cursorX = 16 ∧
    ¬Agrees promptTape erased := by
  refine ⟨_,_,⟨⟨by decide,fun both => absurd both.1 (by decide)⟩,rfl⟩,
    ⟨⟨by decide,fun both => absurd both.1 (by decide)⟩,rfl⟩,rfl,rfl,rfl,fun agrees => ?_⟩
  have column := agrees.views.column
  exact absurd column (by decide)

end NimrodOS.KeyScreen
