import NimrodOS.KeyRows

/-! The line editor on strings, which the arrays hold at every moment. -/
namespace NimrodOS.KeyBuffers

open Libc Checked
open Shell (Keyboard scancodeAscii scancodeAsciiShift)

/-- The size of one table bounds the accesses to both. -/
theorem tables_size : scancodeAsciiShift.length = scancodeAscii.length := by decide

/-- `typedKey` without the shell. -/
def typedLine (k : Keyboard) (c : Byte) : Keyboard :=
  if c = 8 then {k with keyBuffer := k.keyBuffer.dropLast}
  else if c = 10 then
    {k with
      history := Shell.historyPush k.history k.keyBuffer,historyPos := none,keyBuffer := []}
  else if c ≠ 0 ∧ k.keyBuffer.length < 255 then {k with keyBuffer := k.keyBuffer ++ [c]}
  else k

/-- `keyboardCallback` outside of editor mode, without the shell. -/
def lineKey (k : Keyboard) (scancode : Byte) : Keyboard :=
  if scancode &&& 0x80 ≠ 0 then Shell.released k scancode
  else if scancode = 0x1D then {k with ctrlHeld := true}
  else if scancode = 0x2A ∨ scancode = 0x36 then {k with shiftHeld := true}
  else if k.ctrlHeld ∧ scancode = 0x2E then {k with keyBuffer := [],historyPos := none}
  else if k.ctrlHeld ∧ scancode = 0x26 then k
  else if scancode = 0x48 then Shell.upArrow k
  else if scancode = 0x50 then Shell.downArrow k
  else if scancode.toNat < scancodeAscii.length then typedLine k (k.char scancode)
  else k

/-- All that a key can do to the line editor. -/
theorem lineKey_cases {motive : Keyboard → Prop} (k : Keyboard) (scancode : Byte)
    (released : motive (Shell.released k scancode)) (ctrl : motive {k with ctrlHeld := true})
    (shift : motive {k with shiftHeld := true}) (dropped : motive {k with keyBuffer := [],historyPos := none})
    (quiet : motive k) (up : motive (Shell.upArrow k)) (down : motive (Shell.downArrow k))
    (typed : scancode.toNat < 58 → motive (typedLine k (k.char scancode))) : motive (lineKey k scancode) := by
  unfold lineKey
  by_cases release : scancode &&& 0x80 ≠ 0
  · rw [if_pos release]
    exact released
  rw [if_neg release]
  by_cases ctrlKey : scancode = 0x1D
  · rw [if_pos ctrlKey]
    exact ctrl
  rw [if_neg ctrlKey]
  by_cases shiftKey : scancode = 0x2A ∨ scancode = 0x36
  · rw [if_pos shiftKey]
    exact shift
  rw [if_neg shiftKey]
  by_cases interrupt : k.ctrlHeld ∧ scancode = 0x2E
  · rw [if_pos interrupt]
    exact dropped
  rw [if_neg interrupt]
  by_cases clear : k.ctrlHeld ∧ scancode = 0x26
  · rw [if_pos clear]
    exact quiet
  rw [if_neg clear]
  by_cases upKey : scancode = 0x48
  · rw [if_pos upKey]
    exact up
  rw [if_neg upKey]
  by_cases downKey : scancode = 0x50
  · rw [if_pos downKey]
    exact down
  rw [if_neg downKey]
  by_cases inside : scancode.toNat < scancodeAscii.length
  · rw [if_pos inside]
    exact typed (Shell.scancodeAscii_length ▸ inside)
  · rw [if_neg inside]
    exact quiet

section Machine

variable {out : Shell.Outside} {iflag : Bool} {m m' : Shell.Machine} {sc : Option Byte}

theorem typedKey_line {c : Byte} (done : Shell.typedKey out iflag m c sc = .ok m') :
    m'.keyboard = typedLine m.keyboard c := by
  unfold Shell.typedKey at done
  unfold typedLine
  split_ifs at done ⊢
  · obtain rfl := Except.ok.inj done
    rfl
  · unfold Shell.enterKey at done
    simp only [bind,Except.bind] at done
    split at done
    · cases done
    · obtain rfl := Except.ok.inj done
      rfl
  all_goals
    obtain rfl := Except.ok.inj done
    rfl

/-- The keyboard's part of what a key does outside of editor mode. -/
theorem keyboardCallback_line {scancode : Byte} (line : m.shell.editorMode = false)
    (done : Shell.keyboardCallback out iflag m scancode sc = .ok m') :
    m'.keyboard = lineKey m.keyboard scancode := by
  have shell : ¬(m.shell.editorMode = true ∧ scancode.toNat < scancodeAscii.length) := by
    rw [line]
    exact fun both => Bool.false_ne_true both.1
  have plain {next : Shell.Machine} {k : Keyboard} (done : (Except.ok next : Except Shell.Stop _) = .ok m')
      (same : next.keyboard = k) : m'.keyboard = k := by
    obtain rfl := Except.ok.inj done
    exact same
  simp only [Shell.keyboardCallback,if_neg shell] at done
  unfold lineKey
  by_cases release : scancode &&& 0x80 ≠ 0
  · rw [if_pos release] at done ⊢
    exact plain done rfl
  rw [if_neg release] at done ⊢
  by_cases ctrl : scancode = 0x1D
  · rw [if_pos ctrl] at done ⊢
    exact plain done rfl
  rw [if_neg ctrl] at done ⊢
  by_cases shift : scancode = 0x2A ∨ scancode = 0x36
  · rw [if_pos shift] at done ⊢
    exact plain done rfl
  rw [if_neg shift] at done ⊢
  by_cases interrupt : m.keyboard.ctrlHeld ∧ scancode = 0x2E
  · rw [if_pos interrupt] at done ⊢
    exact plain done rfl
  rw [if_neg interrupt] at done ⊢
  by_cases clear : m.keyboard.ctrlHeld ∧ scancode = 0x26
  · rw [if_pos clear] at done ⊢
    exact plain done rfl
  rw [if_neg clear] at done ⊢
  by_cases up : scancode = 0x48
  · rw [if_pos up] at done ⊢
    exact plain done rfl
  rw [if_neg up] at done ⊢
  by_cases down : scancode = 0x50
  · rw [if_pos down] at done ⊢
    exact plain done rfl
  rw [if_neg down] at done ⊢
  by_cases inside : scancode.toNat < scancodeAscii.length
  · rw [if_pos inside] at done ⊢
    exact typedKey_line done
  · rw [if_neg inside] at done ⊢
    exact plain done rfl

end Machine

/-- The key goes to the editor. -/
structure Taken (b : Buffers) (scancode : Byte) : Prop where
  press : scancode &&& 0x80 = 0
  noCtrl : scancode ≠ 0x1D
  noShift : ¬(scancode = 0x2A ∨ scancode = 0x36)
  noInterrupt : ¬(b.ctrlHeld ∧ scancode = 0x2E)
  mode : b.editor.editorMode
  inside : scancode.toNat < scancodeAscii.length

/-- The arrays hold the line editor's strings, and the editor is in a given state. -/
structure Holds (b : Buffers) (k : Keyboard) (e : Editor) : Prop where
  line : Row b.keyBuffer k.keyBuffer
  len : b.keyBufferLen = k.keyBuffer.length
  rows : ∀ r : Fin 16, Row (b.history r) (k.history.getD r [])
  count : b.historyCount = k.history.length
  room : k.history.length ≤ 16
  pos : b.historyPos = (k.historyPos.map Int.ofNat).getD (-1)
  inside : ∀ p ∈ k.historyPos, p < k.history.length
  saved : Row b.savedInput k.savedInput
  shift : b.shiftHeld = k.shiftHeld
  ctrl : b.ctrlHeld = k.ctrlHeld
  apart : b.editor = e

variable {b : Buffers} {k : Keyboard} {e : Editor} {c scancode : Byte} {s : List Byte}

/-! The history. -/

section History

variable {history : Fin 16 → Fin 256 → Byte}

/-- Rows 1 to `max` take over what stood above them. -/
theorem shiftRows_rows (strings : Nat → List Byte) {max : Nat} (small : max < 16)
    (rows : ∀ r : Fin 16, Row (history r) (strings r)) :
    ∃ shifted, shiftRows history max = .ok shifted ∧
      ∀ r : Fin 16, Row (shifted r) (strings (if r ≤ max then r - 1 else r)) := by
  induction max generalizing history strings with
  | zero =>
    refine ⟨history,rfl,fun r => ?_⟩
    by_cases first : (r : Nat) ≤ 0
    · rw [if_pos first,Nat.sub_eq_zero_of_le (by omega),← Nat.le_zero.mp first]
      exact rows r
    · rw [if_neg first]
      exact rows r
  | succ max ih =>
    have source := rows ⟨max,by omega⟩
    obtain ⟨copied,held⟩ := copyString_row (history ⟨max + 1,small⟩) ⟨strings max,source.noNul⟩
      source.fits
    have moved : ∀ r : Fin 16, Row
        (Function.update history ⟨max + 1,small⟩
          (strcpy (history ⟨max + 1,small⟩) ⟨strings max,source.noNul⟩) r)
        (Function.update strings (max + 1) (strings max) r) := by
      intro r
      by_cases here : r = ⟨max + 1,small⟩
      · subst here
        rw [Function.update_self,Function.update_self]
        exact held
      · have apart : (r : Nat) ≠ max + 1 := fun same => here (Fin.ext same)
        rw [Function.update_of_ne here,Function.update_of_ne apart]
        exact rows r
    obtain ⟨shifted,done,held'⟩ := ih _ (by omega) moved
    refine ⟨shifted,?_,fun r => ?_⟩
    · rw [shiftRows,get_inside (i := max) (by omega)]
      simp only [bind,Except.bind,source.string,get_inside small,copied,set_inside small]
      exact done
    · have row := held' r
      by_cases below : (r : Nat) ≤ max
      · rw [if_pos below,Function.update_of_ne (by omega)] at row
        rw [if_pos (by omega)]
        exact row
      · rw [if_neg below] at row
        by_cases last : (r : Nat) = max + 1
        · rw [last,Function.update_self] at row
          rw [if_pos (by omega),last]
          exact row
        · rw [Function.update_of_ne last] at row
          rw [if_neg (by omega)]
          exact row

end History

theorem getD_push {history : List (List Byte)} {line : List Byte} (r : Fin 16) :
    (((line :: history).take 16).getD r [] : List Byte) =
      if (r : Nat) = 0 then line else history.getD (r - 1) [] := by
  rw [List.getD_eq_getElem?_getD,List.getElem?_take_of_lt r.isLt,← List.getD_eq_getElem?_getD]
  by_cases first : (r : Nat) = 0
  · rw [if_pos first,first]
    rfl
  · obtain ⟨i,here⟩ := Nat.exists_eq_succ_of_ne_zero first
    rw [if_neg first,here]
    rfl

/-! Texts that are shown and put aside. -/

/-- Another text is shown, and the rest stays. -/
theorem replaceInput_row {text : Fin 256 → Byte} (b : Buffers) (row : Row text s) : ∃ buf,
    replaceInput b text = .ok {b with keyBuffer := buf,keyBufferLen := s.length} ∧ Row buf s := by
  have fits := row.fits
  have small : ¬(s.length : Int) ≥ 256 := by omega
  have line := strncpy_row b.keyBuffer ⟨s,row.noNul⟩ ⟨s.length,fits⟩
  rw [List.take_length] at line
  unfold replaceInput
  simp only [bind,Except.bind,row.string,if_neg small]
  rw [copyBounded_at (j := ⟨s.length,fits⟩) rfl]
  simp only [set_at (j := (⟨s.length,fits⟩ : Fin 256)) rfl,line.string]
  exact ⟨_,rfl,line⟩

theorem saveInput_row (row : Row b.keyBuffer s) (len : b.keyBufferLen = s.length) : ∃ buf,
    saveInput b = .ok {b with savedInput := buf,savedLen := b.keyBufferLen,historyPos := 0} ∧
      Row buf s := by
  have saved := strncpy_row b.savedInput ⟨s,row.noNul⟩ ⟨s.length,row.fits⟩
  rw [List.take_length] at saved
  unfold saveInput
  simp only [bind,Except.bind,row.string]
  rw [copyBounded_at (j := ⟨s.length,row.fits⟩) len]
  simp only [set_at (j := (⟨s.length,row.fits⟩ : Fin 256)) len]
  exact ⟨_,rfl,saved⟩

namespace Holds

/-! One part of the keyboard changes, and the others stay. -/

/-- Another line in the buffer. -/
theorem withLine {buf : Fin 256 → Byte} {len : Int} (holds : Holds b k e) (row : Row buf s)
    (same : len = s.length) :
    Holds {b with keyBuffer := buf,keyBufferLen := len} {k with keyBuffer := s} e :=
  ⟨row,same,holds.rows,holds.count,holds.room,holds.pos,holds.inside,holds.saved,holds.shift,
    holds.ctrl,holds.apart⟩

/-- Another place in the history. -/
theorem withPos {pos : Int} {p : Option Nat} (holds : Holds b k e)
    (here : pos = (p.map Int.ofNat).getD (-1)) (inside : ∀ i ∈ p, i < k.history.length) :
    Holds {b with historyPos := pos} {k with historyPos := p} e :=
  ⟨holds.line,holds.len,holds.rows,holds.count,holds.room,here,inside,holds.saved,holds.shift,
    holds.ctrl,holds.apart⟩

/-- Behind the newest entry. -/
theorem leave (holds : Holds b k e) : Holds {b with historyPos := -1} {k with historyPos := none} e :=
  holds.withPos rfl nofun

/-- At an entry. -/
theorem move (holds : Holds b k e) {p : Nat} {pos : Int} (inside : p < k.history.length)
    (here : pos = p) : Holds {b with historyPos := pos} {k with historyPos := some p} e := by
  apply holds.withPos here
  rintro _ ⟨⟩
  exact inside

/-- Another history, which the position leaves. -/
theorem withHistory {history : Fin 16 → Fin 256 → Byte} {strings : List (List Byte)} (holds : Holds b k e)
    (rows : ∀ r : Fin 16, Row (history r) (strings.getD r [])) (room : strings.length ≤ 16) :
    Holds {b with history := history,historyCount := strings.length,historyPos := -1}
      {k with history := strings,historyPos := none} e :=
  ⟨holds.line,holds.len,rows,rfl,room,rfl,nofun,holds.saved,holds.shift,holds.ctrl,holds.apart⟩

/-- Another line put aside. -/
theorem withSaved {buf : Fin 256 → Byte} {len : Int} (holds : Holds b k e) (row : Row buf s) :
    Holds {b with savedInput := buf,savedLen := len} {k with savedInput := s} e :=
  ⟨holds.line,holds.len,holds.rows,holds.count,holds.room,holds.pos,holds.inside,row,holds.shift,
    holds.ctrl,holds.apart⟩

/-- Other modifiers held. -/
theorem withHeld (holds : Holds b k e) {shift ctrl shift' ctrl' : Bool} (sameShift : shift = shift')
    (sameCtrl : ctrl = ctrl') : Holds {b with shiftHeld := shift,ctrlHeld := ctrl}
      {k with shiftHeld := shift',ctrlHeld := ctrl'} e :=
  ⟨holds.line,holds.len,holds.rows,holds.count,holds.room,holds.pos,holds.inside,holds.saved,
    sameShift,sameCtrl,holds.apart⟩

/-- The line editor does not look at the flag of `ctrl_c`. -/
theorem withPressed (holds : Holds b k e) (pressed : Bool) : Holds {b with ctrlCPressed := pressed} k e :=
  ⟨holds.line,holds.len,holds.rows,holds.count,holds.room,holds.pos,holds.inside,holds.saved,
    holds.shift,holds.ctrl,holds.apart⟩

/-! What the functions do. -/

/-- Whether the line repeats the last entry. -/
theorem repeated (holds : Holds b k e) (line : CString) : KeyBuffers.repeated b line =
    .ok (k.history.head?.any fun last => strcmp last line.val = 0) := by
  have count := holds.count
  have row := holds.rows 0
  unfold KeyBuffers.repeated
  cases known : k.history with
  | nil =>
    rw [known] at count
    rw [if_neg (by rw [count]; decide)]
    rfl
  | cons last older =>
    rw [known] at count row
    rw [List.length_cons] at count
    have front : get b.history 0 = .ok (b.history 0) := get_at rfl
    rw [if_pos (by omega),front]
    simp only [bind,Except.bind]
    rw [row.string]
    rfl

/-- The rows behind a push. -/
theorem pushLine (holds : Holds b k e) (line : CString) (fits : line.val.length < 256) :
    ∃ history, KeyBuffers.pushLine b line =
        .ok {b with history := history,historyCount := ((line.val :: k.history).take 16).length} ∧
      ∀ r : Fin 16, Row (history r) (((line.val :: k.history).take 16).getD r []) := by
  have count := holds.count
  have room := holds.room
  have length : ((line.val :: k.history).take 16).length = min 16 (k.history.length + 1) := by
    rw [List.length_take,List.length_cons]
  have moves : (if b.historyCount < 16 - 1 then b.historyCount else 16 - 1).toNat =
      min k.history.length 15 := by
    split_ifs <;> omega
  have few : min k.history.length 15 < 16 := by omega
  obtain ⟨shifted,done,rows⟩ := shiftRows_rows (fun r => k.history.getD r []) few holds.rows
  have front := strncpy_row (shifted 0) line 255
  have total : (if b.historyCount < 16 then b.historyCount + 1 else b.historyCount) =
      (((line.val :: k.history).take 16).length : Int) := by
    rw [length]
    split_ifs <;> omega
  have whole : line.val.take (255 : Fin 256) = line.val :=
    List.take_of_length_le (Nat.le_of_lt_succ fits)
  rw [whole] at front
  have top : get shifted 0 = .ok (shifted 0) := get_at rfl
  refine ⟨Function.update shifted 0
    (Function.update (strncpy (shifted 0) line 255) 255 0),?_,fun r => ?_⟩
  · have ended : Checked.set (strncpy (shifted 0) line 255) (256 - 1) 0 =
        .ok (Function.update (strncpy (shifted 0) line 255) 255 0) := set_at rfl
    have stored : ∀ row, Checked.set shifted 0 row = .ok (Function.update shifted 0 row) := fun row =>
      set_at rfl
    have copied : copyBounded (shifted 0) line (256 - 1) = .ok (strncpy (shifted 0) line 255) :=
      copyBounded_at (j := 255) rfl
    unfold KeyBuffers.pushLine
    simp only [bind,Except.bind,moves,done,top,copied,ended,stored,total]
    rfl
  · rw [getD_push]
    by_cases first : r = 0
    · subst first
      rw [Function.update_self]
      exact front
    · have later : (r : Nat) ≠ 0 := fun zero => first (Fin.ext zero)
      have row := rows r
      rw [Function.update_of_ne first,if_neg later]
      split_ifs at row with inside
      · exact row
      · rw [List.getD_eq_default _ _ (by omega)] at row ⊢
        exact row

/-- Pushing the line in the buffer. -/
theorem historyPush (holds : Holds b k e) : ∃ history count,
    KeyBuffers.historyPush b b.keyBuffer = .ok {b with history := history,historyCount := count} ∧
      Holds {b with history := history,historyCount := count,historyPos := -1}
        {k with history := Shell.historyPush k.history k.keyBuffer,historyPos := none} e := by
  unfold KeyBuffers.historyPush Shell.historyPush
  simp only [bind,Except.bind,holds.line.string,holds.repeated]
  by_cases blank : k.keyBuffer.length = 0
  · rw [if_pos blank,if_pos blank]
    exact ⟨_,_,rfl,holds.leave⟩
  · rw [if_neg blank,if_neg blank]
    by_cases same : k.history.head?.any fun last => strcmp last k.keyBuffer = 0
    · rw [if_pos same,if_pos same]
      exact ⟨_,_,rfl,holds.leave⟩
    · rw [if_neg same,if_neg same]
      obtain ⟨history,done,rows⟩ := holds.pushLine ⟨k.keyBuffer,holds.line.noNul⟩ holds.line.fits
      exact ⟨history,_,done,holds.withHistory rows (List.length_take_le ..)⟩

/-- Showing another text. -/
theorem replaceInput {text : Fin 256 → Byte} (holds : Holds b k e) (row : Row text s) :
    ∃ b', KeyBuffers.replaceInput b text = .ok b' ∧ Holds b' (k.replaceInput s) e := by
  obtain ⟨buf,done,line⟩ := replaceInput_row b row
  have whole : s.take 255 = s := List.take_of_length_le (Nat.le_of_lt_succ row.fits)
  rw [Shell.Keyboard.replaceInput,whole]
  exact ⟨_,done,holds.withLine line rfl⟩

/-- Showing the entry that the position names. -/
theorem showEntry {p : Nat} (holds : Holds b k e) (here : k.historyPos = some p) :
    ∃ b', KeyBuffers.showEntry b = .ok b' ∧ Holds b' (k.replaceInput (k.history.getD p [])) e := by
  have inside := holds.inside p here
  have room := holds.room
  have pos := holds.pos
  rw [here] at pos
  have row := holds.rows ⟨p,inside.trans_le room⟩
  unfold KeyBuffers.showEntry
  simp only [get_at (j := (⟨p,inside.trans_le room⟩ : Fin 16)) pos,bind,Except.bind]
  exact holds.replaceInput row

theorem saveInput (holds : Holds b k e) (some' : 0 < k.history.length) :
    ∃ b', KeyBuffers.saveInput b = .ok b' ∧
      Holds b' {k with historyPos := some 0,savedInput := k.keyBuffer} e := by
  obtain ⟨buf,done,saved⟩ := saveInput_row holds.line holds.len
  exact ⟨_,done,(holds.withSaved saved).move some' rfl⟩

theorem upArrow (holds : Holds b k e) :
    ∃ b', KeyBuffers.upArrow b = .ok b' ∧ Holds b' (Shell.upArrow k) e := by
  have count := holds.count
  have pos := holds.pos
  unfold KeyBuffers.upArrow Shell.upArrow
  by_cases none : k.history.length = 0
  · rw [if_pos none,if_pos (by omega)]
    exact ⟨b,rfl,holds⟩
  · rw [if_neg none,if_neg (by omega)]
    cases browsing : k.historyPos with
    | none =>
      rw [browsing] at pos
      obtain ⟨saved,done,held⟩ := holds.saveInput (Nat.pos_of_ne_zero none)
      rw [if_pos (show b.historyPos = -1 from pos)]
      simp only [bind,Except.bind,done]
      exact held.showEntry rfl
    | some p =>
      rw [browsing] at pos
      have here : b.historyPos = (p : Int) := pos
      rw [if_neg (by omega)]
      by_cases older : p + 1 < k.history.length
      · rw [if_pos (by omega)]
        simp only [if_pos older]
        exact (holds.move older (by omega)).showEntry rfl
      · rw [if_neg (by omega)]
        simp only [if_neg older]
        exact ⟨b,rfl,holds⟩

theorem downArrow (holds : Holds b k e) :
    ∃ b', KeyBuffers.downArrow b = .ok b' ∧ Holds b' (Shell.downArrow k) e := by
  have pos := holds.pos
  unfold KeyBuffers.downArrow Shell.downArrow
  cases browsing : k.historyPos with
  | none =>
    rw [browsing] at pos
    have before : b.historyPos < 0 := pos.trans_lt (by decide)
    rw [if_pos before]
    exact ⟨b,rfl,holds⟩
  | some p =>
    rw [browsing] at pos
    have here : b.historyPos = (p : Int) := pos
    have inside := holds.inside p browsing
    rw [if_neg (by omega)]
    cases p with
    | zero =>
      have last : b.historyPos - 1 = -1 := by omega
      have back := holds.withPos (p := none) last nofun
      rw [if_pos (by omega)]
      exact back.replaceInput holds.saved
    | succ p =>
      rw [if_neg (by omega)]
      have newer : p < k.history.length := Nat.lt_of_succ_lt inside
      exact (holds.move newer (by omega)).showEntry rfl

/-- Emptying the line. -/
theorem clearLine (holds : Holds b k e) :
    ∃ b', KeyBuffers.clearLine b = .ok b' ∧ Holds b' {k with keyBuffer := []} e := by
  have cleared := holds.line.cut (Nat.zero_le _)
  have zero : Checked.set b.keyBuffer 0 0 = .ok (Function.update b.keyBuffer 0 0) := set_at rfl
  unfold KeyBuffers.clearLine
  simp only [bind,Except.bind,zero]
  exact ⟨_,rfl,holds.withLine cleared rfl⟩

theorem ctrlC (holds : Holds b k e) :
    ∃ b', KeyBuffers.ctrlC b = .ok b' ∧ Holds b' {k with keyBuffer := [],historyPos := none} e := by
  obtain ⟨b',done,cleared⟩ := (holds.withPressed true).clearLine
  unfold KeyBuffers.ctrlC
  simp only [bind,Except.bind,done]
  exact ⟨_,rfl,cleared.leave⟩

theorem enterKey (holds : Holds b k e) : ∃ b', KeyBuffers.enterKey b = .ok b' ∧ Holds b' {k with
    history := Shell.historyPush k.history k.keyBuffer,historyPos := none,keyBuffer := []} e := by
  have ended := holds.line.cut (Nat.le_refl _)
  rw [List.take_length] at ended
  obtain ⟨history,count,done,pushed⟩ := (holds.withLine ended holds.len).historyPush
  obtain ⟨b',cleared,held⟩ := pushed.clearLine
  unfold KeyBuffers.enterKey
  rw [set_at (j := ⟨_,holds.line.fits⟩) holds.len]
  simp only [bind,Except.bind]
  simp only at done
  rw [done]
  exact ⟨b',cleared,held⟩

theorem typedKey (holds : Holds b k e) (c : Byte) :
    ∃ b', KeyBuffers.typedKey b c = .ok b' ∧ Holds b' (typedLine k c) e := by
  have len := holds.len
  have fits := holds.line.fits
  unfold KeyBuffers.typedKey typedLine
  by_cases back : c = 8
  · rw [if_pos back,if_pos back,List.dropLast_eq_take]
    by_cases some' : 0 < k.keyBuffer.length
    · have place : b.keyBufferLen - 1 = (k.keyBuffer.length - 1 : Nat) := by omega
      have cut := holds.line.cut (Nat.sub_le k.keyBuffer.length 1)
      rw [if_pos (by omega),set_at (j := ⟨k.keyBuffer.length - 1,by omega⟩) place]
      refine ⟨_,rfl,holds.withLine cut ?_⟩
      rw [place,List.length_take_of_le (Nat.sub_le ..)]
    · rw [if_neg (by omega),List.take_of_length_le (by omega)]
      exact ⟨b,rfl,holds⟩
  · rw [if_neg back,if_neg back]
    by_cases enter : c = 10
    · rw [if_pos enter,if_pos enter]
      exact holds.enterKey
    · rw [if_neg enter,if_neg enter]
      by_cases room : c ≠ 0 ∧ k.keyBuffer.length < 255
      · have place : b.keyBufferLen + 1 = (k.keyBuffer.length + 1 : Nat) := by omega
        have row := holds.line.push room.1 (Nat.le_refl _) (by omega)
        have space : c ≠ 0 ∧ b.keyBufferLen < 256 - 1 := ⟨room.1,by omega⟩
        rw [if_pos room,if_pos space,set_at (j := ⟨k.keyBuffer.length,fits⟩) len]
        simp only [bind,Except.bind,
          set_at (j := (⟨k.keyBuffer.length + 1,by omega⟩ : Fin 256)) place]
        rw [List.take_length] at row
        exact ⟨_,rfl,holds.withLine row (by simp [len])⟩
      · have full : ¬(c ≠ 0 ∧ b.keyBufferLen < 256 - 1) := fun both => room ⟨both.1,by omega⟩
        rw [if_neg room,if_neg full]
        exact ⟨b,rfl,holds⟩

theorem released (holds : Holds b k e) (scancode : Byte) :
    Holds (KeyBuffers.released b (scancode &&& 0x7F)) (Shell.released k scancode) e := by
  simp only [KeyBuffers.released,Shell.released]
  split_ifs
  · exact holds.withHeld rfl holds.ctrl
  · exact holds.withHeld holds.shift rfl
  · exact holds

theorem char (holds : Holds b k e) (inside : scancode.toNat < scancodeAscii.length) :
    KeyBuffers.char b scancode = .ok (k.char scancode) := by
  have inside' : scancode.toNat < scancodeAsciiShift.length := inside.trans_eq tables_size.symm
  unfold KeyBuffers.char Shell.Keyboard.char
  rw [holds.shift]
  split_ifs
  · rw [get_inside inside',List.getD_eq_getElem _ _ inside']
    rfl
  · rw [get_inside inside,List.getD_eq_getElem _ _ inside]
    rfl

theorem keyboardCallback (holds : Holds b k e) (shell : ¬Taken b scancode) :
    ∃ b', KeyBuffers.keyboardCallback b scancode = .ok b' ∧ Holds b' (lineKey k scancode) e := by
  unfold KeyBuffers.keyboardCallback lineKey
  by_cases release : scancode &&& 0x80 ≠ 0
  · rw [if_pos release,if_pos release]
    exact ⟨_,rfl,holds.released scancode⟩
  rw [if_neg release,if_neg release]
  by_cases ctrl : scancode = 0x1D
  · rw [if_pos ctrl,if_pos ctrl]
    exact ⟨_,rfl,holds.withHeld holds.shift rfl⟩
  rw [if_neg ctrl,if_neg ctrl]
  by_cases shift : scancode = 0x2A ∨ scancode = 0x36
  · rw [if_pos shift,if_pos shift]
    exact ⟨_,rfl,holds.withHeld rfl holds.ctrl⟩
  rw [if_neg shift,if_neg shift]
  by_cases interrupt : b.ctrlHeld ∧ scancode = 0x2E
  · rw [if_pos interrupt,if_pos (holds.ctrl ▸ interrupt)]
    exact holds.ctrlC
  have outside : ¬(b.editor.editorMode = true ∧ scancode.toNat < scancodeAscii.length) := fun both =>
    shell ⟨not_not.mp release,ctrl,shift,interrupt,both.1,both.2⟩
  have interrupt' : ¬(k.ctrlHeld ∧ scancode = 0x2E) := holds.ctrl ▸ interrupt
  rw [if_neg interrupt,if_neg outside,if_neg interrupt',holds.ctrl]
  by_cases clear : k.ctrlHeld ∧ scancode = 0x26
  · rw [if_pos clear,if_pos clear]
    unfold redraw
    rw [holds.line.string]
    exact ⟨b,rfl,holds⟩
  rw [if_neg clear,if_neg clear]
  by_cases up : scancode = 0x48
  · rw [if_pos up,if_pos up]
    exact holds.upArrow
  rw [if_neg up,if_neg up]
  by_cases down : scancode = 0x50
  · rw [if_pos down,if_pos down]
    exact holds.downArrow
  rw [if_neg down,if_neg down]
  by_cases inside : scancode.toNat < scancodeAscii.length
  · rw [if_pos inside,if_pos inside,holds.char inside]
    exact holds.typedKey (k.char scancode)
  · rw [if_neg inside,if_neg inside]
    exact ⟨b,rfl,holds⟩

end Holds

/-- The keyboard as `keyboard_init` leaves it. -/
def atStart : Keyboard := ⟨[],[],none,[],false,false,0⟩

theorem zeroed_holds : Holds zeroed atStart zeroed.editor := by
  have empty (n : Nat) : Row (fun _ : Fin (n + 1) => (0 : Byte)) [] :=
    .of_chars List.not_mem_nil (Nat.zero_lt_succ n) nofun rfl
  exact ⟨empty _,rfl,fun _ => empty _,rfl,Nat.zero_le _,rfl,nofun,empty _,rfl,rfl,rfl⟩

theorem keyboardInit_holds : ∃ b, keyboardInit zeroed = .ok b ∧ Holds b atStart zeroed.editor := by
  obtain ⟨b,done,cleared⟩ := zeroed_holds.clearLine
  unfold keyboardInit
  rw [done]
  exact ⟨_,rfl,cleared.withHistory cleared.rows (Nat.zero_le _)⟩

/-- What the line editor keeps true of its arrays. -/
structure Sound (b : Buffers) : Prop where
  length : 0 ≤ b.keyBufferLen ∧ b.keyBufferLen ≤ 255
  terminated : ∀ i : Fin 256, (i : Int) = b.keyBufferLen → b.keyBuffer i = 0
  solid : ∀ i : Fin 256, (i : Int) < b.keyBufferLen → b.keyBuffer i ≠ 0
  entries : ∀ r, ∃ i, b.history r i = 0
  saved : ∃ i, b.savedInput i = 0
  position : -1 ≤ b.historyPos ∧ b.historyPos < b.historyCount ∧ b.historyCount ≤ 16

theorem Holds.sound (holds : Holds b k e) : Sound b := by
  have len := holds.len
  have fits := holds.line.fits
  have count := holds.count
  have room := holds.room
  refine ⟨⟨by omega,by omega⟩,?_,?_,fun r => ⟨_,(holds.rows r).ends⟩,⟨_,holds.saved.ends⟩,?_⟩
  · intro i last
    obtain rfl : i = ⟨k.keyBuffer.length,fits⟩ := Fin.ext (by simp; omega)
    exact holds.line.ends
  · intro i before
    have inside : (i : Nat) < k.keyBuffer.length := by omega
    have same : b.keyBuffer i = k.keyBuffer[i] := holds.line.char inside
    rw [same]
    exact fun zero => holds.line.noNul (zero ▸ List.getElem_mem inside)
  · have pos := holds.pos
    cases browsing : k.historyPos with
    | none =>
      rw [browsing] at pos
      have current : b.historyPos = -1 := pos
      omega
    | some p =>
      rw [browsing] at pos
      have here : b.historyPos = (p : Int) := pos
      have inside := holds.inside p browsing
      omega

/-- Behind `keyboard_init`, any keys outside of editor mode keep the line editor sound, without
an access outside of an array. -/
theorem line_editor_sound (scancodes : List Byte) :
    ∃ start b, keyboardInit zeroed = .ok start ∧
      scancodes.foldlM keyboardCallback start = .ok b ∧ Sound b := by
  obtain ⟨start,done,initial⟩ := keyboardInit_holds
  have kept : ∀ (scancodes : List Byte) (b : Buffers) (k : Keyboard), Holds b k zeroed.editor →
      ∃ b', scancodes.foldlM keyboardCallback b = .ok b' ∧
        Holds b' (scancodes.foldl lineKey k) zeroed.editor := by
    intro scancodes
    induction scancodes with
    | nil => exact fun b k holds => ⟨b,rfl,holds⟩
    | cons scancode scancodes ih =>
      intro b k holds
      have shell : ¬Taken b scancode := by
        intro taken
        have mode := taken.mode
        rw [holds.apart] at mode
        cases mode
      obtain ⟨next,moved,holds'⟩ := holds.keyboardCallback shell
      rw [List.foldlM_cons,moved]
      exact ih next _ holds'
  obtain ⟨b,typed,holds⟩ := kept scancodes start atStart initial
  exact ⟨start,b,done,typed,holds.sound⟩

end NimrodOS.KeyBuffers
