import NimrodOS.KeyRows

/-! What the keys leave of a string that lies somewhere in `key_buffer`, as long as the editor
takes the characters. -/
namespace NimrodOS.KeyBuffers

open Libc Checked
open Shell (scancodeAscii)

/-! Strings inside the array. -/

section Strings

variable {n i : Nat} {buf buf' : Fin n → Byte} {line f : List Byte}

/-- The characters from a place on. -/
def stringAt (buf : Fin n → Byte) (i : Nat) : List Byte := ((List.ofFn buf).drop i).takeWhile (· ≠ 0)

theorem stringAt_noNul (buf : Fin n → Byte) (i : Nat) : 0 ∉ stringAt buf i := by
  intro member
  simpa using List.mem_takeWhile_imp member

/-- Only the bytes from its start on make a string. -/
theorem stringAt_congr (same : ∀ j : Fin n, i ≤ j → buf j = buf' j) :
    stringAt buf i = stringAt buf' i := by
  have tail : (List.ofFn buf).drop i = (List.ofFn buf').drop i := by
    apply List.ext_getElem
    · simp
    · intro j left right
      rw [List.length_drop,List.length_ofFn] at left
      simpa using same ⟨i + j,by omega⟩ (Nat.le_add_right i j)
  rw [stringAt,stringAt,tail]

/-- Inside of the first string it is the rest of that string. -/
theorem stringAt_row (row : Row buf line) (inside : i ≤ line.length) :
    stringAt buf i = line.drop i := by
  obtain ⟨rfl,-⟩ := row
  have parts : List.ofFn buf = contents buf ++ (List.ofFn buf).dropWhile (· ≠ 0) :=
    List.takeWhile_append_dropWhile.symm
  have chars : ∀ c ∈ contents buf, decide (c ≠ 0) = true := fun _ => List.mem_takeWhile_imp
  have stops : ((List.ofFn buf).dropWhile (· ≠ 0)).takeWhile (· ≠ 0) = [] := by
    have whole : contents buf = (contents buf ++ (List.ofFn buf).dropWhile (· ≠ 0)).takeWhile (· ≠ 0) :=
      congrArg (List.takeWhile _) parts
    rw [List.takeWhile_append_of_pos chars] at whole
    exact List.append_right_eq_self.mp whole.symm
  have rest : (List.ofFn buf).drop i = (contents buf).drop i ++ (List.ofFn buf).dropWhile (· ≠ 0) := by
    rw [← List.drop_append_of_le_length inside,← parts]
  rw [stringAt,rest,List.takeWhile_append_of_pos fun c member => chars c (List.mem_of_mem_drop member),
    stops,List.append_nil]

/-- The array holds a string from a place on. -/
def HoldsAt (buf : Fin n → Byte) (i : Nat) (f : List Byte) : Prop :=
  stringAt buf i = f ∧ i + f.length < n

theorem HoldsAt.of_row (row : Row buf line) (inside : i ≤ line.length) :
    HoldsAt buf i (line.drop i) := by
  have fits := row.fits
  refine ⟨stringAt_row row inside,?_⟩
  rw [List.length_drop]
  omega

theorem HoldsAt.congr (held : HoldsAt buf i f) (same : ∀ j : Fin n, i ≤ j → buf j = buf' j) :
    HoldsAt buf' i f := ⟨(stringAt_congr same).symm.trans held.1,held.2⟩

end Strings

/-! What the history keys show. -/

def entryLine (b : Buffers) (i : Int) : Option (List Byte) :=
  match get b.history i with
  | .ok row => some (contents row)
  | .error _ => none

/-- The line that a key writes over the one in `key_buffer`. -/
def shownLine (b : Buffers) (scancode : Byte) : Option (List Byte) :=
  if scancode = 0x48 then
    if b.historyCount = 0 then none
    else if b.historyPos = -1 then entryLine b 0
    else if b.historyPos < b.historyCount - 1 then entryLine b (b.historyPos + 1)
    else none
  else if scancode = 0x50 then
    if b.historyPos < 0 then none
    else if b.historyPos - 1 < 0 then some (contents b.savedInput)
    else entryLine b (b.historyPos - 1)
  else none

/-! What a key does to the array behind its first byte. -/

/-- What is read at a place once a line has been shown. -/
def readsAt (shown : Option (List Byte)) (i : Nat) (f : List Byte) : List Byte :=
  match shown with
  | some line => if i ≤ line.length then line.drop i else f
  | none => f

/-- A key has shown a line, or left the array alone, and the mode is as before. -/
structure Shows (b b' : Buffers) (shown : Option (List Byte)) : Prop where
  name : ∀ i f, 0 < i → HoldsAt b.keyBuffer i f → HoldsAt b'.keyBuffer i (readsAt shown i f)
  mode : b'.editor.editorMode = b.editor.editorMode

section Keys

variable {b b' : Buffers} {text : Fin 256 → Byte} {scancode c : Byte} {e e' : Editor}

theorem Shows.quiet (same : b'.keyBuffer = b.keyBuffer)
    (mode : b'.editor.editorMode = b.editor.editorMode) : Shows b b' none := by
  refine ⟨fun i f _ held => ?_,mode⟩
  rw [same]
  exact held

theorem readString_row {line : CString} (found : readString text = .ok line) : Row text line.val := by
  unfold readString at found
  split_ifs at found with fits
  obtain rfl := Except.ok.inj found
  exact ⟨rfl,fits⟩

/-- The line is written to the front, and the bytes behind its terminator stay. -/
theorem replaceInput_shows (done : replaceInput b text = .ok b') : Shows b b' (some (contents text)) := by
  unfold replaceInput at done
  obtain ⟨line,found,done⟩ := bind_ok.mp done
  have row := readString_row found
  have fits := row.fits
  have small : ¬(line.val.length : Int) ≥ 256 := by omega
  have shown := strncpy_row b.keyBuffer line ⟨line.val.length,fits⟩
  rw [List.take_length] at shown
  simp only [if_neg small] at done
  rw [copyBounded_at (j := ⟨line.val.length,fits⟩) rfl] at done
  simp only [bind,Except.bind,set_at (j := (⟨line.val.length,fits⟩ : Fin 256)) rfl,shown.string] at done
  obtain rfl := Except.ok.inj done
  refine ⟨fun i f _ held => ?_,rfl⟩
  rw [readsAt,row.same]
  dsimp only
  split_ifs with inside
  · exact .of_row shown inside
  · refine held.congr fun j behind => ?_
    have apart : j ≠ ⟨line.val.length,fits⟩ := by
      rintro rfl
      exact inside behind
    have later : ¬(j : Nat) < line.val.length := by omega
    rw [Function.update_of_ne apart,strncpy,if_neg later]

theorem showEntry_shows (done : showEntry b = .ok b') : Shows b b' (entryLine b b.historyPos) := by
  unfold showEntry at done
  obtain ⟨row,found,done⟩ := bind_ok.mp done
  rw [entryLine,found]
  exact replaceInput_shows done

/-- Only the line put aside and the position change. -/
theorem saveInput_same (done : saveInput b = .ok b') :
    ∃ saved len, b' = {b with savedInput := saved,savedLen := len,historyPos := 0} := by
  unfold saveInput at done
  obtain ⟨_,-,done⟩ := bind_ok.mp done
  obtain ⟨_,-,done⟩ := bind_ok.mp done
  obtain ⟨_,-,done⟩ := bind_ok.mp done
  obtain rfl := Except.ok.inj done
  exact ⟨_,_,rfl⟩

theorem upArrow_shows (done : upArrow b = .ok b') : Shows b b' (shownLine b 0x48) := by
  rw [shownLine,if_pos rfl]
  unfold upArrow at done
  split_ifs at done ⊢ with none first older
  · obtain rfl := Except.ok.inj done
    exact .quiet rfl rfl
  · obtain ⟨saved,put,done⟩ := bind_ok.mp done
    obtain ⟨_,_,rfl⟩ := saveInput_same put
    have shows' := showEntry_shows done
    exact ⟨shows'.name,shows'.mode⟩
  · have shows' := showEntry_shows done
    exact ⟨shows'.name,shows'.mode⟩
  · obtain rfl := Except.ok.inj done
    exact .quiet rfl rfl

theorem downArrow_shows (done : downArrow b = .ok b') : Shows b b' (shownLine b 0x50) := by
  rw [shownLine,if_neg (by decide),if_pos rfl]
  unfold downArrow at done
  split_ifs at done ⊢ with current last
  · obtain rfl := Except.ok.inj done
    exact .quiet rfl rfl
  · have shows' := replaceInput_shows done
    exact ⟨shows'.name,shows'.mode⟩
  · have shows' := showEntry_shows done
    exact ⟨shows'.name,shows'.mode⟩

theorem editorKey_mode (done : editorKey e c = .ok e') : e'.editorMode = e.editorMode := by
  unfold editorKey at done
  split_ifs at done
  · obtain ⟨_,-,done⟩ := bind_ok.mp done
    obtain rfl := Except.ok.inj done
    rfl
  · obtain rfl := Except.ok.inj done
    rfl
  · obtain ⟨_,-,done⟩ := bind_ok.mp done
    obtain rfl := Except.ok.inj done
    rfl
  · obtain ⟨_,-,done⟩ := bind_ok.mp done
    obtain ⟨_,-,done⟩ := bind_ok.mp done
    obtain rfl := Except.ok.inj done
    rfl
  · obtain rfl := Except.ok.inj done
    rfl

/-- The first byte is all that is cleared. -/
theorem clearLine_shows (done : clearLine b = .ok b') : Shows b b' none := by
  unfold clearLine at done
  obtain ⟨cleared,zeroed,done⟩ := bind_ok.mp done
  have first : Checked.set b.keyBuffer 0 0 = .ok (Function.update b.keyBuffer 0 0) := set_at rfl
  obtain rfl := Except.ok.inj (first.symm.trans zeroed)
  obtain rfl := Except.ok.inj done
  refine ⟨fun i f positive held => held.congr fun j behind => ?_,rfl⟩
  have apart : j ≠ 0 := by
    rintro rfl
    exact absurd behind (Nat.not_le.mpr positive)
  exact (Function.update_of_ne apart ..).symm

theorem ctrlC_shows (done : ctrlC b = .ok b') : Shows b b' none := by
  unfold ctrlC at done
  obtain ⟨cleared,clears,done⟩ := bind_ok.mp done
  obtain rfl := Except.ok.inj done
  have shows' := clearLine_shows clears
  exact ⟨shows'.name,shows'.mode⟩

/-- The history keys are all that show a line. -/
theorem shownLine_other (other : scancode ≠ 0x48 ∧ scancode ≠ 0x50) :
    shownLine b scancode = none := by rw [shownLine,if_neg other.1,if_neg other.2]

/-- What a key can do with the line. -/
inductive Presses (b : Buffers) (scancode : Byte) (b' : Buffers) : Prop where
  | quiet (other : scancode ≠ 0x48 ∧ scancode ≠ 0x50) (buffer : b'.keyBuffer = b.keyBuffer)
      (mode : b'.editor.editorMode = b.editor.editorMode)
  | interrupt (code : scancode = 0x2E) (done : ctrlC b = .ok b')
  | up (code : scancode = 0x48) (done : upArrow b = .ok b')
  | down (code : scancode = 0x50) (done : downArrow b = .ok b')
  | typed (outside : ¬b.editor.editorMode) (c : Byte) (done : typedKey b c = .ok b')

theorem keyboardCallback_presses (done : keyboardCallback b scancode = .ok b') :
    Presses b scancode b' := by
  unfold keyboardCallback at done
  by_cases release : scancode &&& 0x80 ≠ 0
  · rw [if_pos release] at done
    obtain rfl := Except.ok.inj done
    refine .quiet ⟨?_,?_⟩ ?_ ?_
    · rintro rfl
      exact release rfl
    · rintro rfl
      exact release rfl
    all_goals
      unfold released
      split_ifs <;> rfl
  rw [if_neg release] at done
  by_cases ctrl : scancode = 0x1D
  · rw [if_pos ctrl] at done
    obtain rfl := Except.ok.inj done
    exact .quiet (ctrl ▸ by decide) rfl rfl
  rw [if_neg ctrl] at done
  by_cases shift : scancode = 0x2A ∨ scancode = 0x36
  · rw [if_pos shift] at done
    obtain rfl := Except.ok.inj done
    refine .quiet ?_ rfl rfl
    rcases shift with rfl | rfl <;> decide
  rw [if_neg shift] at done
  by_cases interrupt : b.ctrlHeld ∧ scancode = 0x2E
  · rw [if_pos interrupt] at done
    exact .interrupt interrupt.2 done
  rw [if_neg interrupt] at done
  by_cases editor : b.editor.editorMode ∧ scancode.toNat < scancodeAscii.length
  · rw [if_pos editor] at done
    obtain ⟨_,-,done⟩ := bind_ok.mp done
    obtain ⟨e,typed,done⟩ := bind_ok.mp done
    obtain rfl := Except.ok.inj done
    refine .quiet ⟨?_,?_⟩ rfl (editorKey_mode typed)
    · rintro rfl
      exact absurd editor.2 (by decide)
    · rintro rfl
      exact absurd editor.2 (by decide)
  rw [if_neg editor] at done
  by_cases clear : b.ctrlHeld ∧ scancode = 0x26
  · rw [if_pos clear] at done
    obtain ⟨_,-,done⟩ := bind_ok.mp done
    obtain rfl := Except.ok.inj done
    exact .quiet (clear.2 ▸ by decide) rfl rfl
  rw [if_neg clear] at done
  by_cases up : scancode = 0x48
  · rw [if_pos up] at done
    exact .up up done
  rw [if_neg up] at done
  by_cases down : scancode = 0x50
  · rw [if_pos down] at done
    exact .down down done
  rw [if_neg down] at done
  by_cases inside : scancode.toNat < scancodeAscii.length
  · rw [if_pos inside] at done
    obtain ⟨c,-,done⟩ := bind_ok.mp done
    exact .typed (fun mode => editor ⟨mode,inside⟩) c done
  · rw [if_neg inside] at done
    obtain rfl := Except.ok.inj done
    exact .quiet ⟨up,down⟩ rfl rfl

/-- In editor mode the history keys alone reach the array, apart from its first byte. -/
theorem keyboardCallback_shows (mode : b.editor.editorMode)
    (done : keyboardCallback b scancode = .ok b') : Shows b b' (shownLine b scancode) := by
  cases keyboardCallback_presses done with
  | quiet other buffer same =>
    rw [shownLine_other other]
    exact .quiet buffer same
  | interrupt code done =>
    rw [code]
    exact ctrlC_shows done
  | up code done =>
    rw [code]
    exact upArrow_shows done
  | down code done =>
    rw [code]
    exact downArrow_shows done
  | typed outside => exact absurd mode outside

/-! The mode outside of a session. -/

theorem historyPush_editor (done : historyPush b text = .ok b') : b'.editor = b.editor := by
  unfold historyPush at done
  obtain ⟨line,-,done⟩ := bind_ok.mp done
  split_ifs at done with blank
  · obtain rfl := Except.ok.inj done
    rfl
  · obtain ⟨same,-,done⟩ := bind_ok.mp done
    split_ifs at done with again
    · obtain rfl := Except.ok.inj done
      rfl
    · unfold pushLine at done
      obtain ⟨_,-,done⟩ := bind_ok.mp done
      obtain ⟨_,-,done⟩ := bind_ok.mp done
      obtain ⟨_,-,done⟩ := bind_ok.mp done
      obtain ⟨_,-,done⟩ := bind_ok.mp done
      obtain ⟨_,-,done⟩ := bind_ok.mp done
      obtain rfl := Except.ok.inj done
      rfl

theorem enterKey_mode (done : enterKey b = .ok b') :
    b'.editor.editorMode = b.editor.editorMode := by
  unfold enterKey at done
  obtain ⟨_,-,done⟩ := bind_ok.mp done
  obtain ⟨pushed,pushes,done⟩ := bind_ok.mp done
  have same := historyPush_editor pushes
  exact (clearLine_shows done).mode.trans (congrArg Editor.editorMode same)

theorem typedKey_mode (done : typedKey b c = .ok b') :
    b'.editor.editorMode = b.editor.editorMode := by
  unfold typedKey at done
  split_ifs at done
  · obtain ⟨_,-,done⟩ := bind_ok.mp done
    obtain rfl := Except.ok.inj done
    rfl
  · obtain rfl := Except.ok.inj done
    rfl
  · exact enterKey_mode done
  · obtain ⟨_,-,done⟩ := bind_ok.mp done
    obtain ⟨_,-,done⟩ := bind_ok.mp done
    obtain rfl := Except.ok.inj done
    rfl
  · obtain rfl := Except.ok.inj done
    rfl

theorem keyboardCallback_mode (done : keyboardCallback b scancode = .ok b') :
    b'.editor.editorMode = b.editor.editorMode := by
  cases keyboardCallback_presses done with
  | quiet _ _ same => exact same
  | interrupt _ done => exact (ctrlC_shows done).mode
  | up _ done => exact (upArrow_shows done).mode
  | down _ done => exact (downArrow_shows done).mode
  | typed _ _ done => exact typedKey_mode done

end Keys

end NimrodOS.KeyBuffers
