import NimrodOS.KeyShows
import NimrodOS.Lib.Run
import NimrodOS.Ramfs

/-! What `cmd_edit` of `shell/shell.c` saves, and under which name. It keeps a pointer to the
name in `key_buffer`, and the keyboard goes on using that array while a session lasts. What is
printed is left out, and other commands only appear as changes of the file table. -/
namespace NimrodOS.EditorSaves

open Libc Checked KeyBuffers Ramfs Transition
open Shell (text)

/-- Where `cmd_edit` stands: behind `editor_mode = 1`, at the test of its loop, in front of and
in the loop of `editor_wait_line`, behind it, and in front of a call of `ramfs_write`. -/
inductive Stage where
  | entered | loop | reset | waiting | line
  | save (quit : Bool)
  deriving DecidableEq

/-- The variables of a session. The pointer `args` is given by its index in `key_buffer`. The name
on the command line is kept to state the results with. -/
structure Edit where
  stage : Stage
  args : Nat
  content : List Byte
  opened : List Byte

structure System where
  keys : Buffers
  files : Files
  aliases : List Shell.Alias
  edit : Option Edit

inductive Event where
  | key (scancode : Byte)
  | advance
  /-- What other commands and tasks do to the files and the aliases. -/
  | others (files : Files) (aliases : List Shell.Alias)

/-- An access outside of an array. -/
def checked {α : Type} (x : Except OutOfRange α) : Except Fault α := x.mapError fun _ => .outOfBounds

theorem checked_ok {α : Type} {x : Except OutOfRange α} {a : α} : checked x = .ok a ↔ x = .ok a := by
  cases x <;> simp [checked,Except.mapError]

/-- A string that starts inside the array; its terminator has to be found there as well. -/
def nameAt {n : Nat} (buf : Fin n → Byte) (i : Nat) : Except Fault CString :=
  if i + (stringAt buf i).length < n then .ok ⟨stringAt buf i,stringAt_noNul buf i⟩
  else .error .outOfBounds

/-- What `nameAt` gives is what the array holds. -/
theorem nameAt_iff {n i : Nat} {buf : Fin n → Byte} {f g : List Byte} (held : HoldsAt buf i f) :
    (∃ name, nameAt buf i = .ok name ∧ name.val = g) ↔ f = g := by
  obtain ⟨rfl,fits⟩ := held
  rw [nameAt,if_pos fits]
  constructor
  · rintro ⟨name,found,rfl⟩
    obtain rfl := Except.ok.inj found
    rfl
  · rintro rfl
    exact ⟨_,rfl,rfl⟩

/-! A session begins. -/

/-- No alias stands for the first word, or what it stands for is too long. -/
def inPlace (aliases : List Shell.Alias) (input : List Byte) : Bool :=
  let first := input.takeWhile (· ≠ 32)
  if first.length < 32 then
    match Shell.aliasLookup aliases first with
    | some replacement => 255 ≤ replacement.length + (input.drop first.length).length
    | none => true
  else true

/-- The line is then run as it was typed. -/
theorem inPlace_expand {aliases : List Shell.Alias} {input : List Byte} (own : inPlace aliases input) :
    Shell.expandAlias aliases input = input := by
  unfold inPlace at own
  unfold Shell.expandAlias
  dsimp only at own ⊢
  by_cases short : (input.takeWhile (· ≠ 32)).length < 32
  · rw [if_pos short] at own ⊢
    cases found : Shell.aliasLookup aliases (input.takeWhile (· ≠ 32)) with
    | none => rfl
    | some replacement =>
      simp only [found] at own ⊢
      rw [if_neg (Nat.not_lt.mpr (of_decide_eq_true own))]
  · rw [if_neg short]

/-- The file name of an `edit` command that is run from `key_buffer`. -/
def editName (aliases : List Shell.Alias) (line : List Byte) : Option (List Byte) :=
  let input := Calc.skipSpaces line
  if inPlace aliases input then
    match Shell.dispatch input with
    | .edit args => if (Calc.skipSpaces args).length = 0 then none else some (Calc.skipSpaces args)
    | _ => none
  else none

/-- The text that the session begins with. -/
def loadFile (files : Files) (name : CString) : Except Fault (List Byte) :=
  if ramfsExists files name = 0 then .ok []
  else do
    let (r,content) ← ramfsRead files name (fun _ => 0) 4095
    return (List.range (if r < 0 then 0 else r.toNat)).map content

def setMode (b : Buffers) (mode : Bool) : Buffers := {b with editor := {b.editor with editorMode := mode}}

/-- `shell_execute` and `cmd_edit` up to `editor_mode = 1`; other commands are passed over. -/
def execute (s : System) (keys : Buffers) : Except Fault System := do
  let line ← checked (readString keys.keyBuffer)
  match editName s.aliases line.val with
  | some name =>
    let args := line.val.length - name.length
    let opened ← nameAt keys.keyBuffer args
    let content ← loadFile s.files opened
    return {s with keys := setMode keys true,edit := some ⟨.entered,args,content,name⟩}
  | none =>
    let cleared ← checked (clearLine keys)
    return {s with keys := cleared}

/-- Enter outside of the editor. -/
def enterLine (s : System) : Except Fault System := do
  let b := s.keys
  let ended ← checked (Checked.set b.keyBuffer b.keyBufferLen 0)
  let pushed ← checked (historyPush {b with keyBuffer := ended} ended)
  execute s {pushed with historyPos := -1,ctrlCPressed := false}

/-- The code of Enter is the only one with a newline. -/
def pressKey (s : System) (scancode : Byte) : Except Fault System :=
  if scancode = 0x1C ∧ ¬s.keys.editor.editorMode then enterLine s
  else (checked (keyboardCallback s.keys scancode)).map fun keys => {s with keys := keys}

/-! A session goes on. -/

/-- `cmd_edit` returns to `keyboard_callback`, which empties the line. -/
def leave (s : System) : Except Fault System := do
  let cleared ← checked (clearLine (setMode s.keys false))
  return {s with keys := cleared,edit := none}

def goTo (s : System) (e : Edit) (stage : Stage) : System := {s with edit := some {e with stage := stage}}

/-- A line that is no command is added to the text if there is room. -/
def addLine (content line : List Byte) : List Byte :=
  if content.length + line.length + 1 < 4096 then content ++ line ++ [10] else content

/-- The line is looked at. -/
def takeLine (s : System) (e : Edit) (line : List Byte) : Except Fault System :=
  if strcmp line (text ":q") = 0 then leave s
  else if strcmp line (text ":w") = 0 then .ok (goTo s e (.save false))
  else if strcmp line (text ":wq") = 0 then .ok (goTo s e (.save true))
  else .ok (goTo s {e with content := addLine e.content line} .loop)

def writeOut (s : System) (e : Edit) (quit : Bool) : Except Fault System := do
  let name ← nameAt s.keys.keyBuffer e.args
  let (files,_) ← ramfsWrite s.files name (fun i => e.content.getD i 0) (BitVec.ofNat 32 e.content.length)
  if quit then leave {s with files := files} else return goTo {s with files := files} e .loop

def advance (s : System) (e : Edit) : Except Fault System :=
  match e.stage with
  | .entered => .ok (goTo {s with keys := {s.keys with ctrlCPressed := false}} e .loop)
  | .loop => if s.keys.ctrlCPressed then leave s else .ok (goTo s e .reset)
  | .reset =>
    .ok (goTo {s with keys := {s.keys with editor := {s.keys.editor with editorLineReady := false}}} e
      .waiting)
  | .waiting =>
    if ¬s.keys.editor.editorLineReady ∧ ¬s.keys.ctrlCPressed then .ok s else .ok (goTo s e .line)
  | .line =>
    if s.keys.ctrlCPressed then leave s
    else (checked (readString s.keys.editor.editorLineBuf)).bind fun line => takeLine s e line.val
  | .save quit => writeOut s e quit

def perform (s : System) : Event → Except Fault System
  | .key scancode => pressKey s scancode
  | .advance =>
    match s.edit with
    | some e => advance s e
    | none => .ok s
  | .others files aliases => .ok {s with files := files,aliases := aliases}

def Step (s : System) (event : Event) (t : System) : Prop := perform s event = .ok t

/-- Behind `keyboard_init`, with any files. -/
def boot (files : Files) : Except Fault System :=
  (checked (keyboardInit zeroed)).map fun keys => ⟨keys,files,[],none⟩

/-! What has been shown, and what is saved. -/

/-- The last line shown in a session that reaches to the place of the name. -/
def reshow (last : Option (List Byte)) (entry : System × Event) : Option (List Byte) :=
  match entry.1.edit,entry.2 with
  | some e,.key scancode =>
    match shownLine entry.1.keys scancode with
    | some line => if e.args ≤ line.length then some line else last
    | none => last
  | some _,_ => last
  | none,_ => none

def lastShown (past : List (System × Event)) : Option (List Byte) := past.foldl reshow none

/-- At the place of the name it reads as the name does. -/
def ReadsBack (past : List (System × Event)) (e : Edit) : Prop :=
  ∀ line, lastShown past = some line → line.drop e.args = e.opened

/-- A call of `ramfs_write` in a run: what has led to it, and the session that makes it. -/
structure Saves (past before : List (System × Event)) (s : System) (e : Edit) : Prop where
  session : s.edit = some e
  saving : ∃ quit, e.stage = .save quit
  taken : ∃ after, past = before ++ (s,.advance) :: after

/-- The name that it is given is that of the file that was opened. -/
def GivesName (s : System) (e : Edit) : Prop :=
  ∃ name, nameAt s.keys.keyBuffer e.args = .ok name ∧ name.val = e.opened

/-! The name on the command line. -/

section Names

variable {aliases : List Shell.Alias} {input args line name start : List Byte}

theorem startsWith_length (starts : Shell.startsWith input start) : start.length ≤ input.length := by
  induction input, start using Shell.startsWith.induct with
  | case1 input => exact Nat.zero_le _
  | case2 p start => cases starts
  | case3 c input p start ih =>
    rw [Shell.startsWith,Bool.and_eq_true] at starts
    exact Nat.succ_le_succ (ih starts.2)

/-- A test for another command has failed. -/
theorem passed_over {p : Prop} [Decidable p] {first rest command : Shell.Command}
    (found : (if p then first else rest) = command) (apart : first ≠ command) : rest = command := by
  by_cases holds : p
  · rw [if_pos holds] at found
    exact absurd found apart
  · rw [if_neg holds] at found
    exact found

theorem dispatch_edit (command : Shell.dispatch input = .edit args) :
    args = input.drop 5 ∧ 5 ≤ input.length := by
  unfold Shell.dispatch at command
  iterate 5 replace command := passed_over command nofun
  by_cases edit : Shell.startsWith input (text "edit ")
  · rw [if_pos edit] at command
    obtain rfl := Shell.Command.edit.inj command
    exact ⟨rfl,startsWith_length edit⟩
  · rw [if_neg edit] at command
    iterate 4 replace command := passed_over command nofun
    cases command

/-- It is the end of the line, behind the word `edit` and a blank. -/
theorem editName_suffix (found : editName aliases line = some name) :
    name <:+ line ∧ name.length < line.length := by
  unfold editName at found
  dsimp only at found
  split_ifs at found with own
  split at found
  next args command =>
    split_ifs at found with blank
    obtain rfl := Option.some.inj found
    obtain ⟨rfl,long⟩ := dispatch_edit command
    have skipped : Calc.skipSpaces line <:+ line := List.dropWhile_suffix _
    have trimmed : Calc.skipSpaces ((Calc.skipSpaces line).drop 5) <:+ (Calc.skipSpaces line).drop 5 :=
      List.dropWhile_suffix _
    have shorter := trimmed.length_le
    have whole := skipped.length_le
    rw [List.length_drop] at shorter
    exact ⟨trimmed.trans ((List.drop_suffix _ _).trans skipped),by omega⟩
  next => cases found

end Names

/-! Runs. -/

/-- No session is running. -/
structure Idle (s : System) : Prop where
  none : s.edit = none
  mode : s.keys.editor.editorMode = false

/-- In a session `args` points behind the front of `key_buffer`, to what the history keys have
left of the name. -/
structure Pointing (past : List (System × Event)) (s : System) (e : Edit) : Prop where
  session : s.edit = some e
  mode : s.keys.editor.editorMode = true
  behind : 0 < e.args
  reads : HoldsAt s.keys.keyBuffer e.args
    ((lastShown past).elim e.opened fun line => line.drop e.args)

def Tracked (past : List (System × Event)) (s : System) : Prop := Idle s ∨ ∃ e, Pointing past s e

section Steps

variable {past : List (System × Event)} {s t : System} {e e' : Edit} {event : Event} {scancode : Byte}
  {keys : Buffers} {line : List Byte}

theorem lastShown_snoc (entry : System × Event) :
    lastShown (past ++ [entry]) = reshow (lastShown past) entry := List.foldl_concat ..

/-- A session begins with the name in its place, and with nothing shown. -/
theorem execute_tracked (idle : Idle s) (mode : keys.editor.editorMode = false)
    (done : execute s keys = .ok t) : Tracked (past ++ [(s,event)]) t := by
  unfold execute at done
  obtain ⟨line,found,done⟩ := bind_ok.mp done
  have row : Row keys.keyBuffer line.val := readString_row (checked_ok.mp found)
  split at done
  next name command =>
    obtain ⟨opened,-,done⟩ := bind_ok.mp done
    obtain ⟨content,-,done⟩ := bind_ok.mp done
    obtain rfl := Except.ok.inj done
    obtain ⟨suffix,shorter⟩ := editName_suffix command
    have place := HoldsAt.of_row row (Nat.sub_le line.val.length name.length)
    rw [← List.suffix_iff_eq_drop.mp suffix] at place
    refine .inr ⟨_,rfl,rfl,Nat.sub_pos_of_lt shorter,?_⟩
    rw [lastShown_snoc,reshow,idle.none]
    exact place
  next =>
    obtain ⟨cleared,clears,done⟩ := bind_ok.mp done
    obtain rfl := Except.ok.inj done
    have same := (clearLine_shows (checked_ok.mp clears)).mode
    exact .inl ⟨idle.none,same.trans mode⟩

theorem pressKey_idle (idle : Idle s) (done : pressKey s scancode = .ok t) :
    Tracked (past ++ [(s,event)]) t := by
  unfold pressKey at done
  split_ifs at done with enter
  · unfold enterLine at done
    obtain ⟨ended,-,done⟩ := bind_ok.mp done
    obtain ⟨pushed,pushes,done⟩ := bind_ok.mp done
    have same := congrArg Editor.editorMode (historyPush_editor (checked_ok.mp pushes))
    refine execute_tracked idle ?_ done
    exact same.trans idle.mode
  · obtain ⟨keys,pressed,rfl⟩ := map_ok.mp done
    have same := keyboardCallback_mode (checked_ok.mp pressed)
    exact .inl ⟨idle.none,same.trans idle.mode⟩

theorem perform_idle (idle : Idle s) (done : perform s event = .ok t) :
    Tracked (past ++ [(s,event)]) t := by
  cases event with
  | key scancode => exact pressKey_idle idle done
  | advance =>
    simp only [perform,idle.none] at done
    obtain rfl := Except.ok.inj done
    exact .inl idle
  | others files aliases =>
    obtain rfl := Except.ok.inj done
    exact .inl ⟨idle.none,idle.mode⟩

/-- A key changes the name just where it shows a line that reaches it. -/
theorem pressKey_pointing (pointing : Pointing past s e) (done : pressKey s scancode = .ok t) :
    Pointing (past ++ [(s,.key scancode)]) t e := by
  obtain ⟨session,mode,behind,reads⟩ := pointing
  unfold pressKey at done
  rw [if_neg fun enter => enter.2 mode] at done
  obtain ⟨keys,pressed,rfl⟩ := map_ok.mp done
  have shows' := keyboardCallback_shows mode (checked_ok.mp pressed)
  refine ⟨session,shows'.mode.trans mode,behind,?_⟩
  have after := shows'.name _ _ behind reads
  rw [lastShown_snoc,reshow]
  simp only [session]
  cases shown : shownLine s.keys scancode with
  | none =>
    rw [shown] at after
    exact after
  | some line =>
    rw [shown] at after
    by_cases reaches : e.args ≤ line.length
    · simp only [readsAt,if_pos reaches] at after ⊢
      exact after
    · simp only [readsAt,if_neg reaches] at after ⊢
      exact after

/-- What a step of `cmd_edit` can do: return, or go on with the same pointer. -/
inductive Goes (s : System) (e : Edit) (t : System) : Prop where
  | leave (idle : Idle t)
  | on (e' : Edit) (session : t.edit = some e') (args : e'.args = e.args)
      (opened : e'.opened = e.opened) (buffer : t.keys.keyBuffer = s.keys.keyBuffer)
      (mode : t.keys.editor.editorMode = s.keys.editor.editorMode)

theorem leave_idle (done : leave s = .ok t) : Idle t := by
  unfold leave at done
  obtain ⟨cleared,clears,done⟩ := bind_ok.mp done
  obtain rfl := Except.ok.inj done
  exact ⟨rfl,(clearLine_shows (checked_ok.mp clears)).mode⟩

theorem takeLine_goes (done : takeLine s e line = .ok t) : Goes s e t := by
  unfold takeLine at done
  split_ifs at done
  · exact .leave (leave_idle done)
  all_goals
    obtain rfl := Except.ok.inj done
    exact .on _ rfl rfl rfl rfl rfl

theorem writeOut_goes {quit : Bool} (done : writeOut s e quit = .ok t) : Goes s e t := by
  unfold writeOut at done
  obtain ⟨name,-,done⟩ := bind_ok.mp done
  obtain ⟨⟨files,r⟩,-,done⟩ := bind_ok.mp done
  cases quit with
  | false =>
    obtain rfl := Except.ok.inj done
    exact .on _ rfl rfl rfl rfl rfl
  | true => exact .leave (leave_idle done)

theorem advance_goes (session : s.edit = some e) (done : advance s e = .ok t) : Goes s e t := by
  unfold advance at done
  cases stage : e.stage with
  | entered =>
    simp only [stage] at done
    obtain rfl := Except.ok.inj done
    exact .on _ rfl rfl rfl rfl rfl
  | loop =>
    simp only [stage] at done
    split_ifs at done
    · exact .leave (leave_idle done)
    · obtain rfl := Except.ok.inj done
      exact .on _ rfl rfl rfl rfl rfl
  | reset =>
    simp only [stage] at done
    obtain rfl := Except.ok.inj done
    exact .on _ rfl rfl rfl rfl rfl
  | waiting =>
    simp only [stage] at done
    split_ifs at done
    · obtain rfl := Except.ok.inj done
      exact .on e session rfl rfl rfl rfl
    · obtain rfl := Except.ok.inj done
      exact .on _ rfl rfl rfl rfl rfl
  | line =>
    simp only [stage] at done
    split_ifs at done
    · exact .leave (leave_idle done)
    · obtain ⟨line,-,done⟩ := bind_ok.mp done
      exact takeLine_goes done
  | save quit =>
    simp only [stage] at done
    exact writeOut_goes done

theorem perform_pointing (pointing : Pointing past s e) (done : perform s event = .ok t) :
    Tracked (past ++ [(s,event)]) t := by
  cases event with
  | key scancode => exact .inr ⟨e,pressKey_pointing pointing done⟩
  | advance =>
    obtain ⟨session,mode,behind,reads⟩ := pointing
    have shown : lastShown (past ++ [(s,.advance)]) = lastShown past := by
      rw [lastShown_snoc,reshow]
      simp only [session]
    simp only [perform,session] at done
    cases advance_goes session done with
    | leave idle => exact .inl idle
    | on e' session' args opened buffer same =>
      refine .inr ⟨e',session',same.trans mode,args ▸ behind,?_⟩
      rw [shown,buffer,args,opened]
      exact reads
  | others files aliases =>
    obtain ⟨session,mode,behind,reads⟩ := pointing
    obtain rfl := Except.ok.inj done
    refine .inr ⟨e,session,mode,behind,?_⟩
    rw [lastShown_snoc,reshow]
    simp only [session]
    exact reads

theorem run_tracked {start : System} (idle : Idle start) (run : Run Step start past s) :
    Tracked past s := by
  induction run with
  | nil => exact .inl idle
  | snoc _ moved ih =>
    cases ih with
    | inl idle => exact perform_idle idle moved
    | inr pointing =>
      obtain ⟨e,pointing⟩ := pointing
      exact perform_pointing pointing moved

theorem pointer_iff {start : System} (idle : Idle start) (run : Run Step start past s)
    (session : s.edit = some e) : GivesName s e ↔ ReadsBack past e := by
  obtain ⟨e',session',-,-,reads⟩ : ∃ e, Pointing past s e := by
    refine (run_tracked idle run).resolve_left fun none => ?_
    rw [none.none] at session
    cases session
  obtain rfl : e = e' := Option.some.inj (session.symm.trans session')
  rw [GivesName,nameAt_iff reads,ReadsBack]
  cases lastShown past <;> simp

/-- Nothing is shown where no history key is pressed. -/
theorem lastShown_none (quiet : ∀ entry ∈ past, entry.2 ≠ .key 0x48 ∧ entry.2 ≠ .key 0x50) :
    lastShown past = none := by
  induction past using List.reverseRecOn with
  | nil => rfl
  | append_singleton past entry ih =>
    rw [List.forall_mem_append,List.forall_mem_singleton] at quiet
    rw [lastShown_snoc,ih quiet.1]
    obtain ⟨before,event⟩ := entry
    cases event with
    | key scancode =>
      have other : shownLine before.keys scancode = none :=
        shownLine_other ⟨fun up => quiet.2.1 (up ▸ rfl),fun down => quiet.2.2 (down ▸ rfl)⟩
      cases session : before.edit <;> simp [reshow,session,other]
    | advance => cases session : before.edit <;> simp [reshow,session]
    | others files aliases => cases session : before.edit <;> simp [reshow,session]

/-- In every run from a state without a session, each call of `ramfs_write` is given the name on
the command line just when the last line shown over the name reads as the name does. -/
theorem saved_under_name_iff {start last : System} {before : List (System × Event)} (idle : Idle start)
    (run : Run Step start past last) (saves : Saves past before s e) :
    GivesName s e ↔ ReadsBack before e := by
  obtain ⟨session,-,after,rfl⟩ := saves
  exact pointer_iff idle run.split.1 session

end Steps

/-! Typed sessions. -/

/-- A boot leaves no session behind. -/
theorem boot_idle (files : Files) : ∃ start, boot files = .ok start ∧ Idle start := ⟨_,rfl,rfl,rfl⟩

def keysOf (scancodes : List Byte) : List Event := scancodes.map .key

/-- The line `echo b`. -/
def echoB : List Event := keysOf [0x12,0x2E,0x23,0x18,0x39,0x30,0x1C]

/-- The line `edit a`. -/
def editA : List Event := keysOf [0x12,0x20,0x17,0x14,0x39,0x1E,0x1C] ++ List.replicate 3 .advance

/-- The line `:w`, up to the call of `ramfs_write`. -/
def colonW : List Event := keysOf [0x2A,0x27,0xAA,0x11,0x1C] ++ List.replicate 2 .advance

/-- Where a session that can go on stands, the name it was opened with and the one it points to. -/
def outcome (s : System) : Option (Stage × List Byte × Option (List Byte)) :=
  match perform s .advance with
  | .ok _ => s.edit.map fun e =>
    (e.stage,e.opened,(nameAt s.keys.keyBuffer e.args).toOption.map Subtype.val)
  | .error _ => none

theorem typed_saves {events : List Event} {quit : Bool} {opened : List Byte}
    {given : Option (List Byte)} (done : ((boot ramfsInit).bind (events.foldlM perform)).toOption.bind
      outcome = some (.save quit,opened,given)) :
    ∃ start past last before s e, boot ramfsInit = .ok start ∧ Idle start ∧
      Run Step start past last ∧ Saves past before s e ∧ before.map Prod.snd = events ∧
      e.opened = opened ∧ (nameAt s.keys.keyBuffer e.args).toOption.map Subtype.val = given := by
  obtain ⟨start,booted,idle⟩ := boot_idle ramfsInit
  rw [booted] at done
  obtain ⟨s,typed,found⟩ := Option.bind_eq_some_iff.mp done
  have reached : events.foldlM perform start = .ok s := by
    change (events.foldlM perform start).toOption = some s at typed
    cases result : events.foldlM perform start with
    | ok t =>
      rw [result] at typed
      exact congrArg Except.ok (Option.some.inj typed)
    | error reason =>
      rw [result] at typed
      cases typed
  obtain ⟨before,labels,run⟩ := run_foldlM reached
  unfold outcome at found
  split at found
  next t moved =>
    obtain ⟨e,session,same⟩ := Option.map_eq_some_iff.mp found
    simp only [Prod.mk.injEq] at same
    obtain ⟨stage,opens,gives⟩ := same
    exact ⟨start,_,t,before,s,e,booted,idle,run.snoc moved,⟨session,⟨_,stage⟩,_,rfl⟩,labels,opens,gives⟩
  next => cases found

/-- In a session without history keys `:w` saves under the name of the command line. -/
theorem saved_under_name_typed : ∃ start past last before s e, boot ramfsInit = .ok start ∧
    Run Step start past last ∧ Saves past before s e ∧ e.opened = text "a" ∧ GivesName s e := by
  have done : ((boot ramfsInit).bind ((editA ++ colonW).foldlM perform)).toOption.bind outcome =
      some (.save false,text "a",some (text "a")) := by decide +kernel
  obtain ⟨start,past,last,before,s,e,booted,idle,run,saves,labels,opened,-⟩ := typed_saves done
  have quiet : ∀ event ∈ editA ++ colonW, event ≠ .key 0x48 ∧ event ≠ .key 0x50 := by
    simp [editA,colonW,keysOf]
  have none : lastShown before = none := by
    refine lastShown_none fun entry member => quiet _ ?_
    rw [← labels]
    exact List.mem_map_of_mem member
  refine ⟨start,past,last,before,s,e,booted,run,saves,opened,
    (saved_under_name_iff idle run saves).mpr fun line shown => ?_⟩
  rw [none] at shown
  cases shown

/-- Two history keys in the session show the line `echo b`, and `:w` saves under the name `b`. -/
theorem saved_under_another_name : ∃ start past last before s e, boot ramfsInit = .ok start ∧
    Run Step start past last ∧ Saves past before s e ∧
    before.map Prod.snd = echoB ++ editA ++ keysOf [0x48,0x48] ++ colonW ∧
    e.opened = text "a" ∧ ¬GivesName s e := by
  have done : ((boot ramfsInit).bind
      ((echoB ++ editA ++ keysOf [0x48,0x48] ++ colonW).foldlM perform)).toOption.bind outcome =
        some (.save false,text "a",some (text "b")) := by decide +kernel
  obtain ⟨start,past,last,before,s,e,booted,-,run,saves,labels,opened,given⟩ := typed_saves done
  refine ⟨start,past,last,before,s,e,booted,run,saves,labels,opened,?_⟩
  rintro ⟨name,found,same⟩
  rw [found] at given
  have other : name.val = text "b" := Option.some.inj given
  rw [same,opened] at other
  exact absurd other (by decide)

end NimrodOS.EditorSaves
