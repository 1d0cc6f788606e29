import NimrodOS.KeyLines
import NimrodOS.Lib.Run

/-! Sessions of `cmd_edit` in `shell/shell.c`, with the keys that arrive in between. The text
that is edited and saved is left out. -/
namespace NimrodOS.KeyBuffers

open Libc Checked Transition
open Shell (text scancodeAscii scancodeAsciiShift)

/-- Where `cmd_edit` stands: nowhere, behind `editor_mode = 1`, at the test of its loop, in
front of and in the loop of `editor_wait_line`, and behind it. -/
inductive Phase where
  | idle | entered | loop | reset | waiting | line
  deriving DecidableEq

structure System where
  keys : Buffers
  phase : Phase

inductive Event where
  | key (scancode : Byte)
  | start
  | advance
  deriving DecidableEq

def withEditor (s : System) (editor : Editor) (phase : Phase) : System :=
  ⟨{s.keys with editor := editor},phase⟩

def begin (s : System) : System := withEditor s {s.keys.editor with editorMode := true} .entered

def leave (s : System) : System := withEditor s {s.keys.editor with editorMode := false} .idle

def advance (s : System) : Except OutOfRange System :=
  match s.phase with
  | .idle => return s
  | .entered => return ⟨{s.keys with ctrlCPressed := false},.loop⟩
  | .loop => if s.keys.ctrlCPressed then return leave s else return {s with phase := .reset}
  | .reset => return withEditor s {s.keys.editor with editorLineReady := false} .waiting
  | .waiting =>
    if ¬s.keys.editor.editorLineReady ∧ ¬s.keys.ctrlCPressed then return s
    else return {s with phase := .line}
  | .line =>
    if s.keys.ctrlCPressed then return leave s
    else do
      let line ← readString s.keys.editor.editorLineBuf
      if strcmp line.val (text ":q") = 0 ∨ strcmp line.val (text ":wq") = 0 then return leave s
      else return {s with phase := .loop}

def perform (s : System) : Event → Except OutOfRange System
  | .key scancode => (keyboardCallback s.keys scancode).map fun keys => {s with keys := keys}
  | .start => return begin s
  | .advance => advance s

/-- A session starts when none is going on. -/
def Step (s : System) (e : Event) (t : System) : Prop :=
  (e = .start → s.phase = .idle) ∧ perform s e = .ok t

/-! What is typed. -/

theorem taken_iff (b : Buffers) (scancode : Byte) : Taken b scancode ↔ scancode &&& 0x80 = 0 ∧
    scancode ≠ 0x1D ∧ ¬(scancode = 0x2A ∨ scancode = 0x36) ∧ ¬(b.ctrlHeld ∧ scancode = 0x2E) ∧
      b.editor.editorMode ∧ scancode.toNat < scancodeAscii.length := by
  constructor
  · rintro ⟨press,noCtrl,noShift,noInterrupt,mode,inside⟩
    exact ⟨press,noCtrl,noShift,noInterrupt,mode,inside⟩
  · rintro ⟨press,noCtrl,noShift,noInterrupt,mode,inside⟩
    exact ⟨press,noCtrl,noShift,noInterrupt,mode,inside⟩

instance (b : Buffers) (scancode : Byte) : Decidable (Taken b scancode) :=
  decidable_of_iff' _ (taken_iff b scancode)

def typedChar (s : System) (scancode : Byte) : Byte :=
  (if s.keys.shiftHeld then scancodeAsciiShift else scancodeAscii).getD scancode.toNat 0

/-- A line after one more character. -/
def editLine (line : List Byte) (c : Byte) : List Byte :=
  if c = 8 then line.dropLast
  else if c = 10 then []
  else if c ≠ 0 ∧ line.length < 254 then line ++ [c]
  else line

/-- A line after one more event, when a session does not begin a new one. -/
def retain (line : List Byte) (entry : System × Event) : List Byte :=
  match entry.2 with
  | .key scancode =>
    if Taken entry.1.keys scancode then editLine line (typedChar entry.1 scancode) else line
  | _ => line

/-- A line after one more event. -/
def memorise (line : List Byte) (entry : System × Event) : List Byte :=
  match entry.2 with
  | .start => []
  | _ => retain line entry

/-- What was typed since the session started and since the last Enter. -/
def typedSince (past : List (System × Event)) : List Byte := past.foldl memorise []

/-- The key delivers a line. -/
def Enters (s : System) (scancode : Byte) : Prop :=
  Taken s.keys scancode ∧ typedChar s scancode = 10

/-- Enter leaves what was typed in the buffer. -/
def DeliversTyped (past : List (System × Event)) (s : System) : Prop :=
  ∀ scancode t, Step s (.key scancode) t → Enters s scancode →
    t.keys.editor.editorLineReady = true ∧ contents t.keys.editor.editorLineBuf = typedSince past

/-- A session that starts finds no characters of an unfinished line. -/
def StartsClean (entry : System × Event) : Prop :=
  entry.2 = .start → entry.1.keys.editor.elen = 0

/-! The buffer. -/

/-- The first bytes of the buffer are the line. -/
structure Keeps (e : Editor) (line : List Byte) : Prop where
  len : e.elen = line.length
  short : line.length ≤ 254
  held : ∃ s, Row e.editorLineBuf s ∧ line <+: s

variable {e : Editor} {line : List Byte} {c scancode : Byte} {s t : System}

namespace Keeps

/-- Cutting the buffer behind the first characters of the line. -/
theorem cut (keeps : Keeps e line) {i : Nat} (inside : i ≤ line.length) :
    Row (Function.update e.editorLineBuf ⟨i,by have := keeps.short; omega⟩ 0) (line.take i) := by
  obtain ⟨held,row,front⟩ := keeps.held
  have below := inside.trans front.length_le
  have same : held.take i = line.take i := by
    rw [List.prefix_iff_eq_take.mp front,List.take_take,Nat.min_eq_left inside]
  exact same ▸ row.cut below

theorem push (keeps : Keeps e line) (some' : c ≠ 0) (room : line.length < 254) :
    Row (Function.update (Function.update e.editorLineBuf ⟨line.length,by omega⟩ c)
      ⟨line.length + 1,by omega⟩ 0) (line ++ [c]) := by
  obtain ⟨held,row,front⟩ := keeps.held
  have pushed := row.push some' front.length_le (by omega)
  rw [← List.prefix_iff_eq_take.mp front] at pushed
  exact pushed

theorem editorKey (keeps : Keeps e line) (c : Byte) :
    ∃ e', KeyBuffers.editorKey e c = .ok e' ∧ Keeps e' (editLine line c) ∧
      (c = 10 → e'.editorLineReady = true ∧ contents e'.editorLineBuf = line) := by
  have len := keeps.len
  have short := keeps.short
  unfold KeyBuffers.editorKey editLine
  by_cases back : c = 8
  · rw [if_pos back,if_pos back]
    have notEnter : c ≠ 10 := by
      rw [back]
      decide
    by_cases some' : 0 < line.length
    · have place : e.elen - 1 = (line.length - 1 : Nat) := by omega
      have cut := keeps.cut (Nat.sub_le line.length 1)
      rw [← List.dropLast_eq_take] at cut
      rw [if_pos (by omega),set_at (j := ⟨line.length - 1,by omega⟩) place]
      refine ⟨_,rfl,⟨?_,?_,_,cut,List.prefix_rfl⟩,fun enter => absurd enter notEnter⟩
      · rw [List.length_dropLast]
        exact place
      · rw [List.length_dropLast]
        omega
    · have empty : line = [] := List.eq_nil_of_length_eq_zero (by omega)
      rw [if_neg (by omega),empty,List.dropLast_nil,← empty]
      exact ⟨e,rfl,keeps,fun enter => absurd enter notEnter⟩
  · rw [if_neg back,if_neg back]
    by_cases enter : c = 10
    · have cut := keeps.cut (Nat.le_refl _)
      rw [List.take_length] at cut
      rw [if_pos enter,if_pos enter,set_at (j := ⟨line.length,by omega⟩) len]
      exact ⟨_,rfl,⟨rfl,Nat.zero_le _,_,cut,List.nil_prefix⟩,fun _ => ⟨rfl,cut.same⟩⟩
    · rw [if_neg enter,if_neg enter]
      by_cases room : c ≠ 0 ∧ line.length < 254
      · have space : c ≠ 0 ∧ e.elen < 254 := ⟨room.1,by omega⟩
        have place : e.elen + 1 = (line.length + 1 : Nat) := by omega
        have pushed := keeps.push room.1 room.2
        rw [if_pos room,if_pos space,set_at (j := ⟨line.length,by omega⟩) len]
        simp only [bind,Except.bind,set_at (j := (⟨line.length + 1,by omega⟩ : Fin 256)) place]
        refine ⟨_,rfl,⟨?_,?_,_,pushed,List.prefix_rfl⟩,fun key => absurd key enter⟩
        · rw [List.length_append,List.length_singleton]
          exact place
        · rw [List.length_append,List.length_singleton]
          exact room.2
      · have full : ¬(c ≠ 0 ∧ e.elen < 254) := fun both => room ⟨both.1,by omega⟩
        rw [if_neg room,if_neg full]
        exact ⟨e,rfl,keeps,fun key => absurd key enter⟩

/-- The flags do not matter. -/
theorem flags (keeps : Keeps e line) (mode ready : Bool) :
    Keeps {e with editorMode := mode,editorLineReady := ready} line :=
  ⟨keeps.len,keeps.short,keeps.held⟩

end Keeps

/-! Steps and runs. -/

theorem retain_taken (taken : Taken s.keys scancode) :
    retain line (s,.key scancode) = editLine line (typedChar s scancode) := if_pos taken

theorem retain_other (shell : ¬Taken s.keys scancode) : retain line (s,.key scancode) = line :=
  if_neg shell

structure Tracks (s : System) (line : List Byte) : Prop where
  keyboard : ∃ k, Holds s.keys k s.keys.editor
  keeps : Keeps s.keys.editor line

/-- The line editor does not look at the editor's variables. -/
theorem Holds.withEditor {b : Buffers} {k : Shell.Keyboard} (holds : Holds b k e) (e' : Editor) :
    Holds {b with editor := e'} k e' :=
  ⟨holds.line,holds.len,holds.rows,holds.count,holds.room,holds.pos,holds.inside,holds.saved,
    holds.shift,holds.ctrl,rfl⟩

/-- A key of the editor. -/
theorem keyboardCallback_taken {b : Buffers} (taken : Taken b scancode) :
    keyboardCallback b scancode = (char b scancode).bind fun c =>
      (editorKey b.editor c).map fun editor => {b with editor := editor} := by
  obtain ⟨press,noCtrl,noShift,noInterrupt,mode,inside⟩ := taken
  rw [keyboardCallback,if_neg (not_not.mpr press),if_neg noCtrl,if_neg noShift,if_neg noInterrupt,
    if_pos ⟨mode,inside⟩]
  cases char b scancode with
  | error fault => rfl
  | ok c =>
    simp only [bind,Except.bind]
    cases editorKey b.editor c <;> rfl

namespace Tracks

/-- A key is taken into the line or leaves it alone. -/
theorem key (tracks : Tracks s line) (scancode : Byte) : ∃ t, perform s (.key scancode) = .ok t ∧
    Tracks t (retain line (s,.key scancode)) ∧ (Enters s scancode →
      t.keys.editor.editorLineReady = true ∧ contents t.keys.editor.editorLineBuf = line) := by
  obtain ⟨k,holds⟩ := tracks.keyboard
  by_cases taken : Taken s.keys scancode
  · have typed : char s.keys scancode = .ok (typedChar s scancode) := by
      rw [holds.char taken.inside,Shell.Keyboard.char,← holds.shift]
      rfl
    obtain ⟨e',done,keeps,entered⟩ := tracks.keeps.editorKey (typedChar s scancode)
    refine ⟨⟨{s.keys with editor := e'},s.phase⟩,?_,⟨⟨k,holds.withEditor e'⟩,?_⟩,?_⟩
    · rw [perform,keyboardCallback_taken taken,typed]
      simp only [Except.bind,done,Except.map]
    · rw [retain_taken taken]
      exact keeps
    · exact fun enters => entered enters.2
  · obtain ⟨b,done,holds'⟩ := holds.keyboardCallback taken
    refine ⟨{s with keys := b},?_,⟨⟨_,holds'.apart.symm ▸ holds'⟩,?_⟩,fun enters => absurd enters.1 taken⟩
    · rw [perform,done]
      rfl
    · rw [retain_other taken]
      exact holds'.apart.symm ▸ tracks.keeps

/-- Steps of `cmd_edit` only set flags. -/
theorem thread (tracks : Tracks s line) (mode ready pressed : Bool) (phase : Phase) :
    Tracks ⟨{s.keys with
      ctrlCPressed := pressed
      editor := {s.keys.editor with editorMode := mode,editorLineReady := ready}},phase⟩ line := by
  obtain ⟨k,holds⟩ := tracks.keyboard
  exact ⟨⟨k,(holds.withPressed pressed).withEditor _⟩,tracks.keeps.flags mode ready⟩

theorem advance (tracks : Tracks s line) :
    ∃ t, KeyBuffers.advance s = .ok t ∧ Tracks t line := by
  have thread := tracks.thread
  have held := tracks.keeps.held
  obtain ⟨keys,phase⟩ := s
  cases phase with
  | idle => exact ⟨_,rfl,tracks⟩
  | entered => exact ⟨_,rfl,thread _ _ _ _⟩
  | loop =>
    simp only [KeyBuffers.advance]
    split_ifs
    · exact ⟨_,rfl,thread _ _ _ _⟩
    · exact ⟨_,rfl,thread _ _ _ _⟩
  | reset => exact ⟨_,rfl,thread _ _ _ _⟩
  | waiting =>
    simp only [KeyBuffers.advance]
    split_ifs
    · exact ⟨_,rfl,tracks⟩
    · exact ⟨_,rfl,thread _ _ _ _⟩
  | line =>
    obtain ⟨whole,row,-⟩ := held
    simp only [KeyBuffers.advance,row.string]
    simp only [bind,Except.bind]
    split_ifs
    · exact ⟨_,rfl,thread _ _ _ _⟩
    · exact ⟨_,rfl,thread _ _ _ _⟩
    · exact ⟨_,rfl,thread _ _ _ _⟩

theorem step (tracks : Tracks s line) {event : Event} (step : Step s event t) :
    Tracks t (retain line (s,event)) := by
  have performed := step.2
  cases event with
  | key scancode =>
    obtain ⟨next,done,tracks',-⟩ := tracks.key scancode
    obtain rfl := Except.ok.inj (done.symm.trans performed)
    exact tracks'
  | start =>
    obtain rfl := Except.ok.inj performed
    exact tracks.thread _ _ _ _
  | advance =>
    obtain ⟨next,done,tracks'⟩ := tracks.advance
    obtain rfl := Except.ok.inj (done.symm.trans performed)
    exact tracks'

end Tracks

/-- What is in the buffer, whichever session it was typed in. -/
def heldLine (past : List (System × Event)) : List Byte := past.foldl retain []

variable {past : List (System × Event)} {origin : System}

theorem run_tracks (initial : Tracks origin []) (run : Run Step origin past s) :
    Tracks s (heldLine past) := by
  induction run with
  | nil => exact initial
  | snoc _ moved ih =>
    rw [heldLine,List.foldl_append]
    exact ih.step moved

/-- Enter delivers what is in the buffer. -/
theorem run_delivers (initial : Tracks origin []) (run : Run Step origin past s)
    (pressed : Step s (.key scancode) t) (enters : Enters s scancode) :
    t.keys.editor.editorLineReady = true ∧ contents t.keys.editor.editorLineBuf = heldLine past := by
  obtain ⟨next,done,-,delivered⟩ := (run_tracks initial run).key scancode
  obtain rfl := Except.ok.inj (done.symm.trans pressed.2)
  exact delivered enters

theorem heldLine_nil_iff (initial : Tracks origin []) (run : Run Step origin past s) :
    s.keys.editor.elen = 0 ↔ heldLine past = [] := by
  rw [(run_tracks initial run).keeps.len,Int.natCast_eq_zero,List.length_eq_zero_iff]

/-- Without a leftover, the sessions make no difference. -/
theorem typed_eq_held (initial : Tracks origin []) (run : Run Step origin past s)
    (clean : ∀ entry ∈ past, StartsClean entry) : typedSince past = heldLine past := by
  induction run with
  | nil => rfl
  | @snoc past state next label prior moved ih =>
    rw [List.forall_mem_append,List.forall_mem_singleton] at clean
    have same := ih clean.1
    rw [typedSince,heldLine,List.foldl_append,List.foldl_append]
    show memorise (typedSince past) (state,label) = retain (heldLine past) (state,label)
    rw [same]
    cases label with
    | start => exact ((heldLine_nil_iff initial prior).mp (clean.2 rfl)).symm
    | _ => rfl

/-- Within a session, the line grows as it is typed. -/
theorem session_held {future : List (System × Event)}
    (session : ∀ entry ∈ future, entry.2 ≠ .start) (line : List Byte) :
    future.foldl memorise line = future.foldl retain line := by
  refine List.foldl_ext _ _ _ fun line entry member => ?_
  obtain ⟨state,event⟩ := entry
  cases event with
  | start => exact absurd rfl (session _ member)
  | _ => rfl

/-- The Enter key in a session. -/
theorem enters_enter (mode : s.keys.editor.editorMode = true) : Enters s 0x1C := by
  have inside : (0x1C : Byte).toNat < scancodeAscii.length := by decide
  refine ⟨⟨rfl,by decide,by decide,fun both => absurd both.2 (by decide),mode,inside⟩,?_⟩
  unfold typedChar
  split_ifs <;> decide

theorem tracks_start {start : Buffers} (booted : keyboardInit zeroed = .ok start) :
    Tracks ⟨start,.idle⟩ [] := by
  obtain ⟨b,done,holds⟩ := keyboardInit_holds
  obtain rfl := Except.ok.inj (done.symm.trans booted)
  have zeros : Row zeroed.editor.editorLineBuf [] :=
    .of_chars List.not_mem_nil (by decide) nofun rfl
  have keeps : Keeps zeroed.editor [] := ⟨rfl,Nat.zero_le _,[],zeros,List.prefix_rfl⟩
  exact ⟨⟨_,holds.apart.symm ▸ holds⟩,holds.apart.symm ▸ keeps⟩

/-- A session that starts with a leftover delivers it at an immediate Enter. -/
theorem leftover_wrong (initial : Tracks origin []) (run : Run Step origin past s)
    (moved : Step s .start t) (right : DeliversTyped (past ++ [(s,.start)]) t) :
    heldLine past = [] := by
  have begun := run.snoc moved
  have opened : t = begin s := (Except.ok.inj moved.2).symm
  obtain ⟨u,done,-⟩ := (run_tracks initial begun).key 0x1C
  have pressed : Step t (.key 0x1C) u := ⟨nofun,done⟩
  have enters : Enters t 0x1C := enters_enter (by rw [opened]; rfl)
  have delivered := run_delivers initial begun pressed enters
  have typed := right 0x1C u pressed enters
  rw [typed.2,typedSince,heldLine,List.foldl_append,List.foldl_append] at delivered
  exact delivered.2.symm

/-- Events in a session, or between two, make a run. -/
theorem run_events {events : List Event} (session : ∀ event ∈ events, event ≠ .start)
    (done : events.foldlM perform s = .ok t) : ∃ past, past.map Prod.snd = events ∧ Run Step s past t := by
  obtain ⟨past,rfl,run⟩ := run_foldlM done
  refine ⟨past,rfl,run.mono fun before event after member performed => ⟨fun start => ?_,performed⟩⟩
  exact absurd start (session event (List.mem_map_of_mem member))

/-- In a run whose sessions all start without a leftover, every line is delivered as it was
typed. A session that starts with one delivers a wrong line at some Enter. -/
theorem lines_as_typed {start : Buffers} (booted : keyboardInit zeroed = .ok start) :
    (∀ past s, Run Step ⟨start,.idle⟩ past s → (∀ entry ∈ past, StartsClean entry) →
      DeliversTyped past s) ∧
    ∀ past s t, Run Step ⟨start,.idle⟩ past s → Step s .start t →
      ((∀ future u, Run Step t future u → (∀ entry ∈ future, entry.2 ≠ .start) →
        DeliversTyped (past ++ (s,.start) :: future) u) ↔ s.keys.editor.elen = 0) := by
  have initial := tracks_start booted
  constructor
  · intro past s run clean scancode t pressed enters
    rw [typed_eq_held initial run clean]
    exact run_delivers initial run pressed enters
  · intro past s t run moved
    rw [heldLine_nil_iff initial run]
    constructor
    · intro right
      exact leftover_wrong initial run moved (right [] t .nil (by simp))
    · intro none future u rest session scancode v pressed enters
      have whole : Run Step ⟨start,.idle⟩ (past ++ (s,.start) :: future) u :=
        run.trans (Run.cons moved rest)
      have typed : typedSince (past ++ (s,.start) :: future) = future.foldl memorise [] := by
        rw [typedSince,List.foldl_append]
        rfl
      have held : heldLine (past ++ (s,.start) :: future) = future.foldl retain (heldLine past) := by
        rw [heldLine,List.foldl_append]
        rfl
      rw [typed,session_held session,← none,← held]
      exact run_delivers initial whole pressed enters

/-- Three characters and a backspace, as the first session may go. -/
def corrected : List Event :=
  [.advance,.advance,.advance,.key 0x1E,.key 0x30,.key 0x2E,.key 0x0E]

/-- Then Enter delivers what is left of them. -/
theorem lines_as_typed_corrected : ∃ start past s t, keyboardInit zeroed = .ok start ∧
    past.map Prod.snd = .start :: corrected ∧ Run Step ⟨start,.idle⟩ past s ∧ DeliversTyped past s ∧
    Step s (.key 0x1C) t ∧ Enters s 0x1C ∧ contents t.keys.editor.editorLineBuf = text "ab" := by
  obtain ⟨start,booted,holds⟩ := keyboardInit_holds
  have fresh : start.editor.elen = 0 := by rw [holds.apart]; rfl
  have ends : ∃ s t, corrected.foldlM perform (begin ⟨start,.idle⟩) = .ok s ∧ perform s (.key 0x1C) = .ok t ∧
      s.keys.editor.editorMode = true ∧ contents t.keys.editor.editorLineBuf = text "ab" := by
    obtain rfl := Except.ok.inj booted
    exact ⟨_,_,rfl,rfl,rfl,by decide⟩
  obtain ⟨s,t,done,pressed,mode,line⟩ := ends
  have opened : Step ⟨start,.idle⟩ .start (begin ⟨start,.idle⟩) := ⟨fun _ => rfl,rfl⟩
  obtain ⟨past,typed,run⟩ := run_events (by decide) done
  have whole := Run.cons opened run
  refine ⟨start,_,s,t,booted,?_,whole,(lines_as_typed booted).1 _ _ whole ?_,
    ⟨(fun other => by cases other),pressed⟩,enters_enter mode,line⟩
  · rw [List.map_cons,typed]
  intro entry member started
  rcases List.mem_cons.mp member with rfl | later
  · exact fresh
  · have event := List.mem_map_of_mem (f := Prod.snd) later
    rw [typed,started] at event
    exact absurd event (by decide)

/-- Two characters and Ctrl+C, as the first session may go. -/
def interrupted : List Event :=
  [.advance,.advance,.advance,.key 0x1E,.key 0x30,.key 0x1D,.key 0x2E,.advance,.advance]

/-- What is left behind is delivered when the next session begins with Enter. -/
theorem leftover_delivered : ∃ start, keyboardInit zeroed = .ok start ∧
    ¬∀ past s, Run Step ⟨start,.idle⟩ past s → DeliversTyped past s := by
  obtain ⟨start,booted,-⟩ := keyboardInit_holds
  refine ⟨start,booted,fun right => ?_⟩
  have initial := tracks_start booted
  have ends : ∃ s, interrupted.foldlM perform (begin ⟨start,.idle⟩) = .ok s ∧ s.phase = .idle ∧
      s.keys.editor.elen = 2 := by
    obtain rfl := Except.ok.inj booted
    exact ⟨_,rfl,rfl,rfl⟩
  obtain ⟨s,done,idle,left⟩ := ends
  have opened : Step ⟨start,.idle⟩ .start (begin ⟨start,.idle⟩) := ⟨fun _ => rfl,rfl⟩
  obtain ⟨past,-,run⟩ := run_events (by decide) done
  have whole := Run.cons opened run
  have again : Step s .start (begin s) := ⟨fun _ => idle,rfl⟩
  have none := leftover_wrong initial whole again (right _ _ (whole.snoc again))
  rw [← heldLine_nil_iff initial whole,left] at none
  exact absurd none (by decide)

end NimrodOS.KeyBuffers
