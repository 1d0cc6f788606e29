import Mathlib.Data.List.Destutter
import NimrodOS.EditorLines
import NimrodOS.KeyShows

/-! The history of `drivers/keyboard.c`: which lines it keeps, and how the arrow keys go through
them. -/
namespace NimrodOS.KeyHistory

open Libc Checked KeyBuffers Transition
open Shell (Keyboard)

variable {b b' : Buffers} {k : Keyboard} {e : Editor} {buf : Fin 256 → Byte} {scancode c : Byte}
  {lines : List (List Byte)} {line : List Byte} {past : List (Buffers × Option (List Byte))}

/-! Lines that are entered. -/

/-- The lines to keep, the newest one in front. -/
def kept (lines : List (List Byte)) : List (List Byte) :=
  (lines.filter (· ≠ [])).reverse.destutter (· ≠ ·)

/-- What goes on at a prompt: something is typed, a command turns to the editor or back, a key is
pressed that enters no line, or Enter is pressed. -/
inductive Step : Buffers → Option (List Byte) → Buffers → Prop where
  | typed {b : Buffers} {buf : Fin 256 → Byte} {line : List Byte} (row : Row buf line) :
      Step b none {b with keyBuffer := buf,keyBufferLen := line.length}
  | edit {b : Buffers} (editor : Editor) : Step b none {b with editor := editor}
  | key {b b' : Buffers} {scancode : Byte} (other : scancode = 0x1C → Taken b 0x1C)
      (done : keyboardCallback b scancode = .ok b') : Step b none b'
  | enter {b b' : Buffers} {line : List Byte} (shell : ¬Taken b 0x1C) (row : Row b.keyBuffer line)
      (len : b.keyBufferLen = line.length) (done : keyboardCallback b 0x1C = .ok b') : Step b (some line) b'

/-- The lines entered in a run. -/
def entered (past : List (Buffers × Option (List Byte))) : List (List Byte) := past.filterMap Prod.snd

/-- The rows in use hold these lines. -/
structure HistoryHolds (b : Buffers) (lines : List (List Byte)) : Prop where
  count : b.historyCount = lines.length
  room : lines.length ≤ 16
  rows : ∀ r : Fin 16, ∀ inside : (r : Nat) < lines.length, Row (b.history r) lines[(r : Nat)]

/-! Runs of equal lines. -/

theorem kept_head (line : List Byte) (lines : List (List Byte)) :
    (line :: lines).destutter (· ≠ ·) =
      if lines.head? = some line then lines.destutter (· ≠ ·) else line :: lines.destutter (· ≠ ·) := by
  cases lines with
  | nil => rfl
  | cons next lines =>
    rw [List.destutter_cons_cons,List.head?_cons,List.destutter_cons']
    by_cases same : line = next
    · subst same
      simp
    · have other : ¬some next = some line := fun eq => same (Option.some.inj eq).symm
      rw [if_pos same,if_neg other]

theorem destutter_head (lines : List (List Byte)) : (lines.destutter (· ≠ ·)).head? = lines.head? := by
  induction lines with
  | nil => rfl
  | cons line lines ih =>
    rw [kept_head]
    split_ifs with same
    · rw [ih,same]
      rfl
    · rfl

theorem kept_empty (lines : List (List Byte)) : kept (lines ++ [[]]) = kept lines := by simp [kept]

theorem kept_line (some' : line ≠ []) : kept (lines ++ [line]) =
    if (kept lines).head? = some line then kept lines else line :: kept lines := by
  have parts : (lines ++ [line]).filter (· ≠ []) = lines.filter (· ≠ []) ++ [line] := by simp [some']
  rw [kept,parts,List.reverse_append,List.reverse_singleton,List.singleton_append,kept_head]
  rw [kept,destutter_head]

theorem mem_kept (member : line ∈ kept lines) : line ∈ lines := by
  have inside := (List.destutter_sublist _ _).subset member
  exact (List.mem_filter.mp (List.mem_reverse.mp inside)).1

/-- A push onto the first 16 lines keeps the first 16. -/
theorem historyPush_kept (noNul : 0 ∉ line) (clean : ∀ l ∈ lines, 0 ∉ l) :
    Shell.historyPush ((kept lines).take 16) line = (kept (lines ++ [line])).take 16 := by
  by_cases blank : line = []
  · subst blank
    rw [kept_empty]
    rfl
  have some' : ¬line.length = 0 := fun zero => blank (List.eq_nil_of_length_eq_zero zero)
  have front : ((kept lines).take 16).head? = (kept lines).head? := by simp [List.head?_take]
  have repeats : (((kept lines).take 16).head?.any fun last => strcmp last line = 0) =
      decide ((kept lines).head? = some line) := by
    rw [front]
    cases first : (kept lines).head? with
    | none => rfl
    | some last =>
      have known := clean last (mem_kept (List.mem_of_head? first))
      simp [strcmp_eq_zero known noNul]
  rw [Shell.historyPush,if_neg some',repeats,kept_line blank]
  by_cases same : (kept lines).head? = some line
  · rw [if_pos (decide_eq_true same),if_pos same]
  · rw [if_neg (by simpa using same),if_neg same,List.take_succ_cons,List.take_succ_cons,
      List.take_take]
    rfl

/-! Steps. -/

theorem released_history : (Shell.released k scancode).history = k.history := by
  unfold Shell.released
  dsimp only
  split_ifs <;> rfl

theorem upArrow_history : (Shell.upArrow k).history = k.history := by
  unfold Shell.upArrow
  split_ifs
  · rfl
  · split
    · rfl
    · split_ifs <;> rfl

theorem downArrow_history : (Shell.downArrow k).history = k.history := by
  unfold Shell.downArrow
  split <;> rfl

theorem typedLine_history (other : c ≠ 10) : (typedLine k c).history = k.history := by
  unfold typedLine
  rw [if_neg other]
  split_ifs <;> rfl

/-- Every key but Enter leaves the history alone. -/
theorem lineKey_history (other : scancode ≠ 0x1C) : (lineKey k scancode).history = k.history := by
  apply lineKey_cases (motive := fun k' => k'.history = k.history) k scancode
  case released => exact released_history
  case up => exact upArrow_history
  case down => exact downArrow_history
  case typed =>
    intro small
    exact typedLine_history fun newline => other ((Shell.char_enter k small).mp newline)
  all_goals rfl

/-- At the prompt it enters the line. -/
theorem keyboardCallback_enter (holds : Holds b k e) (shell : ¬Taken b 0x1C) :
    keyboardCallback b 0x1C = enterKey b := by
  have outside : ¬(b.editor.editorMode ∧ (0x1C : Byte).toNat < Shell.scancodeAscii.length) := fun both =>
    shell ⟨by decide,by decide,by decide,fun held => absurd held.2 (by decide),both.1,both.2⟩
  have newline := (Shell.char_enter k (show (0x1C : Byte).toNat < 58 by decide)).mpr rfl
  unfold keyboardCallback
  rw [if_neg (by decide),if_neg (by decide),if_neg (by decide),if_neg (fun held => absurd held.2 (by decide)),
    if_neg outside,if_neg (fun held => absurd held.2 (by decide)),if_neg (by decide),if_neg (by decide),
    if_pos (by decide),holds.char (by decide),newline]
  rfl

theorem keyboardCallback_history (holds : Holds b k e) (other : scancode = 0x1C → Taken b 0x1C)
    (done : keyboardCallback b scancode = .ok b') :
    ∃ k' e', Holds b' k' e' ∧ k'.history = k.history := by
  by_cases taken : Taken b scancode
  · rw [keyboardCallback_taken taken] at done
    obtain ⟨c,-,done⟩ := bind_ok.mp done
    obtain ⟨e',-,rfl⟩ := map_ok.mp done
    exact ⟨k,e',holds.withEditor e',rfl⟩
  · obtain ⟨next,done',holds'⟩ := holds.keyboardCallback taken
    obtain rfl := Except.ok.inj (done'.symm.trans done)
    exact ⟨_,e,holds',lineKey_history fun enter => taken (enter ▸ other enter)⟩

/-- The arrays hold the lines entered so far. -/
structure Tracks (past : List (Buffers × Option (List Byte))) (b : Buffers) : Prop where
  history : ∃ k e, Holds b k e ∧ k.history = (kept (entered past)).take 16
  clean : ∀ l ∈ entered past, 0 ∉ l

theorem step_tracks {label : Option (List Byte)} (tracks : Tracks past b) (moved : Step b label b') :
    Tracks (past ++ [(b,label)]) b' := by
  obtain ⟨⟨k,e,holds,history⟩,clean⟩ := tracks
  cases moved with
  | typed row =>
    have same : entered (past ++ [(b,none)]) = entered past := by simp [entered]
    rw [← same] at history clean
    exact ⟨⟨_,e,holds.withLine row rfl,history⟩,clean⟩
  | edit editor =>
    have same : entered (past ++ [(b,none)]) = entered past := by simp [entered]
    rw [← same] at history clean
    exact ⟨⟨k,editor,holds.withEditor editor,history⟩,clean⟩
  | key other done =>
    have same : entered (past ++ [(b,none)]) = entered past := by simp [entered]
    obtain ⟨k',e',holds',kept'⟩ := keyboardCallback_history holds other done
    rw [← same] at history clean
    exact ⟨⟨k',e',holds',kept'.trans history⟩,clean⟩
  | @enter _ line shell row len done =>
    rw [keyboardCallback_enter holds shell] at done
    have more : entered (past ++ [(b,some line)]) = entered past ++ [line] := by simp [entered]
    obtain rfl : k.keyBuffer = line := holds.line.same.symm.trans row.same
    obtain ⟨next,done',holds'⟩ := holds.enterKey
    obtain rfl := Except.ok.inj (done'.symm.trans done)
    refine ⟨⟨_,e,holds',?_⟩,?_⟩
    · rw [more,← historyPush_kept row.noNul clean,← history]
    · rw [more]
      exact List.forall_mem_append.mpr ⟨clean,List.forall_mem_singleton.mpr row.noNul⟩

theorem run_tracks {start : Buffers} (holds : Holds start atStart zeroed.editor) (run : Run Step start past b) :
    Tracks past b := by
  induction run with
  | nil => exact ⟨⟨_,_,holds,rfl⟩,nofun⟩
  | snoc _ moved ih => exact step_tracks ih moved

theorem historyHolds (holds : Holds b k e) (same : k.history = lines) : HistoryHolds b lines := by
  subst same
  refine ⟨holds.count,holds.room,fun r inside => ?_⟩
  have row := holds.rows r
  rw [List.getD_eq_getElem _ _ inside] at row
  exact row

theorem row_of_line {line : List Byte} (noNul : 0 ∉ line) (short : line.length ≤ 255) :
    Row (fun i : Fin 256 => line.getD i 0) line := by
  refine .of_chars noNul (Nat.lt_succ_of_le short) (fun i inside => ?_) ?_
  · exact List.getD_eq_getElem _ _ inside
  · exact List.getD_eq_default _ _ (Nat.le_refl _)

/-- Outside of the editor any lines can be entered. -/
theorem lines_entered {start : Buffers} (holds : Holds start k e) (mode : e.editorMode = false)
    (proper : ∀ l ∈ lines, 0 ∉ l ∧ l.length ≤ 255) :
    ∃ past b, Run Step start past b ∧ entered past = lines := by
  induction lines generalizing start k with
  | nil => exact ⟨[],start,.nil,rfl⟩
  | cons line lines ih =>
    obtain ⟨⟨noNul,short⟩,rest⟩ := List.forall_mem_cons.mp proper
    have row := row_of_line noNul short
    have typed := holds.withLine row rfl
    have shell : ¬Taken {start with keyBuffer := fun i => line.getD i 0,keyBufferLen := line.length} 0x1C := by
      intro taken
      have edits := taken.mode
      rw [typed.apart,mode] at edits
      cases edits
    obtain ⟨next,done,holds'⟩ := typed.enterKey
    obtain ⟨past,last,run,all⟩ := ih holds' rest
    rw [← keyboardCallback_enter typed shell] at done
    refine ⟨_,last,Run.cons (.typed row) (Run.cons (.enter shell row rfl done) run),?_⟩
    rw [← all]
    rfl

/-- Behind `keyboard_init`, whatever is typed and entered: the history holds the last 16 lines,
the newest one first, without empty lines and repetitions. -/
theorem history_kept : ∃ start, keyboardInit zeroed = .ok start ∧
    (∀ past b, Run Step start past b → HistoryHolds b ((kept (entered past)).take 16)) ∧
    ∀ lines : List (List Byte), (∀ l ∈ lines, 0 ∉ l ∧ l.length ≤ 255) →
      ∃ past b, Run Step start past b ∧ entered past = lines := by
  obtain ⟨start,booted,holds⟩ := keyboardInit_holds
  refine ⟨start,booted,?_,fun lines proper => lines_entered holds rfl proper⟩
  intro past b run
  obtain ⟨k,e,holds',history⟩ := (run_tracks holds run).history
  exact historyHolds holds' history

/-! Browsing. -/

/-- The line that is shown some steps back from the one typed at `start`. -/
structure Browses (start : Buffers) (lines : List (List Byte)) (line : List Byte) (back : Nat)
    (b : Buffers) : Prop where
  history : b.history = start.history
  count : b.historyCount = start.historyCount
  inside : back ≤ lines.length
  pos : b.historyPos = (back : Int) - 1
  shown : Row b.keyBuffer ((line :: lines).getD back [])
  len : b.keyBufferLen = ((line :: lines).getD back []).length
  saved : 0 < back → Row b.savedInput line

section Browsing

variable {start u : Buffers} {back ups downs : Nat}

theorem keyboardCallback_up (b : Buffers) : keyboardCallback b 0x48 = upArrow b := by
  unfold keyboardCallback
  rw [if_neg (by decide),if_neg (by decide),if_neg (by decide),if_neg (fun both => absurd both.2 (by decide)),
    if_neg (fun both => absurd both.2 (by decide)),if_neg (fun both => absurd both.2 (by decide)),if_pos rfl]

theorem keyboardCallback_down (b : Buffers) : keyboardCallback b 0x50 = downArrow b := by
  unfold keyboardCallback
  rw [if_neg (by decide),if_neg (by decide),if_neg (by decide),if_neg (fun both => absurd both.2 (by decide)),
    if_neg (fun both => absurd both.2 (by decide)),if_neg (fun both => absurd both.2 (by decide)),
    if_neg (by decide),if_pos rfl]

/-- Any of the lines kept can be shown. -/
theorem showEntry_row (holds : HistoryHolds b lines) (inside : back < lines.length)
    (pos : b.historyPos = back) : ∃ buf,
    showEntry b = .ok {b with keyBuffer := buf,keyBufferLen := (lines.getD back []).length} ∧
      Row buf (lines.getD back []) := by
  have row := holds.rows ⟨back,inside.trans_le holds.room⟩ inside
  unfold showEntry
  rw [get_at (j := (⟨back,inside.trans_le holds.room⟩ : Fin 16)) pos,ok_bind,List.getD_eq_getElem _ _ inside]
  exact replaceInput_row b row

theorem up_browses (holds : HistoryHolds start lines) (browses : Browses start lines line back b) :
    ∃ u, keyboardCallback b 0x48 = .ok u ∧
      Browses start lines line (min (back + 1) lines.length) u := by
  have inside := browses.inside
  have count := browses.count.trans holds.count
  have pos := browses.pos
  have here : HistoryHolds b lines := ⟨count,holds.room,browses.history ▸ holds.rows⟩
  rw [keyboardCallback_up]
  unfold upArrow
  by_cases none : lines = []
  · subst none
    obtain rfl : back = 0 := Nat.le_zero.mp inside
    rw [if_pos (show b.historyCount = 0 from count)]
    exact ⟨b,rfl,browses⟩
  have some' := List.length_pos_iff.mpr none
  rw [if_neg (by omega)]
  by_cases first : back = 0
  · subst first
    obtain ⟨saved,put,row⟩ := saveInput_row browses.shown browses.len
    obtain ⟨buf,done,shown⟩ := showEntry_row
      (b := {b with savedInput := saved,savedLen := b.keyBufferLen,historyPos := 0})
      ⟨here.count,here.room,here.rows⟩ some' rfl
    rw [if_pos (by omega),put,ok_bind,Nat.min_eq_left some']
    exact ⟨_,done,browses.history,browses.count,some',rfl,shown,rfl,fun _ => row⟩
  · rw [if_neg (by omega)]
    by_cases older : back < lines.length
    · obtain ⟨buf,done,shown⟩ := showEntry_row (b := {b with historyPos := b.historyPos + 1})
        ⟨here.count,here.room,here.rows⟩ older (by dsimp only; omega)
      rw [if_pos (by omega),Nat.min_eq_left older]
      refine ⟨_,done,browses.history,browses.count,older,?_,shown,rfl,fun _ => ?_⟩
      · dsimp only
        omega
      · exact browses.saved (Nat.pos_of_ne_zero first)
    · have same : min (back + 1) lines.length = back := by omega
      rw [if_neg (by omega),same]
      exact ⟨b,rfl,browses⟩

theorem down_browses (holds : HistoryHolds start lines) (browses : Browses start lines line back b) :
    ∃ d, keyboardCallback b 0x50 = .ok d ∧ Browses start lines line (back - 1) d := by
  have inside := browses.inside
  have count := browses.count.trans holds.count
  have pos := browses.pos
  have here : HistoryHolds b lines := ⟨count,holds.room,browses.history ▸ holds.rows⟩
  rw [keyboardCallback_down]
  unfold downArrow
  cases back with
  | zero =>
    rw [if_pos (by omega)]
    exact ⟨b,rfl,browses⟩
  | succ back =>
    rw [if_neg (by omega),Nat.add_sub_cancel]
    cases back with
    | zero =>
      obtain ⟨buf,done,shown⟩ := replaceInput_row {b with historyPos := b.historyPos - 1}
        (browses.saved Nat.one_pos)
      rw [if_pos (by omega)]
      refine ⟨_,done,browses.history,browses.count,Nat.zero_le _,?_,shown,rfl,nofun⟩
      dsimp only
      omega
    | succ back =>
      obtain ⟨buf,done,shown⟩ := showEntry_row (b := {b with historyPos := b.historyPos - 1})
        ⟨here.count,here.room,here.rows⟩ (Nat.lt_of_succ_lt inside) (by dsimp only; omega)
      rw [if_neg (by omega)]
      refine ⟨_,done,browses.history,browses.count,Nat.le_of_succ_le inside,?_,shown,rfl,fun _ => ?_⟩
      · dsimp only
        omega
      · exact browses.saved (Nat.succ_pos _)

theorem ups_browses (presses : Nat) (holds : HistoryHolds start lines)
    (browses : Browses start lines line back b) :
    ∃ u, (List.replicate presses 0x48).foldlM keyboardCallback b = .ok u ∧
      Browses start lines line (min (back + presses) lines.length) u := by
  induction presses generalizing b back with
  | zero =>
    rw [Nat.add_zero,Nat.min_eq_left browses.inside]
    exact ⟨b,rfl,browses⟩
  | succ presses ih =>
    obtain ⟨next,done,browses'⟩ := up_browses holds browses
    obtain ⟨u,more,browses'⟩ := ih browses'
    have total : min (min (back + 1) lines.length + presses) lines.length =
        min (back + (presses + 1)) lines.length := by omega
    rw [List.replicate_succ,List.foldlM_cons,done,← total]
    exact ⟨u,more,browses'⟩

theorem downs_browses (presses : Nat) (holds : HistoryHolds start lines)
    (browses : Browses start lines line back b) :
    ∃ d, (List.replicate presses 0x50).foldlM keyboardCallback b = .ok d ∧
      Browses start lines line (back - presses) d := by
  induction presses generalizing b back with
  | zero => exact ⟨b,rfl,browses⟩
  | succ presses ih =>
    obtain ⟨next,done,browses'⟩ := down_browses holds browses
    obtain ⟨d,more,browses'⟩ := ih browses'
    rw [List.replicate_succ,List.foldlM_cons,done,Nat.add_comm presses,← Nat.sub_sub]
    exact ⟨d,more,browses'⟩

/-- Up and then Down at least as far: the line is as it was typed. -/
theorem browsing_undone (holds : HistoryHolds b lines) (typed : Row b.keyBuffer line)
    (len : b.keyBufferLen = line.length) (current : b.historyPos = -1)
    (enough : min ups lines.length ≤ downs) :
    ∃ u d, (List.replicate ups 0x48).foldlM keyboardCallback b = .ok u ∧
      (List.replicate downs 0x50).foldlM keyboardCallback u = .ok d ∧
      (∀ _ : 0 < ups, ∀ inside : ups ≤ lines.length,
        Row u.keyBuffer lines[ups - 1] ∧ u.keyBufferLen = lines[ups - 1].length) ∧
      Row d.keyBuffer line ∧ d.keyBufferLen = b.keyBufferLen ∧ d.historyPos = -1 ∧
      d.history = b.history ∧ d.historyCount = b.historyCount := by
  have start : Browses b lines line 0 b := ⟨rfl,rfl,Nat.zero_le _,current,typed,len,nofun⟩
  obtain ⟨u,up,shown⟩ := ups_browses ups holds start
  obtain ⟨d,down,back⟩ := downs_browses downs holds shown
  rw [Nat.zero_add] at shown back
  rw [Nat.sub_eq_zero_of_le enough] at back
  refine ⟨u,d,up,down,fun some' inside => ?_,back.shown,back.len.trans len.symm,back.pos,
    back.history,back.count⟩
  obtain ⟨older,rfl⟩ := Nat.exists_eq_succ_of_ne_zero some'.ne'
  have row := shown.shown
  have size := shown.len
  rw [Nat.min_eq_left inside,List.getD_cons_succ,List.getD_eq_getElem _ _ inside] at row size
  exact ⟨row,size⟩

/-- A line typed behind two entries. -/
def typedBehind : Buffers where
  __ := zeroed
  keyBuffer := fun i => [99].getD i 0
  keyBufferLen := 1
  history := fun r i => ([[98],[97]].getD r []).getD i 0
  historyCount := 2

theorem browsing_undone_twice : ∃ u d,
    (List.replicate 2 0x48).foldlM keyboardCallback typedBehind = .ok u ∧
      (List.replicate 2 0x50).foldlM keyboardCallback u = .ok d ∧
      (∀ _ : 0 < 2, ∀ inside : 2 ≤ [[98],[97]].length,
        Row u.keyBuffer ([[98],[97]] : List (List Byte))[2 - 1] ∧
          u.keyBufferLen = ([[98],[97]] : List (List Byte))[2 - 1].length) ∧
      Row d.keyBuffer [99] ∧ d.keyBufferLen = typedBehind.keyBufferLen ∧ d.historyPos = -1 ∧
      d.history = typedBehind.history ∧ d.historyCount = typedBehind.historyCount := by
  have entries : HistoryHolds typedBehind [[98],[97]] := by
    refine ⟨rfl,by decide,fun r inside => ?_⟩
    match r, inside with
    | ⟨0,_⟩, _ => exact @row_of_line [98] (by decide) (by decide)
    | ⟨1,_⟩, _ => exact @row_of_line [97] (by decide) (by decide)
  have typed : Row typedBehind.keyBuffer [99] := row_of_line (by decide) (by decide)
  exact browsing_undone entries typed rfl rfl (Nat.le_refl 2)

end Browsing

end NimrodOS.KeyHistory
