import Mathlib.Data.Nat.Digits.Defs
import NimrodOS.Lib.Run
import NimrodOS.Vga

/-! The colours of `drivers/vga.c`: what a cell has next to its character. -/
namespace NimrodOS.Vga

open Wire Checked Terminal Transition

def makeColor (fg bg : Byte) : Byte := fg ||| bg <<< 4

def vgaSetColor (v : State) (fg bg : Byte) : State := {v with currentColor := makeColor fg bg}

def vgaPrintColor (v : State) (str : List Byte) (fg bg : Byte) : Except OutOfRange State := do
  let printed ← vgaPrint {v with currentColor := makeColor fg bg} str
  return {printed with currentColor := v.currentColor}

inductive Call where
  | setColor (fg bg : Byte)
  | putchar (c : Byte)
  | print (str : List Byte)
  | printColor (str : List Byte) (fg bg : Byte)

def call (v : State) : Call → Except OutOfRange State
  | .setColor fg bg => .ok (vgaSetColor v fg bg)
  | .putchar c => vgaPutchar v c
  | .print str => vgaPrint v str
  | .printColor str fg bg => vgaPrintColor v str fg bg

/-- The calls that `vga_print_dec` makes; the digits are found from the last one on. -/
def printDec (value : Word) : List Call :=
  if value = 0 then [.putchar 48]
  else (Nat.digits 10 value.toNat).reverse.map fun digit => .putchar (48 + BitVec.ofNat 8 digit)

/-! Byte by byte. -/

/-- What a call consists of: a colour comes into force, or a byte is printed. -/
inductive Act where
  | color (color : Byte)
  | put (c : Byte)

def act (v : State) : Act → Except OutOfRange State
  | .color color => .ok {v with currentColor := color}
  | .put c => vgaPutchar v c

def puts (str : List Byte) : List Act := (str.takeWhile (· ≠ 0)).map .put

def acts (color : Byte) : Call → List Act
  | .setColor fg bg => [.color (makeColor fg bg)]
  | .putchar c => [.put c]
  | .print str => puts str
  | .printColor str fg bg => .color (makeColor fg bg) :: puts str ++ [.color color]

/-- The colour in force behind a call. -/
def colorBehind (color : Byte) : Call → Byte
  | .setColor fg bg => makeColor fg bg
  | _ => color

def allActs (color : Byte) : List Call → List Act
  | [] => []
  | c :: calls => acts color c ++ allActs (colorBehind color c) calls

/-- The screen, and the page with the bytes that were printed and the colours that were in force. -/
structure Screen where
  state : State
  marks : Terminal (Option (Byte × Byte))

def mark (s : Screen) : Act → Terminal (Option (Byte × Byte))
  | .color _ => s.marks
  | .put c => feed 80 4 s.marks ((symbol c).map fun c => some (c,s.state.currentColor))

def Step (s : Screen) (a : Act) (s' : Screen) : Prop :=
  act s.state a = .ok s'.state ∧ s'.marks = mark s a

/-- Nothing has been printed yet. -/
def unmarked (v : State) : Screen := ⟨v,⟨fun _ _ => none,v.cursorX.toNat,v.cursorY.toNat⟩⟩

structure OnScreen (v : State) : Prop where
  columns : 0 ≤ v.cursorX ∧ v.cursorX < 80
  rows : 0 ≤ v.cursorY ∧ v.cursorY < 25

/-- Every cell on the screen that a byte was printed to has that byte and its colour. -/
def Colored (s : Screen) : Prop :=
  ∀ r k, r < 25 → k < 80 → ∀ p ∈ s.marks.page (s.marks.y - 24 + r) k,
    (entries s.state r k).setWidth 8 = p.1 ∧ (entries s.state r k).extractLsb' 8 8 = p.2

/-- The sign of the byte leaves its colour alone. -/
def Plain (c color : Byte) : Prop := c.toNat < 0x80 ∨ color = 0xFF

def Keeps (s : Screen) : Act → Prop
  | .color _ => True
  | .put c => c = 10 ∨ c = 13 ∨ c = 9 ∨ Plain c s.state.currentColor

variable {s s' : Screen} {a : Act} {c shade : Byte} {str : List Byte} {v : State}

/-! Cells. -/

/-- A set sign bit fills the high byte. -/
theorem makeVgaEntry_color (c color : Byte) : (makeVgaEntry c color).extractLsb' 8 8 =
    (if c.msb then BitVec.allOnes 8 else 0#8) ||| color := by
  ext i inside
  have high : ¬8 + i < 8 := by omega
  have low : 8 + i < 16 := by omega
  have sign : (c.signExtend 16)[8 + i] = c.msb := by rw [BitVec.getElem_signExtend,dif_neg high]
  have bit : (if c.msb then BitVec.allOnes 8 else 0#8)[i] = c.msb := by
    cases c.msb with
    | true => rw [if_pos rfl,BitVec.getElem_allOnes]
    | false => rw [if_neg Bool.false_ne_true,BitVec.getElem_zero]
  have parts : ((makeVgaEntry c color).extractLsb' 8 8)[i] = ((c.signExtend 16)[8 + i] || color[i]) := by
    simp [makeVgaEntry,low,high,inside]
  rw [parts,sign,BitVec.getElem_or,bit]

theorem plain_iff : (makeVgaEntry c shade).extractLsb' 8 8 = shade ↔ Plain c shade := by
  have sign : c.msb = true ↔ 0x80 ≤ c.toNat := by
    rw [BitVec.msb_eq_decide,decide_eq_true_iff]
  rw [makeVgaEntry_color,Plain]
  by_cases set : c.msb
  · have large : ¬c.toNat < 0x80 := Nat.not_lt.mpr (sign.mp set)
    rw [if_pos set,BitVec.allOnes_or,or_iff_right large]
    exact eq_comm
  · have small : c.toNat < 0x80 := Nat.lt_of_not_le fun large => set (sign.mpr large)
    rw [if_neg set,BitVec.zero_or]
    exact iff_of_true rfl (.inl small)

/-! What is written, and what is left of it. -/

/-- The cells hold the entries that were made for the marks. -/
structure Tracks (s : Screen) : Prop where
  pictures : Pictures (fun mark e => ∀ p ∈ mark, e = makeVgaEntry p.1 p.2) s.state s.marks (s.marks.y - 24)
  proper : Proper 80 none s.marks

/-- All that was printed is plain. -/
def AllPlain (t : Terminal (Option (Byte × Byte))) : Prop := ∀ r k, ∀ p ∈ t.page r k, Plain p.1 p.2

theorem Tracks.initial (onScreen : OnScreen v) : Tracks (unmarked v) := by
  have columns := onScreen.columns
  have rows := onScreen.rows
  have top : v.cursorY.toNat - 24 = 0 := by omega
  refine ⟨⟨fun _ _ _ _ => nofun,?_,?_,Nat.sub_le ..⟩,?_,fun _ _ _ => rfl⟩
  · exact (Int.toNat_of_nonneg columns.1).symm
  · show v.cursorY + (v.cursorY.toNat - 24 : Nat) = (v.cursorY.toNat : Int)
    omega
  · show v.cursorX.toNat < 80
    omega

theorem step_color (s : Screen) (color : Byte) :
    Step s (.color color) ⟨{s.state with currentColor := color},s.marks⟩ := ⟨rfl,rfl⟩

theorem Tracks.color (tracks : Tracks s) (color : Byte) :
    Tracks ⟨{s.state with currentColor := color},s.marks⟩ :=
  ⟨⟨tracks.pictures.cells,tracks.pictures.column,tracks.pictures.row,tracks.pictures.above⟩,tracks.proper⟩

theorem Tracks.put (tracks : Tracks s) (c : Byte) : ∃ w, vgaPutchar s.state c = .ok w ∧
    w.currentColor = s.state.currentColor ∧ Tracks ⟨w,mark s (.put c)⟩ := by
  have low : s.marks.y < s.marks.y - 24 + 25 := by omega
  obtain ⟨w,done,color,pictures⟩ := tracks.pictures.putchar (c := c) tracks.proper low nofun
    (f := fun c => some (c,s.state.currentColor)) (by rintro _ ⟨⟩; rfl)
  have down : s.marks.y ≤ (mark s (.put c)).y := (feed_y (by decide) s.marks _).1
  have top : max (s.marks.y - 24) ((mark s (.put c)).y - 24) = (mark s (.put c)).y - 24 := by omega
  exact ⟨_,done,color,top ▸ pictures.updateCursor,tracks.proper.feed _⟩

/-- Any act can be taken. -/
theorem Tracks.advance (tracks : Tracks s) (a : Act) : ∃ s', Step s a s' ∧ Tracks s' := by
  cases a with
  | color color => exact ⟨_,step_color s color,tracks.color color⟩
  | put c =>
    obtain ⟨w,done,-,tracks'⟩ := tracks.put c
    exact ⟨⟨w,mark s (.put c)⟩,⟨done,rfl⟩,tracks'⟩

theorem Tracks.step (tracks : Tracks s) (moved : Step s a s') : Tracks s' := by
  obtain ⟨t,moved',tracks'⟩ := tracks.advance a
  obtain ⟨state,marks⟩ := s'
  obtain ⟨state',marks'⟩ := t
  obtain rfl := Except.ok.inj (moved.1.symm.trans moved'.1)
  obtain rfl : marks = marks' := moved.2.trans moved'.2.symm
  exact tracks'

theorem Tracks.colored (tracks : Tracks s) (plain : AllPlain s.marks) : Colored s := by
  intro r k inside across p member
  rw [tracks.pictures.cells r k inside across p member]
  exact ⟨makeVgaEntry_char p.1 p.2,plain_iff.mpr (plain _ _ p member)⟩

/-- A byte that is printed leaves its mark, unless it is a control character. -/
theorem mark_page (s : Screen) (c : Byte) : (mark s (.put c)).page =
    if c = 10 ∨ c = 13 ∨ c = 9 then s.marks.page
    else put s.marks.page s.marks.y s.marks.x (some (c,s.state.currentColor)) := by
  rw [mark,feed_written,symbol]
  by_cases newline : c = 10
  · rw [if_pos newline,if_pos (.inl newline)]
    rfl
  by_cases carriageReturn : c = 13
  · rw [if_neg newline,if_pos carriageReturn,if_pos (.inr (.inl carriageReturn))]
    rfl
  by_cases tab : c = 9
  · rw [if_neg newline,if_neg carriageReturn,if_pos tab,if_pos (.inr (.inr tab))]
    rfl
  · have other : ¬(c = 10 ∨ c = 13 ∨ c = 9) := by
      rintro (is | is | is)
      · exact newline is
      · exact carriageReturn is
      · exact tab is
    rw [if_neg newline,if_neg carriageReturn,if_neg tab,if_neg other]
    rfl

theorem AllPlain.step (plain : AllPlain s.marks) (keeps : Keeps s a) : AllPlain (mark s a) := by
  cases a with
  | color => exact plain
  | put c =>
    intro r k p member
    rw [mark_page] at member
    split_ifs at member with control
    · exact plain r k p member
    · unfold Terminal.put at member
      split_ifs at member with here
      · obtain rfl := Option.some.inj member
        rcases keeps with newline | carriageReturn | tab | keeps
        · exact absurd (.inl newline) control
        · exact absurd (.inr (.inl carriageReturn)) control
        · exact absurd (.inr (.inr tab)) control
        · exact keeps
      · exact plain r k p member

/-- The cell that was written last is on the screen. -/
theorem step_colored_iff (tracks : Tracks s) (plain : AllPlain s.marks) (moved : Step s a s') :
    Colored s' ↔ Keeps s a := by
  have tracks' := tracks.step moved
  have marks := moved.2
  refine ⟨fun colored => ?_,fun keeps => tracks'.colored (marks ▸ plain.step keeps)⟩
  cases a with
  | color => exact True.intro
  | put c =>
    by_cases control : c = 10 ∨ c = 13 ∨ c = 9
    · rcases control with newline | carriageReturn | tab
      · exact .inl newline
      · exact .inr (.inl carriageReturn)
      · exact .inr (.inr (.inl tab))
    · have down : s.marks.y ≤ s'.marks.y ∧ s'.marks.y ≤ s.marks.y + 1 :=
        marks ▸ feed_y (by decide) s.marks _
      have low : s.marks.y - (s'.marks.y - 24) < 25 := by omega
      have row : s'.marks.y - 24 + (s.marks.y - (s'.marks.y - 24)) = s.marks.y := by omega
      have written : s'.marks.page s.marks.y s.marks.x = some (c,s.state.currentColor) := by
        rw [marks,mark_page,if_neg control]
        exact if_pos ⟨rfl,rfl⟩
      have member : (c,s.state.currentColor) ∈
          s'.marks.page (s'.marks.y - 24 + (s.marks.y - (s'.marks.y - 24))) s.marks.x := by
        rw [row,written]
        rfl
      have color := (colored _ _ low tracks.proper.inside _ member).2
      rw [tracks'.pictures.cells _ _ low tracks.proper.inside _ member] at color
      exact .inr (.inr (.inr (plain_iff.mp color)))

/-! Calls. -/

/-- From a screen, the calls go through the acts. -/
structure Through (s : Screen) (acts : List Act) (past : List (Screen × Act)) (s' : Screen) : Prop where
  labels : past.map Prod.snd = acts
  run : Run Step s past s'
  tracks : Tracks s'

theorem Through.trans {first second : List Act} {past future : List (Screen × Act)} {t : Screen}
    (before : Through s first past s') (after : Through s' second future t) :
    Through s (first ++ second) (past ++ future) t :=
  ⟨by rw [List.map_append,before.labels,after.labels],before.run.trans after.run,after.tracks⟩

theorem Through.single (tracks : Tracks s) (moved : Step s a s') : Through s [a] [(s,a)] s' :=
  ⟨rfl,.single moved,tracks.step moved⟩

theorem vgaPrint_through (tracks : Tracks s) (str : List Byte) :
    ∃ past t, Through s (puts str) past t ∧ vgaPrint s.state str = .ok t.state ∧
      t.state.currentColor = s.state.currentColor := by
  induction str generalizing s with
  | nil => exact ⟨[],s,⟨rfl,.nil,tracks⟩,rfl,rfl⟩
  | cons c str ih =>
    rw [vgaPrint,puts]
    by_cases ends : c = 0
    · rw [if_pos ends,List.takeWhile_cons_of_neg (by simpa using ends)]
      exact ⟨[],s,⟨rfl,.nil,tracks⟩,rfl,rfl⟩
    · obtain ⟨w,done,color,tracks'⟩ := tracks.put c
      obtain ⟨past,t,through,printed,color'⟩ := ih tracks'
      have moved : Step s (.put c) ⟨w,mark s (.put c)⟩ := ⟨done,rfl⟩
      rw [if_neg ends,List.takeWhile_cons_of_pos (by simpa using ends),done]
      exact ⟨_,t,(Through.single tracks moved).trans through,printed,color'.trans color⟩

theorem call_through (tracks : Tracks s) (c : Call) :
    ∃ past t, Through s (acts s.state.currentColor c) past t ∧ call s.state c = .ok t.state ∧
      t.state.currentColor = colorBehind s.state.currentColor c := by
  cases c with
  | setColor fg bg => exact ⟨_,_,.single tracks (step_color s (makeColor fg bg)),rfl,rfl⟩
  | putchar c =>
    obtain ⟨w,done,color,tracks'⟩ := tracks.put c
    have moved : Step s (.put c) ⟨w,mark s (.put c)⟩ := ⟨done,rfl⟩
    exact ⟨_,_,.single tracks moved,done,color⟩
  | print str => exact vgaPrint_through tracks str
  | printColor str fg bg =>
    have colored := Through.single tracks (step_color s (makeColor fg bg))
    obtain ⟨past,t,through,printed,-⟩ := vgaPrint_through colored.tracks str
    have restored := Through.single through.tracks (step_color t s.state.currentColor)
    refine ⟨_,_,(colored.trans through).trans restored,?_,rfl⟩
    show vgaPrintColor s.state str fg bg = _
    rw [vgaPrintColor,printed]
    rfl

theorem calls_through (tracks : Tracks s) (calls : List Call) :
    ∃ past t, Through s (allActs s.state.currentColor calls) past t ∧
      calls.foldlM call s.state = .ok t.state := by
  induction calls generalizing s with
  | nil => exact ⟨[],s,⟨rfl,.nil,tracks⟩,rfl⟩
  | cons c calls ih =>
    obtain ⟨past,next,through,done,color⟩ := call_through tracks c
    obtain ⟨future,t,through',done'⟩ := ih through.tracks
    rw [List.foldlM_cons,done,allActs,← color]
    exact ⟨_,t,through.trans through',done'⟩

theorem vgaPrintColor_restores {w : State} {fg bg : Byte} (done : vgaPrintColor v str fg bg = .ok w) :
    w.currentColor = v.currentColor := by
  obtain ⟨printed,-,done⟩ := bind_ok.mp done
  obtain rfl := Except.ok.inj done
  rfl

/-- All cells have the colours that were in force just when every byte that is printed is below
0x80 or has the colour 0xFF in force. -/
theorem colors_iff (v : State) (onScreen : OnScreen v) (calls : List Call) :
    (∃ past last, past.map Prod.snd = allActs v.currentColor calls ∧ Run Step (unmarked v) past last ∧
      calls.foldlM call v = .ok last.state ∧
      ((∀ s ∈ past.map Prod.fst ++ [last], Colored s) ↔ ∀ entry ∈ past, Keeps entry.1 entry.2)) ∧
    ∀ u w str fg bg, vgaPrintColor u str fg bg = .ok w → w.currentColor = u.currentColor := by
  have initial := Tracks.initial onScreen
  have blank : AllPlain (unmarked v).marks := fun _ _ => nofun
  have first : Tracks (unmarked v) ∧ AllPlain (unmarked v).marks := ⟨initial,blank⟩
  obtain ⟨past,last,through,done⟩ := calls_through initial calls
  refine ⟨⟨past,last,through.labels,through.run,done,?_⟩,fun _ _ _ _ _ => vgaPrintColor_restores⟩
  refine @Run.exact_states_under _ _ _ _ _ _ (fun s => Tracks s ∧ AllPlain s.marks) _ _ through.run
    first (initial.colored blank) ?_ ?_
  · intro s a t ⟨tracks,plain⟩ keeps moved
    exact ⟨tracks.step moved,moved.2 ▸ plain.step keeps⟩
  · intro s a t ⟨tracks,plain⟩ _ moved
    exact step_colored_iff tracks plain moved

/-- An empty screen in light green on black. -/
def lightGreen : State := ⟨fun _ => makeVgaEntry 32 0x0A,0,0,0x0A,0⟩

theorem colors_iff_red : (∃ past last,
    past.map Prod.snd = allActs lightGreen.currentColor [.printColor [65,66] 4 0,.putchar 67] ∧
      Run Step (unmarked lightGreen) past last ∧
      [Call.printColor [65,66] 4 0,.putchar 67].foldlM call lightGreen = .ok last.state ∧
      ((∀ s ∈ past.map Prod.fst ++ [last], Colored s) ↔ ∀ entry ∈ past, Keeps entry.1 entry.2)) ∧
    ∀ u w str fg bg, vgaPrintColor u str fg bg = .ok w → w.currentColor = u.currentColor :=
  colors_iff lightGreen ⟨by decide,by decide⟩ _

/-- The byte 0x80 gets the colour 0xFF. -/
theorem sign_colors : ∃ past last, past.map Prod.snd = allActs lightGreen.currentColor [.putchar 0x80] ∧
    Run Step (unmarked lightGreen) past last ∧ [Call.putchar 0x80].foldlM call lightGreen = .ok last.state ∧
    ¬∀ s ∈ past.map Prod.fst ++ [last], Colored s := by
  have initial := Tracks.initial (v := lightGreen) ⟨by decide,by decide⟩
  obtain ⟨w,done,-,-⟩ := initial.put 0x80
  have moved : Step (unmarked lightGreen) (.put 0x80) ⟨w,mark (unmarked lightGreen) (.put 0x80)⟩ :=
    ⟨done,rfl⟩
  refine ⟨[(_,.put 0x80)],_,rfl,.single moved,?_,fun all => ?_⟩
  · rw [List.foldlM_cons,call,show vgaPutchar lightGreen 0x80 = .ok w from done]
    rfl
  · have keeps := (step_colored_iff initial (fun _ _ => nofun) moved).mp (all _ (by simp))
    revert keeps
    unfold Keeps Plain
    decide

end NimrodOS.Vga
