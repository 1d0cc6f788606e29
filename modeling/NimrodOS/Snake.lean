import Mathlib.Algebra.Group.Prod
import Mathlib.Algebra.Ring.Int.Defs
import NimrodOS.Lib.ByteMemory
import NimrodOS.Lib.Run
import NimrodOS.Lib.Turning

/-! The game of `cmd_snake` in `shell/shell.c`, round by round. What is drawn and heard is left
out. -/
namespace NimrodOS.Snake

open Transition Turning

/-- The cells of the snake, its head first, stand for `sx`, `sy` and `slen`. -/
structure Game where
  cells : List (Int × Int)
  dx : Int
  dy : Int
  score : Nat
  fx : Int
  fy : Int
  lastTick : Word
  speed : Word
  gameOver : Bool

/-- What a round finds: the flag of ctrl-C, a scancode if there is one, the time, and, where the
food has been eaten, the cell that the loop around `rand_range` ends with. -/
structure Event where
  ctrlC : Bool
  scancode : Option Byte
  now : Word
  fx : Int
  fy : Int

def start (fx fy : Int) (tick : Word) : Game where
  cells := [(20,10),(19,10),(18,10)]
  dx := 1
  dy := 0
  score := 0
  fx := fx
  fy := fy
  lastTick := tick
  speed := 8
  gameOver := false

/-- The four tests of a scancode, one after the other. -/
def steer (sc : Byte) (d : Int × Int) : Int × Int :=
  let d := if (sc = 0x11 ∨ sc = 0x48) ∧ d.2 ≠ 1 then (0,-1) else d
  let d := if (sc = 0x1F ∨ sc = 0x50) ∧ d.2 ≠ -1 then (0,1) else d
  let d := if (sc = 0x1E ∨ sc = 0x4B) ∧ d.1 ≠ 1 then (-1,0) else d
  if (sc = 0x20 ∨ sc = 0x4D) ∧ d.1 ≠ -1 then (1,0) else d

def escape : Byte := 0x01

/-- The direction once the keyboard has been polled. -/
def polled (g : Game) (e : Event) : Int × Int :=
  match e.scancode with
  | some sc => steer sc (g.dx,g.dy)
  | none => (g.dx,g.dy)

/-- The round goes as far as moving the snake. -/
def Moves (g : Game) (e : Event) : Prop :=
  g.gameOver = false ∧ e.ctrlC = false ∧ e.scancode ≠ some escape ∧ ¬e.now - g.lastTick < g.speed

instance (g : Game) (e : Event) : Decidable (Moves g e) := inferInstanceAs (Decidable (_ ∧ _ ∧ _ ∧ _))

/-- Every cell takes the place of the one in front of it, and the head moves on. -/
def moved (cells : List (Int × Int)) (d : Int × Int) : List (Int × Int) :=
  match cells with
  | [] => []
  | (x,y) :: _ => (x + d.1,y + d.2) :: cells.dropLast

/-- The end grows by the cell that it is in, up to 200 cells. -/
def grown (cells : List (Int × Int)) : List (Int × Int) :=
  if cells.length < 200 then cells ++ cells.getLast?.toList else cells

/-- What follows when the head has come to a cell. -/
def arrive (g : Game) (e : Event) : Game :=
  match g.cells with
  | [] => g
  | (x,y) :: body =>
    if x ≤ 0 ∨ x ≥ 39 ∨ y ≤ 0 ∨ y ≥ 19 then {g with gameOver := true}
    else if (x,y) ∈ body then {g with gameOver := true}
    else if x = g.fx ∧ y = g.fy then
      let score := g.score + 1
      {g with
        score := score
        cells := grown g.cells
        speed := if 3 < g.speed.toInt ∧ score % 5 = 0 then g.speed - 1 else g.speed
        fx := e.fx
        fy := e.fy}
    else g

def round (g : Game) (e : Event) : Game :=
  if g.gameOver then g
  else if e.ctrlC then {g with gameOver := true}
  else
    let (dx,dy) := polled g e
    let g := {g with dx := dx,dy := dy}
    if e.scancode = some escape then {g with gameOver := true}
    else if e.now - g.lastTick < g.speed then g
    else arrive {g with lastTick := e.now,cells := moved g.cells (dx,dy)} e

/-! Directions. -/

/-- The direction that a key stands for. -/
def keyDir (sc : Byte) : Option (Int × Int) :=
  if sc = 0x11 ∨ sc = 0x48 then some (0,-1)
  else if sc = 0x1F ∨ sc = 0x50 then some (0,1)
  else if sc = 0x1E ∨ sc = 0x4B then some (-1,0)
  else if sc = 0x20 ∨ sc = 0x4D then some (1,0)
  else none

def keys (e : Event) : List (Int × Int) := (e.scancode.bind keyDir).toList

/-! What has happened so far. -/

/-- The direction of the last move, and the keys since then. -/
structure History where
  heading : Int × Int
  burst : List (Int × Int)

def observe (h : History) (round : Game × Event) : History :=
  if Moves round.1 round.2 then ⟨polled round.1 round.2,[]⟩
  else ⟨h.heading,h.burst ++ keys round.2⟩

/-- The snake lies as if it had come from the left. -/
def history (past : List (Game × Event)) : History := past.foldl observe ⟨(1,0),[]⟩

/-- No move goes against the one before it, and none leads onto the first segment of the body. -/
def NeverReverses (past : List (Game × Event)) : Prop :=
  ∀ before g e after, past = before ++ (g,e) :: after → Moves g e →
    polled g e ≠ -(history before).heading ∧ (round g e).cells.head? ≠ g.cells[1]?

variable {g : Game} {e : Event} {h : History} {d : Int × Int}

/-! One round. -/

/-- Up, down, left or right. -/
def IsDir (d : Int × Int) : Prop := d = (0,-1) ∨ d = (0,1) ∨ d = (-1,0) ∨ d = (1,0)

theorem keyDir_isDir {sc : Byte} (key : keyDir sc = some d) : IsDir d := by
  unfold keyDir at key
  split_ifs at key
  all_goals
    obtain rfl := Option.some.inj key
    simp [IsDir]

/-- The scancodes that turn the snake. -/
def turns : List Byte := [0x11,0x48,0x1F,0x50,0x1E,0x4B,0x20,0x4D]

/-- The four tests press the key that the scancode stands for. -/
theorem steer_press (sc : Byte) (dir : IsDir d) : steer sc d = (keyDir sc).toList.foldl press d := by
  by_cases turn : sc ∈ turns
  · have each : ∀ sc ∈ turns, ∀ d ∈ [((0,-1) : Int × Int),(0,1),(-1,0),(1,0)],
        steer sc d = (keyDir sc).toList.foldl press d := by decide
    exact each sc turn d (by simpa [IsDir] using dir)
  · simp only [turns,List.mem_cons,List.not_mem_nil,or_false,not_or] at turn
    simp only [steer,keyDir,turn,or_self,false_and,if_false]
    rfl

theorem polled_press (dir : IsDir (g.dx,g.dy)) : polled g e = (keys e).foldl press (g.dx,g.dy) := by
  unfold polled keys
  cases e.scancode with
  | none => rfl
  | some sc => exact steer_press sc dir

theorem press_isDir {key : Int × Int} (dir : IsDir d) (dir' : IsDir key) : IsDir (press d key) := by
  unfold press
  split_ifs
  · exact dir
  · exact dir'

theorem polled_isDir (dir : IsDir (g.dx,g.dy)) : IsDir (polled g e) := by
  rw [polled_press dir]
  unfold keys
  cases key : e.scancode.bind keyDir with
  | none => exact dir
  | some d =>
    obtain ⟨sc,-,read⟩ := Option.bind_eq_some_iff.mp key
    exact press_isDir dir (keyDir_isDir read)

/-- The direction is kept where the head arrives, and the front of the snake. -/
theorem arrive_keeps (g : Game) (e : Event) : (arrive g e).dx = g.dx ∧ (arrive g e).dy = g.dy ∧
    ∃ extra, (arrive g e).cells = g.cells ++ extra := by
  unfold arrive
  split
  · exact ⟨rfl,rfl,[],(List.append_nil _).symm⟩
  · split_ifs
    · exact ⟨rfl,rfl,[],(List.append_nil _).symm⟩
    · exact ⟨rfl,rfl,[],(List.append_nil _).symm⟩
    · refine ⟨rfl,rfl,?_⟩
      change ∃ extra, grown g.cells = _
      unfold grown
      split_ifs
      · exact ⟨_,rfl⟩
      · exact ⟨[],(List.append_nil _).symm⟩
    · exact ⟨rfl,rfl,[],(List.append_nil _).symm⟩

theorem round_polled (playing : g.gameOver = false) (free : e.ctrlC = false) : round g e =
    let turned := {g with dx := (polled g e).1,dy := (polled g e).2}
    if e.scancode = some escape then {turned with gameOver := true}
    else if e.now - g.lastTick < g.speed then turned
    else arrive {turned with lastTick := e.now,cells := moved g.cells (polled g e)} e := by
  rw [round,if_neg (by simp [playing]),if_neg (by simp [free])]

theorem round_moves (moves : Moves g e) : round g e = arrive
    {g with
      dx := (polled g e).1
      dy := (polled g e).2
      lastTick := e.now
      cells := moved g.cells (polled g e)} e := by
  obtain ⟨playing,free,stays,late⟩ := moves
  rw [round_polled playing free]
  exact (if_neg stays).trans (if_neg late)

/-- A round that does not move the snake ends the game or only changes the direction. -/
theorem round_waits (playing : g.gameOver = false) (waits : ¬Moves g e) (goes : (round g e).gameOver = false) :
    round g e = {g with dx := (polled g e).1,dy := (polled g e).2} := by
  cases free : e.ctrlC with
  | true =>
    rw [round,if_neg (by simp [playing]),if_pos free] at goes
    cases goes
  | false =>
    rw [round_polled playing free] at goes ⊢
    dsimp only at goes ⊢
    split_ifs at goes ⊢ with stops early
    · rfl
    · exact absurd ⟨playing,free,stops,early⟩ waits

/-- While the game goes on, the direction is what the keys since the last move make of its
direction, and the body lies behind the head. -/
structure Tracked (h : History) (g : Game) : Prop where
  heading : IsDir h.heading
  pending : (g.dx,g.dy) = h.burst.foldl press h.heading
  dir : IsDir (g.dx,g.dy)
  behind : ∃ first rest, g.cells = (first + h.heading) :: first :: rest

/-- A move goes against the last one after keys that turn back, and then the head comes to the first
segment. -/
theorem Tracked.move (tracked : Tracked h g) (moves : Moves g e) :
    (polled g e = -h.heading ↔ TurnsBack h.heading (h.burst ++ keys e)) ∧
      ((round g e).cells.head? = g.cells[1]? ↔ polled g e = -h.heading) ∧
      ∃ first rest, (round g e).cells = (first + polled g e) :: first :: rest := by
  have apart : h.heading ≠ -h.heading := by
    rcases tracked.heading with same | same | same | same <;> rw [same] <;> decide
  obtain ⟨first,rest,cells⟩ := tracked.behind
  obtain ⟨-,-,extra,kept⟩ := arrive_keeps {g with
      dx := (polled g e).1
      dy := (polled g e).2
      lastTick := e.now
      cells := moved g.cells (polled g e)} e
  have front : moved g.cells (polled g e) = (first + h.heading + polled g e) :: (first + h.heading) ::
      (first :: rest).dropLast := by
    rw [cells]
    rfl
  rw [round_moves moves,kept]
  dsimp only
  rw [front]
  refine ⟨?_,?_,first + h.heading,_,rfl⟩
  · rw [polled_press tracked.dir,tracked.pending,← List.foldl_append]
    exact (foldl_press apart _).2
  · rw [cells]
    simp only [List.cons_append,List.head?_cons,List.getElem?_cons_succ,List.getElem?_cons_zero,
      Option.some.injEq]
    rw [add_assoc,add_eq_left,add_comm]
    exact add_eq_zero_iff_eq_neg

theorem Tracked.round (tracked : Tracked h g) (playing : g.gameOver = false)
    (goes : (round g e).gameOver = false) : Tracked (observe h (g,e)) (Snake.round g e) := by
  have dir := polled_isDir (e := e) tracked.dir
  unfold observe
  by_cases moves : Moves g e
  · obtain ⟨dx,dy,-⟩ := arrive_keeps {g with
      dx := (polled g e).1
      dy := (polled g e).2
      lastTick := e.now
      cells := moved g.cells (polled g e)} e
    rw [← round_moves moves] at dx dy
    have turned : ((Snake.round g e).dx,(Snake.round g e).dy) = polled g e := Prod.ext dx dy
    rw [if_pos moves]
    exact ⟨dir,turned,turned ▸ dir,(tracked.move moves).2.2⟩
  · rw [if_neg moves,round_waits playing moves goes]
    refine ⟨tracked.heading,?_,dir,tracked.behind⟩
    change polled g e = _
    rw [polled_press tracked.dir,tracked.pending,List.foldl_append]

/-! Whole games. -/

theorem history_snoc (past : List (Game × Event)) (entry : Game × Event) :
    history (past ++ [entry]) = observe (history past) entry := by
  rw [history,List.foldl_append]
  rfl

theorem start_tracked (fx fy : Int) (tick : Word) : Tracked (history []) (start fx fy tick) := by
  refine ⟨?_,rfl,?_,(19,10),[(18,10)],rfl⟩
  · simp [history,IsDir]
  · simp [start,IsDir]

theorem game_tracked {past : List (Game × Event)} {last : Game} {fx fy : Int} {tick : Word}
    (run : Run (fun g e t => round g e = t) (start fx fy tick) past last) (playing : last.gameOver = false) :
    Tracked (history past) last := by
  induction run with
  | nil => exact start_tracked fx fy tick
  | @snoc past g t e prior moved ih =>
    rw [history_snoc]
    subst moved
    have before : g.gameOver = false := by
      by_contra ended
      rw [Bool.not_eq_false] at ended
      rw [round,if_pos ended,ended] at playing
      cases playing
    exact (ih before).round before playing

/-- The snake reverses with just those moves in front of which keys turn it off and then back. -/
theorem snake_reverses_iff (fx fy : Int) (tick : Word) (events : List Event) :
    NeverReverses (trace round (start fx fy tick) events) ↔
      ∀ before g e after, trace round (start fx fy tick) events = before ++ (g,e) :: after →
        Moves g e → ¬TurnsBack (history before).heading ((history before).burst ++ keys e) := by
  have run := run_trace round (start fx fy tick) events
  have move {before g e after} (split : trace round (start fx fy tick) events = before ++ (g,e) :: after)
      (moves : Moves g e) := by
    rw [split] at run
    exact (game_tracked run.split.1 moves.1).move moves
  constructor
  · intro straight before g e after split moves back
    obtain ⟨reverses,-,-⟩ := move split moves
    exact (straight before g e after split moves).1 (reverses.mpr back)
  · intro turns before g e after split moves
    obtain ⟨reverses,segment,-⟩ := move split moves
    have straight := fun back => turns before g e after split moves (reverses.mp back)
    exact ⟨straight,fun same => straight (segment.mp same)⟩

/-- A move to the right, then W and A, and the next move. -/
def turnBack : List Event := [⟨false,none,8,1,1⟩,⟨false,some 0x11,8,1,1⟩,⟨false,some 0x1E,8,1,1⟩,
  ⟨false,none,16,1,1⟩]

theorem snake_reverses : ¬∀ fx fy tick events, NeverReverses (trace round (start fx fy tick) events) := by
  intro straight
  obtain ⟨forward,-⟩ := straight 1 1 0 turnBack (trace round (start 1 1 0) (turnBack.take 3))
    ((turnBack.take 3).foldl round (start 1 1 0)) ⟨false,none,16,1,1⟩ [] rfl (by decide)
  exact forward (by decide)

end NimrodOS.Snake
