import NimrodOS.Lib.Tape
import NimrodOS.Vga

/-! The screen of `drivers/vga.c` as a part of a tape with rows of 80 places. As long as no row is
ended, `vga_putchar` writes on the tape and `vga_backspace` goes back on it. -/
namespace NimrodOS.Vga

open Wire Checked Terminal

/-- The rows of a tape. -/
def rows (t : Tape Byte) : Terminal Byte := ⟨fun r k => t.cells (r * 80 + k),t.place % 80,t.place / 80⟩

/-- The byte stays in its row, or the row is full. -/
def InRow (c : Byte) : Prop := c ≠ 10 ∧ c ≠ 13

/-- How many rows `vga_putchar` moves off the screen. -/
def rowsLost (v : State) (c : Byte) : Except OutOfRange Nat := do
  let placed ← place v c
  return if (wrapCursor placed).cursorY ≥ 25 then 1 else 0

/-- The screen shows the tape from row `top` on, with both cursors at its place. -/
structure Pictured (v : State) (t : Tape Byte) (top : Nat) : Prop where
  views : Views v (rows t) top
  location : v.location = BitVec.ofInt 16 (v.cursorY * 80 + v.cursorX)

/-- Moreover the place is on the screen, and there is nothing behind it. -/
structure Follows (v : State) (t : Tape Byte) (top : Nat) : Prop where
  pictured : Pictured v t top
  low : t.place / 80 < top + 25
  clear : t.Clear 32

/-- Where `vga_backspace` goes; at the first cell of the screen it stays. -/
def backFrom (top : Nat) (t : Tape Byte) : Tape Byte :=
  if top * 80 < t.place then t.back 32 else {t with cells := Function.update t.cells t.place 32}

def eraseFrom (top : Nat) : Nat → Tape Byte → Tape Byte
  | 0,t => t
  | n + 1,t => eraseFrom top n (backFrom top t)

variable {v w : State} {t t' : Tape Byte} {top r k n : Nat} {c : Byte}

section Cells

variable {α : Type} {R : α → Half → Prop} {p q : Terminal α}

/-- Only the columns of the screen count. -/
theorem Pictures.congr (pictures : Pictures R v p top) (page : ∀ r k, k < 80 → q.page r k = p.page r k)
    (x : q.x = p.x) (y : q.y = p.y) : Pictures R v q top := by
  refine ⟨fun r k inside across => ?_,x ▸ pictures.column,y ▸ pictures.row,y ▸ pictures.above⟩
  rw [page _ k across]
  exact pictures.cells r k inside across

/-- One row is lost just when the symbol ends below the screen. -/
theorem Pictures.rowsLost (pictures : Pictures R v p top) (inside : p.x < 80) (low : p.y < top + 25)
    {f : Byte → α} (here : R (f c) (makeVgaEntry c v.currentColor)) :
    ∃ n, Vga.rowsLost v c = .ok n ∧ top + n = max top ((feed 80 4 p ((symbol c).map f)).y - 24) := by
  obtain ⟨placed,done,-,shown⟩ := pictures.place inside low here
  have row : (Vga.wrapCursor placed).cursorY + top = (feed 80 4 p ((symbol c).map f)).y := shown.wrapCursor.row
  have down : p.y ≤ (feed 80 4 p ((symbol c).map f)).y ∧ (feed 80 4 p ((symbol c).map f)).y ≤ p.y + 1 :=
    feed_y (by decide) p _
  rw [Vga.rowsLost,done]
  refine ⟨_,rfl,?_⟩
  split_ifs <;> omega

end Cells

/-! Rows and places. -/

theorem proper_rows (clear : t.Clear 32) : Proper 80 32 (rows t) := by
  refine ⟨Nat.mod_lt _ (by decide),fun r k below => clear _ ?_⟩
  have below : t.place / 80 < r := below
  omega

/-- In the rows, a symbol goes where it goes on the tape. -/
theorem feed_rows (inRow : InRow c) :
    (∀ r k, k < 80 → (rows (t.write 4 9 c)).page r k = (feed 80 4 (rows t) (symbol c)).page r k) ∧
      (rows (t.write 4 9 c)).x = (feed 80 4 (rows t) (symbol c)).x ∧
      (rows (t.write 4 9 c)).y = (feed 80 4 (rows t) (symbol c)).y := by
  obtain ⟨newline,carriageReturn⟩ := inRow
  rw [feed_written]
  unfold symbol
  rw [if_neg newline,if_neg carriageReturn]
  by_cases tab : c = 9
  · have stops : t.place % 80 / 4 + 1 ≤ 20 := by omega
    rw [if_pos tab]
    unfold rows Tape.write Tape.advance feed Terminal.act wrap
    dsimp only
    rw [if_pos tab,if_pos tab]
    refine ⟨fun _ _ _ => rfl,?_,?_⟩
    · split_ifs <;> dsimp only <;> omega
    · split_ifs <;> dsimp only <;> omega
  · rw [if_neg tab]
    unfold rows Tape.write Tape.advance feed Terminal.act wrap put
    dsimp only
    rw [if_neg tab,if_neg tab]
    refine ⟨fun r k across => ?_,?_,?_⟩
    · rw [Function.update_apply]
      have place : r * 80 + k = t.place ↔ r = t.place / 80 ∧ k = t.place % 80 := by omega
      simp only [place]
    · split_ifs <;> dsimp only <;> omega
    · split_ifs <;> dsimp only <;> omega

theorem backFrom_eq (behind : top * 80 < t.place) : backFrom top t = t.back 32 := if_pos behind

theorem eraseFrom_eq (behind : top * 80 + n ≤ t.place) : eraseFrom top n t = t.erase 32 n := by
  induction n generalizing t with
  | zero => rfl
  | succ n ih =>
    have less : top * 80 + n ≤ (t.back 32).place := show top * 80 + n ≤ t.place - 1 by omega
    rw [eraseFrom,backFrom_eq (by omega),ih less]
    rfl

namespace Follows

theorem putchar (follows : Follows v t top) (inRow : InRow c) :
    ∃ w n, vgaPutchar v c = .ok w ∧ rowsLost v c = .ok n ∧ Follows w (t.write 4 9 c) (top + n) ∧
      top + n = max top ((t.write 4 9 c).place / 80 - 24) := by
  have proper := proper_rows follows.clear
  have pictures := views_iff.mp follows.pictured.views
  have here := makeVgaEntry_char c v.currentColor
  obtain ⟨page,x,y⟩ := feed_rows (t := t) inRow
  obtain ⟨w,done,-,shown⟩ := pictures.putchar (f := id) proper follows.low
    (makeVgaEntry_char 32 v.currentColor) here
  obtain ⟨n,lost,total⟩ := pictures.rowsLost (f := id) proper.inside follows.low here
  rw [symbol_map] at shown total
  rw [← total] at shown
  have low : (t.write 4 9 c).place / 80 = (feed 80 4 (rows t) (symbol c)).y := y
  have views := views_iff.mpr (shown.updateCursor.congr page x y)
  refine ⟨_,n,done,lost,⟨⟨views,rfl⟩,?_,follows.clear.write (by decide) c⟩,?_⟩
  · omega
  · rw [low]
    exact total

/-- The cell at the cursor is emptied once the cursor has moved. -/
theorem emptied (follows : Follows v t top) {place : Nat} (near : place ≤ t.place ∧ t.place ≤ place + 1)
    (above : top * 80 ≤ place) (column : (stepBack v).cursorX = (place % 80 : Nat))
    (row : (stepBack v).cursorY + top = (place / 80 : Nat)) :
    ∃ w, vgaBackspace v = .ok w ∧ Follows w ⟨Function.update t.cells place 32,place⟩ top := by
  have pictures := views_iff.mp follows.pictured.views
  have low := follows.low
  have cells : (stepBack v).videoMemory = v.videoMemory := by
    unfold stepBack
    split_ifs <;> rfl
  have moved : Pictures (fun c e => e.setWidth 8 = c) (stepBack v) ⟨(rows t).page,place % 80,place / 80⟩ top := by
    refine ⟨fun r k inside across => ?_,column,row,show top ≤ place / 80 by omega⟩
    rw [entries_inside inside across,cells,← entries_inside inside across]
    exact pictures.cells r k inside across
  obtain ⟨memory,written,shown⟩ := moved.write (a := 32) (Nat.mod_lt _ (by decide))
    (show place / 80 < top + 25 by omega) (makeVgaEntry_char 32 (stepBack v).currentColor)
  have page : ∀ r k, k < 80 → (rows ⟨Function.update t.cells place 32,place⟩).page r k =
      put (rows t).page (place / 80) (place % 80) 32 r k := by
    intro r k across
    unfold rows put
    dsimp only
    rw [Function.update_apply]
    have here : r * 80 + k = place ↔ r = place / 80 ∧ k = place % 80 := by omega
    simp only [here]
  have views := views_iff.mpr (shown.updateCursor.congr page rfl rfl)
  unfold vgaBackspace
  simp only [written,bind,Except.bind,pure,Except.pure]
  refine ⟨_,rfl,⟨views,rfl⟩,show place / 80 < top + 25 by omega,fun i behind => ?_⟩
  have behind : place ≤ i := behind
  by_cases here : i = place
  · rw [here]
    exact Function.update_self ..
  · exact (Function.update_of_ne here _ _).trans (follows.clear i (by omega))

theorem backspace (follows : Follows v t top) :
    ∃ w, vgaBackspace v = .ok w ∧ Follows w (backFrom top t) top := by
  have pictures := views_iff.mp follows.pictured.views
  have column : v.cursorX = (t.place % 80 : Nat) := pictures.column
  have row : v.cursorY + top = (t.place / 80 : Nat) := pictures.row
  have above : top ≤ t.place / 80 := pictures.above
  unfold backFrom
  by_cases behind : top * 80 < t.place
  · rw [if_pos behind]
    have moved : (stepBack v).cursorX = ((t.place - 1) % 80 : Nat) ∧
        (stepBack v).cursorY + top = ((t.place - 1) / 80 : Nat) := by
      unfold stepBack
      split_ifs with right lower
      · constructor <;> dsimp only <;> omega
      · constructor <;> dsimp only <;> omega
      · omega
    exact follows.emptied (by omega) (by omega) moved.1 moved.2
  · rw [if_neg behind]
    have stays : stepBack v = v := by rw [stepBack,if_neg (by omega),if_neg (by omega)]
    refine follows.emptied (by omega) (by omega) ?_ ?_
    · rw [stays]
      exact column
    · rw [stays]
      exact row

/-- Two tapes that the same screen shows are the same where it shows them. -/
theorem same (follows : Follows v t top) (views : Views v (rows t') top) (clear : t'.Clear 32)
    (above : ∀ i, i < top * 80 → t.cells i = t'.cells i) : t = t' := by
  have pictures := views_iff.mp follows.pictured.views
  have pictures' := views_iff.mp views
  have column : ((t.place % 80 : Nat) : Int) = (t'.place % 80 : Nat) := pictures.column.symm.trans pictures'.column
  have row : ((t.place / 80 : Nat) : Int) = (t'.place / 80 : Nat) := pictures.row.symm.trans pictures'.row
  have place : t.place = t'.place := by omega
  have low := follows.low
  have cells : t.cells = t'.cells := by
    funext i
    by_cases before : i < top * 80
    · exact above i before
    · by_cases inside : i < (top + 25) * 80
      · have here : (top + (i / 80 - top)) * 80 + i % 80 = i := by omega
        have shown := (pictures.cells (i / 80 - top) (i % 80) (by omega) (Nat.mod_lt _ (by decide))).symm.trans
          (pictures'.cells (i / 80 - top) (i % 80) (by omega) (Nat.mod_lt _ (by decide)))
        unfold rows at shown
        dsimp only at shown
        rw [here] at shown
        exact shown
      · rw [follows.clear i (by omega),clear i (by omega)]
  cases t
  cases t'
  exact Tape.mk.injEq _ _ _ _ ▸ ⟨cells,place⟩

end Follows

end NimrodOS.Vga
