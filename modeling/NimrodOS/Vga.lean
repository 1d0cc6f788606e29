import NimrodOS.Lib.Checked
import NimrodOS.Lib.Terminal
import NimrodOS.Lib.Wire

/-! The text screen of `drivers/vga.c`, of 25 rows with 80 columns. -/
namespace NimrodOS.Vga

open Wire Checked Terminal

structure State where
  videoMemory : Fin 2000 → Half
  cursorX : Int
  cursorY : Int
  currentColor : Byte
  /-- Where the hardware shows its cursor. -/
  location : Half

/-- A `char` is signed. -/
def makeVgaEntry (c color : Byte) : Half := c.signExtend 16 ||| color.setWidth 16 <<< 8

def updateCursor (v : State) : State :=
  {v with location := BitVec.ofInt 16 (v.cursorY * 80 + v.cursorX)}

def scroll (v : State) : Except OutOfRange State :=
  if v.cursorY ≥ 25 then do
    let moved ← shift v.videoMemory 80 1920
    let cleared ← fill moved 1920 80 (makeVgaEntry 32 v.currentColor)
    return {v with videoMemory := cleared, cursorY := 24}
  else return v

def vgaClear (v : State) : Except OutOfRange State := do
  let cleared ← fill v.videoMemory 0 2000 (makeVgaEntry 32 v.currentColor)
  return updateCursor {v with videoMemory := cleared, cursorX := 0, cursorY := 0}

/-- The first half of `vga_putchar`. -/
def place (v : State) (c : Byte) : Except OutOfRange State :=
  if c = 10 then .ok {v with cursorX := 0, cursorY := v.cursorY + 1}
  else if c = 13 then .ok {v with cursorX := 0}
  -- `& ~3` goes down to a multiple of 4.
  else if c = 9 then .ok {v with cursorX := (v.cursorX + 4) / 4 * 4}
  else do
    let written ← Checked.set v.videoMemory (v.cursorY * 80 + v.cursorX)
      (makeVgaEntry c v.currentColor)
    return {v with videoMemory := written, cursorX := v.cursorX + 1}

def wrapCursor (v : State) : State :=
  if v.cursorX ≥ 80 then {v with cursorX := 0, cursorY := v.cursorY + 1} else v

def vgaPutchar (v : State) (c : Byte) : Except OutOfRange State := do
  let placed ← place v c
  let scrolled ← scroll (wrapCursor placed)
  return updateCursor scrolled

def stepBack (v : State) : State :=
  if v.cursorX > 0 then {v with cursorX := v.cursorX - 1}
  else if v.cursorY > 0 then {v with cursorY := v.cursorY - 1, cursorX := 79}
  else v

def vgaBackspace (v : State) : Except OutOfRange State := do
  let moved := stepBack v
  let written ← Checked.set moved.videoMemory (moved.cursorY * 80 + moved.cursorX)
    (makeVgaEntry 32 moved.currentColor)
  return updateCursor {moved with videoMemory := written}

/-- The string ends at its first NUL at the latest. -/
def vgaPrint (v : State) : List Byte → Except OutOfRange State
  | [] => .ok v
  | c :: str =>
    if c = 0 then .ok v
    else do
      let next ← vgaPutchar v c
      vgaPrint next str

/-- `vga_clear` and then one `vga_putchar` for each byte. -/
def printed (v : State) (text : List Byte) : Except OutOfRange State := do
  let cleared ← vgaClear v
  text.foldlM vgaPutchar cleared

/-! The terminal that the screen stands for. -/

def symbol (c : Byte) : Symbol Byte :=
  if c = 10 then .newline else if c = 13 then .carriageReturn else if c = 9 then .tab
  else .character c

def terminal (text : List Byte) : Terminal Byte := typed 80 4 32 (text.map symbol)

/-- The character bytes by rows and columns. -/
def chars (v : State) (row col : Nat) : Byte :=
  if inside : row * 80 + col < 2000 then (v.videoMemory ⟨_,inside⟩).setWidth 8 else 32

/-- The screen shows the terminal from row `top` on. -/
structure Views (v : State) (t : Terminal Byte) (top : Nat) : Prop where
  shows : Shows 25 80 top t.page (chars v)
  column : v.cursorX = t.x
  row : v.cursorY + top = t.y
  above : top ≤ t.y

/-- The screen shows the last rows, with the cursor inside. -/
structure ShowsEnd (v : State) (t : Terminal Byte) : Prop where
  views : Views v t (t.y - 24)
  columns : 0 ≤ v.cursorX ∧ v.cursorX < 80
  rows : 0 ≤ v.cursorY ∧ v.cursorY < 25
  location : v.location = BitVec.ofInt 16 (v.cursorY * 80 + v.cursorX)

variable {v w : State} {t : Terminal Byte} {top row col r k : Nat} {c : Byte}

theorem makeVgaEntry_char (c color : Byte) : (makeVgaEntry c color).setWidth 8 = c := by
  ext i inside
  have low : i < 16 := by omega
  have bits : ((makeVgaEntry c color).setWidth 8)[i] = (c.signExtend 16)[i] := by
    simp [makeVgaEntry,low]
  rw [bits,BitVec.getElem_signExtend,dif_pos inside]

/-! The screen, cell for cell. -/

section Cells

variable {α : Type} {R : α → Half → Prop} {t t' : Terminal α} {blank : α}

/-- The cells by rows and columns. -/
def entries (v : State) (row col : Nat) : Half :=
  if inside : row * 80 + col < 2000 then v.videoMemory ⟨_,inside⟩ else makeVgaEntry 32 0

/-- From row `top` on, what is on the page and what is in the cells belong together. -/
structure Pictures (R : α → Half → Prop) (v : State) (t : Terminal α) (top : Nat) : Prop where
  cells : ∀ r k, r < 25 → k < 80 → R (t.page (top + r) k) (entries v r k)
  column : v.cursorX = t.x
  row : v.cursorY + top = t.y
  above : top ≤ t.y

theorem entries_inside (inside : r < 25) (across : k < 80) :
    entries v r k = v.videoMemory ⟨r * 80 + k,by omega⟩ := dif_pos (by omega)

/-- Within the screen every cell has its own place. -/
theorem place_eq (across : k < 80) (column : col < 80) :
    r * 80 + k = row * 80 + col ↔ r = row ∧ k = col := by omega

theorem entries_write {e : Half} (inside : row < 25) (across : col < 80)
    (written : w.videoMemory = Function.update v.videoMemory ⟨row * 80 + col,by omega⟩ e)
    (low : r < 25) (right : k < 80) :
    entries w r k = if r = row ∧ k = col then e else entries v r k := by
  rw [entries_inside low right,written]
  split_ifs with here
  · obtain ⟨rfl,rfl⟩ := here
    exact Function.update_self ..
  · have other : (⟨r * 80 + k,by omega⟩ : Fin 2000) ≠ ⟨row * 80 + col,by omega⟩ := fun same =>
      here ((place_eq right across).mp (congrArg Fin.val same))
    rw [Function.update_of_ne other,entries_inside low right]

/-- The loops of `scroll` take every row up by one and clear the last one. -/
theorem scroll_down (below : v.cursorY ≥ 25) : ∃ w, scroll v = .ok w ∧ w.cursorX = v.cursorX ∧
    w.cursorY = 24 ∧ w.currentColor = v.currentColor ∧ ∀ r k, r < 25 → k < 80 →
      entries w r k = if r + 1 < 25 then entries v (r + 1) k else makeVgaEntry 32 v.currentColor := by
  have row : 1920 + 80 ≤ 2000 := by decide
  rw [scroll,if_pos below,shift_inside (by decide) (by decide)]
  simp only [bind,Except.bind,fill_inside row,pure,Except.pure]
  refine ⟨_,rfl,rfl,rfl,rfl,?_⟩
  intro r k inside across
  rw [entries_inside inside across]
  by_cases last : r + 1 < 25
  · have upper : ¬(1920 ≤ r * 80 + k ∧ r * 80 + k < 1920 + 80) := by omega
    have moved : r * 80 + k < 1920 := by omega
    have place : r * 80 + k + 80 = (r + 1) * 80 + k := by omega
    simp only [if_pos last,if_neg upper,dif_pos moved,entries_inside last across,place]
  · have lowest : 1920 ≤ r * 80 + k ∧ r * 80 + k < 1920 + 80 := by omega
    simp only [if_neg last,if_pos lowest]

theorem scroll_stays (inside : ¬v.cursorY ≥ 25) : scroll v = .ok v := if_neg inside

namespace Pictures

/-- A cell at the cursor is on the screen. -/
theorem write_inside (pictures : Pictures R v t top) (inside : t.x < 80) (low : t.y < top + 25) :
    ∃ row col : Nat, row < 25 ∧ col < 80 ∧ v.cursorY * 80 + v.cursorX = (row * 80 + col : Nat) ∧
      t.y = top + row ∧ t.x = col := by
  have row := pictures.row
  have column := pictures.column
  have above := pictures.above
  exact ⟨t.y - top,t.x,by omega,inside,by omega,by omega,rfl⟩

/-- Writing a cell at the cursor. -/
theorem write {a : α} {e : Half} (pictures : Pictures R v t top) (inside : t.x < 80)
    (low : t.y < top + 25) (here : R a e) : ∃ memory,
    Checked.set v.videoMemory (v.cursorY * 80 + v.cursorX) e = .ok memory ∧
      Pictures R {v with videoMemory := memory} {t with page := put t.page t.y t.x a} top := by
  obtain ⟨row,col,down,across,index,place,column⟩ := pictures.write_inside inside low
  rw [index,set_inside (by omega)]
  refine ⟨_,rfl,fun r k inside' across' => ?_,pictures.column,pictures.row,pictures.above⟩
  show R (put t.page t.y t.x a (top + r) k) _
  rw [entries_write down across rfl inside' across',put,place,column]
  by_cases same : r = row ∧ k = col
  · rw [if_pos same,if_pos ⟨congrArg (top + ·) same.1,same.2⟩]
    exact here
  · have other : ¬(top + r = top + row ∧ k = col) := fun both =>
      same ⟨Nat.add_left_cancel both.1,both.2⟩
    rw [if_neg same,if_neg other]
    exact pictures.cells r k inside' across'

theorem place (pictures : Pictures R v t top) (inside : t.x < 80) (low : t.y < top + 25)
    {f : Byte → α} (here : R (f c) (makeVgaEntry c v.currentColor)) :
    ∃ w, Vga.place v c = .ok w ∧ w.currentColor = v.currentColor ∧
      Pictures R w (t.act 4 ((symbol c).map f)) top := by
  have row := pictures.row
  have column := pictures.column
  have above := pictures.above
  unfold Vga.place symbol
  by_cases newline : c = 10
  · rw [if_pos newline,if_pos newline]
    refine ⟨_,rfl,rfl,pictures.cells,rfl,?_,Nat.le_succ_of_le above⟩
    show v.cursorY + 1 + top = ((t.y + 1 : Nat) : Int)
    omega
  · rw [if_neg newline,if_neg newline]
    by_cases carriageReturn : c = 13
    · rw [if_pos carriageReturn,if_pos carriageReturn]
      exact ⟨_,rfl,rfl,pictures.cells,rfl,row,above⟩
    · rw [if_neg carriageReturn,if_neg carriageReturn]
      by_cases tab : c = 9
      · rw [if_pos tab,if_pos tab]
        refine ⟨_,rfl,rfl,pictures.cells,?_,row,above⟩
        show (v.cursorX + 4) / 4 * 4 = (((t.x / 4 + 1) * 4 : Nat) : Int)
        omega
      · obtain ⟨memory,written,shown⟩ := pictures.write inside low here
        rw [if_neg tab,if_neg tab,written]
        refine ⟨_,rfl,rfl,shown.cells,?_,row,above⟩
        show v.cursorX + 1 = ((t.x + 1 : Nat) : Int)
        omega

theorem wrapCursor (pictures : Pictures R v t top) : Pictures R (Vga.wrapCursor v) (t.wrap 80) top := by
  have row := pictures.row
  have column := pictures.column
  unfold Vga.wrapCursor Terminal.wrap
  by_cases full : 80 ≤ t.x
  · rw [if_pos (by omega),if_pos full]
    refine ⟨pictures.cells,rfl,?_,Nat.le_succ_of_le pictures.above⟩
    show v.cursorY + 1 + top = ((t.y + 1 : Nat) : Int)
    omega
  · rw [if_neg (by omega),if_neg full]
    exact pictures

/-- A screen of the last rows before a symbol shows the last rows again. -/
theorem scroll (pictures : Pictures R v t' top) (proper : Proper 80 blank t)
    (clear : R blank (makeVgaEntry 32 v.currentColor)) (last : t.y < top + 25)
    (down : t.y ≤ t'.y ∧ t'.y ≤ t.y + 1) (kept : ∀ r c, t.y < r → t'.page r c = t.page r c) :
    ∃ w, Vga.scroll v = .ok w ∧ w.currentColor = v.currentColor ∧
      Pictures R w t' (max top (t'.y - 24)) := by
  have row := pictures.row
  have above := pictures.above
  by_cases below : v.cursorY ≥ 25
  · obtain ⟨w,scrolled,column,lowest,color,moved⟩ := scroll_down below
    have next : max top (t'.y - 24) = top + 1 := by omega
    rw [next]
    refine ⟨w,scrolled,color,fun r k inside across => ?_,column.trans pictures.column,by omega,by omega⟩
    rw [moved r k inside across,Nat.add_assoc,Nat.add_comm 1]
    by_cases last : r + 1 < 25
    · rw [if_pos last]
      exact pictures.cells (r + 1) k last across
    · rw [if_neg last,kept _ k (by omega),proper.fresh _ k (by omega)]
      exact clear
  · have same : max top (t'.y - 24) = top := by omega
    rw [same]
    exact ⟨v,scroll_stays below,rfl,pictures⟩

theorem updateCursor (pictures : Pictures R v t top) : Pictures R (Vga.updateCursor v) t top :=
  ⟨pictures.cells,pictures.column,pictures.row,pictures.above⟩

/-- What `vga_putchar` does to the cells and the cursor. -/
theorem putchar (pictures : Pictures R v t top) (proper : Proper 80 blank t) (low : t.y < top + 25)
    (clear : R blank (makeVgaEntry 32 v.currentColor)) {f : Byte → α}
    (here : R (f c) (makeVgaEntry c v.currentColor)) :
    ∃ w, vgaPutchar v c = .ok (Vga.updateCursor w) ∧ w.currentColor = v.currentColor ∧
      Pictures R w (feed 80 4 t ((symbol c).map f))
        (max top ((feed 80 4 t ((symbol c).map f)).y - 24)) := by
  obtain ⟨placed,done,color,shown⟩ := pictures.place proper.inside low here
  have wrapped : (Vga.wrapCursor placed).currentColor = v.currentColor := by
    unfold Vga.wrapCursor
    split_ifs <;> exact color
  obtain ⟨w,scrolled,color',shown'⟩ := shown.wrapCursor.scroll proper (wrapped ▸ clear) low
    (feed_y (by decide) t _) fun r k below => feed_page below _
  refine ⟨w,?_,color'.trans wrapped,shown'⟩
  simp only [vgaPutchar,done,bind,Except.bind,scrolled,pure,Except.pure]

end Pictures

end Cells

/-! Characters. -/

theorem symbol_map (c : Byte) : (symbol c).map id = symbol c := by
  cases symbol c <;> rfl

theorem chars_eq (inside : r < 25) (across : k < 80) : chars v r k = (entries v r k).setWidth 8 := by
  rw [entries_inside inside across]
  exact dif_pos (by omega)

theorem views_iff : Views v t top ↔ Pictures (fun c e => e.setWidth 8 = c) v t top := by
  constructor
  · intro views
    refine ⟨fun r k inside across => ?_,views.column,views.row,views.above⟩
    exact (chars_eq inside across).symm.trans (views.shows r k inside across)
  · intro pictures
    refine ⟨fun r k inside across => ?_,pictures.column,pictures.row,pictures.above⟩
    exact (chars_eq inside across).trans (pictures.cells r k inside across)

namespace ShowsEnd

theorem of_views (views : Views v t (t.y - 24)) (proper : Proper 80 32 t) :
    ShowsEnd (updateCursor v) t := by
  have row := views.row
  have column := views.column
  have inside := proper.inside
  refine ⟨views_iff.mpr (views_iff.mp views).updateCursor,?_,?_,rfl⟩
  · show 0 ≤ v.cursorX ∧ v.cursorX < 80
    omega
  · show 0 ≤ v.cursorY ∧ v.cursorY < 25
    omega

theorem cleared (v : State) : ∃ w, vgaClear v = .ok w ∧ ShowsEnd w (start 32) := by
  rw [vgaClear,fill_inside (by decide)]
  have blank (r k : Nat) (inside : r < 25) (across : k < 80) : 0 ≤ r * 80 + k ∧ r * 80 + k < 0 + 2000 := by
    omega
  refine ⟨_,rfl,of_views (views_iff.mpr ⟨fun r k inside across => ?_,rfl,rfl,Nat.le_refl 0⟩)
    (.start (by decide))⟩
  rw [entries_inside inside across]
  simp only [if_pos (blank r k inside across),makeVgaEntry_char]
  rfl

theorem putchar (shows : ShowsEnd v t) (proper : Proper 80 32 t) (c : Byte) :
    ∃ w, vgaPutchar v c = .ok w ∧ ShowsEnd w (feed 80 4 t (symbol c)) := by
  have low : t.y < t.y - 24 + 25 := by omega
  obtain ⟨w,done,-,shown⟩ := (views_iff.mp shows.views).putchar (f := id) proper low
    (makeVgaEntry_char 32 v.currentColor) (makeVgaEntry_char c v.currentColor)
  have down : t.y ≤ (feed 80 4 t (symbol c)).y := (feed_y (by decide) t (symbol c)).1
  rw [symbol_map,Nat.max_eq_right (by omega)] at shown
  exact ⟨_,done,of_views (views_iff.mpr shown) (proper.feed (symbol c))⟩

end ShowsEnd

/-- Whatever is printed on a cleared screen, it shows the end of the unbounded terminal, and
no cell outside of it is written. -/
theorem printed_shows (v : State) (text : List Byte) :
    ∃ w, printed v text = .ok w ∧ ShowsEnd w (terminal text) := by
  obtain ⟨cleared,done,shows⟩ := ShowsEnd.cleared v
  have kept : ∀ (text : List Byte) (v : State) (t : Terminal Byte), ShowsEnd v t → Proper 80 32 t →
      ∃ w, text.foldlM vgaPutchar v = .ok w ∧ ShowsEnd w ((text.map symbol).foldl (feed 80 4) t) := by
    intro text
    induction text with
    | nil => exact fun v t shows _ => ⟨v,rfl,shows⟩
    | cons c text ih =>
      intro v t shows proper
      obtain ⟨next,moved,shows'⟩ := shows.putchar proper c
      rw [List.foldlM_cons,moved]
      exact ih next _ shows' (proper.feed (symbol c))
  obtain ⟨w,typed,shows'⟩ := kept text cleared (start 32) shows (.start (by decide))
  refine ⟨w,?_,shows'⟩
  rw [printed,done]
  exact typed

end NimrodOS.Vga
