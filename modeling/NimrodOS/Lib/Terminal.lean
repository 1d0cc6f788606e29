import Mathlib.Data.Nat.Basic

/-! A terminal whose page has no end, and a window that shows some rows of it. -/

/-- The page by rows and columns, and the cursor. -/
structure Terminal (α : Type) where
  page : Nat → Nat → α
  x : Nat
  y : Nat

namespace Terminal

inductive Symbol (α : Type) where
  | newline
  | carriageReturn
  | tab
  | character (a : α)

variable {α β : Type} {width height stop top row col : Nat} {blank a : α} {t : Terminal α} {s : Symbol α}

def Symbol.map (f : α → β) : Symbol α → Symbol β
  | .newline => .newline
  | .carriageReturn => .carriageReturn
  | .tab => .tab
  | .character a => .character (f a)

def start (blank : α) : Terminal α := ⟨fun _ _ => blank,0,0⟩

def put (page : Nat → Nat → α) (row col : Nat) (a : α) : Nat → Nat → α :=
  fun r c => if r = row ∧ c = col then a else page r c

/-- What a symbol does where the row has room. -/
def act (stop : Nat) (t : Terminal α) : Symbol α → Terminal α
  | .newline => {t with x := 0, y := t.y + 1}
  | .carriageReturn => {t with x := 0}
  | .tab => {t with x := (t.x / stop + 1) * stop}
  | .character a => {t with page := put t.page t.y t.x a, x := t.x + 1}

def wrap (width : Nat) (t : Terminal α) : Terminal α :=
  if width ≤ t.x then {t with x := 0, y := t.y + 1} else t

def feed (width stop : Nat) (t : Terminal α) (s : Symbol α) : Terminal α :=
  (t.act stop s).wrap width

def typed (width stop : Nat) (blank : α) (text : List (Symbol α)) : Terminal α :=
  text.foldl (feed width stop) (start blank)

theorem feed_written (width stop : Nat) (t : Terminal α) (s : Symbol α) :
    (feed width stop t s).page = (t.act stop s).page := by
  unfold feed wrap
  split_ifs <;> rfl

/-- A symbol writes in the cursor's row at most. -/
theorem feed_page (below : t.y < row) (s : Symbol α) :
    (feed width stop t s).page row col = t.page row col := by
  rw [feed_written]
  cases s with
  | character a => exact if_neg fun here => Nat.ne_of_gt below here.1
  | _ => rfl

theorem wrap_y (width : Nat) (t : Terminal α) : t.y ≤ (t.wrap width).y ∧ (t.wrap width).y ≤ t.y + 1 := by
  unfold wrap
  split_ifs
  · exact ⟨Nat.le_succ _,Nat.le_refl _⟩
  · exact ⟨Nat.le_refl _,Nat.le_succ _⟩

/-- Every symbol takes the cursor down by one row at most. -/
theorem feed_y (some' : 0 < width) (t : Terminal α) (s : Symbol α) :
    t.y ≤ (feed width stop t s).y ∧ (feed width stop t s).y ≤ t.y + 1 := by
  cases s with
  | newline =>
    have room : ¬width ≤ 0 := Nat.not_le_of_lt some'
    rw [feed,act,wrap,if_neg room]
    exact ⟨Nat.le_succ _,Nat.le_refl _⟩
  | carriageReturn => exact wrap_y width (t.act stop .carriageReturn)
  | tab => exact wrap_y width (t.act stop .tab)
  | character a => exact wrap_y width (t.act stop (.character a))

theorem feed_x (some' : 0 < width) (t : Terminal α) (s : Symbol α) :
    (feed width stop t s).x < width := by
  unfold feed wrap
  split_ifs with full
  · exact some'
  · exact Nat.lt_of_not_le full

/-- The cursor is in its row, and nothing was written below. -/
structure Proper (width : Nat) (blank : α) (t : Terminal α) : Prop where
  inside : t.x < width
  fresh : ∀ r c, t.y < r → t.page r c = blank

namespace Proper

theorem start (some' : 0 < width) : Proper width blank (start blank) := ⟨some',fun _ _ _ => rfl⟩

theorem feed (proper : Proper width blank t) (s : Symbol α) :
    Proper width blank (feed width stop t s) := by
  have some' : 0 < width := Nat.zero_lt_of_lt proper.inside
  refine ⟨feed_x some' t s,?_⟩
  intro r c below
  have lower : t.y < r := Nat.lt_of_le_of_lt (feed_y some' t s).1 below
  rw [feed_page lower]
  exact proper.fresh r c lower

end Proper

/-! Windows. -/

/-- The window shows the rows from `top` on. -/
def Shows (height width top : Nat) (page window : Nat → Nat → α) : Prop :=
  ∀ r c, r < height → c < width → window r c = page (top + r) c

end Terminal
