import Mathlib.Algebra.Order.Group.Nat
import Mathlib.Logic.Function.Basic

/-! A tape that symbols are written on, with a tab that goes to the next stop, and a key that goes
one place back. It tells when the symbols can be taken back by going back once for each. -/

structure Tape (α : Type) where
  cells : Nat → α
  place : Nat

namespace Tape

section Definitions

variable {α : Type} [DecidableEq α] (stop : Nat) (tab blank : α)

def advance (place : Nat) (a : α) : Nat := if a = tab then (place / stop + 1) * stop else place + 1

/-- Where a text ends that begins at a place. -/
def after (place : Nat) (s : List α) : Nat := s.foldl (advance stop tab) place

def write (t : Tape α) (a : α) : Tape α where
  cells := if a = tab then t.cells else Function.update t.cells t.place a
  place := advance stop tab t.place a

def writes (t : Tape α) (s : List α) : Tape α := s.foldl (write stop tab) t

def back (t : Tape α) : Tape α := ⟨Function.update t.cells (t.place - 1) blank,t.place - 1⟩

def erase : Nat → Tape α → Tape α
  | 0,t => t
  | n + 1,t => erase n (t.back blank)

/-- Nothing was written from the place on. -/
def Clear (t : Tape α) : Prop := ∀ i, t.place ≤ i → t.cells i = blank

/-- A symbol that leaves nothing to see. -/
def Unseen (a : α) : Prop := a = tab ∨ a = blank

/-- Where one ends up by going back once for each symbol of a text. -/
def returned (place : Nat) (s : List α) : Nat := after stop tab place s - s.length

/-- A text `new` shows alike at the place where the text `old` began and where one returns to from
its end: nothing is seen of `old` between them, and in `new` both places meet in front of all that
is seen. -/
def Alike (place : Nat) (old new : List α) : Prop :=
  (∀ front a rest, old = front ++ a :: rest →
    after stop tab place front < returned stop tab place old → Unseen tab blank a) ∧
  ∃ front rest, new = front ++ rest ∧ (∀ a ∈ front, Unseen tab blank a) ∧
    after stop tab place front = after stop tab (returned stop tab place old) front

end Definitions

variable {α : Type} {stop n place place' : Nat} {tab blank a : α} {t t' : Tape α} {s old new : List α}

/-! Going back. -/

theorem Clear.back (clear : t.Clear blank) : (t.back blank).Clear blank := by
  intro i behind
  by_cases here : i = t.place - 1
  · rw [here]
    exact Function.update_self ..
  · have later : t.place ≤ i := by
      have behind : t.place - 1 ≤ i := behind
      omega
    exact (Function.update_of_ne here _ _).trans (clear i later)

theorem erase_place (n : Nat) (t : Tape α) : (t.erase blank n).place = t.place - n := by
  induction n generalizing t with
  | zero => rfl
  | succ n ih =>
    rw [erase,ih,Nat.add_comm,← Nat.sub_sub]
    rfl

theorem erase_before {i : Nat} (before : i < t.place - n) : (t.erase blank n).cells i = t.cells i := by
  induction n generalizing t with
  | zero => rfl
  | succ n ih =>
    have inside : i < (t.back blank).place - n := by
      rw [back,Nat.sub_sub,Nat.add_comm]
      exact before
    have apart : i ≠ t.place - 1 := by omega
    exact (ih inside).trans (Function.update_of_ne apart _ _)

theorem Clear.erase (clear : t.Clear blank) (n : Nat) : (t.erase blank n).Clear blank := by
  induction n generalizing t with
  | zero => exact clear
  | succ n ih => exact ih clear.back

variable [DecidableEq α]

/-! Places. -/

theorem advance_lt (some' : 0 < stop) (tab : α) (place : Nat) (a : α) : place < advance stop tab place a := by
  unfold advance
  split_ifs
  · exact Nat.mul_comm stop _ ▸ Nat.lt_mul_div_succ place some'
  · exact Nat.lt_succ_self place

theorem advance_le (some' : 0 < stop) (tab : α) (place : Nat) (a : α) : advance stop tab place a ≤ place + stop := by
  unfold advance
  split_ifs
  · rw [Nat.succ_mul]
    exact Nat.add_le_add_right (Nat.div_mul_le_self place stop) stop
  · exact Nat.add_le_add_left some' place

theorem advance_mono (less : place ≤ place') (a : α) :
    advance stop tab place a ≤ advance stop tab place' a := by
  unfold advance
  split_ifs
  · exact Nat.mul_le_mul_right stop (Nat.succ_le_succ (Nat.div_le_div_right less))
  · exact Nat.succ_le_succ less

theorem after_append (place : Nat) (s s' : List α) :
    after stop tab place (s ++ s') = after stop tab (after stop tab place s) s' := List.foldl_append

theorem length_le_after (some' : 0 < stop) (tab : α) (place : Nat) (s : List α) :
    place + s.length ≤ after stop tab place s := by
  induction s generalizing place with
  | nil => exact Nat.le_refl place
  | cons a s ih =>
    have first := advance_lt some' tab place a
    have rest := ih (advance stop tab place a)
    rw [List.length_cons]
    exact (show place + (s.length + 1) ≤ advance stop tab place a + s.length by omega).trans rest

theorem after_le (some' : 0 < stop) (tab : α) (place : Nat) (s : List α) :
    after stop tab place s ≤ place + stop * s.length := by
  induction s generalizing place with
  | nil => exact Nat.le_refl place
  | cons a s ih =>
    have first := advance_le some' tab place a
    have rest := ih (advance stop tab place a)
    rw [List.length_cons,Nat.mul_succ]
    exact rest.trans (by omega)

theorem writes_place (t : Tape α) (s : List α) :
    (t.writes stop tab s).place = after stop tab t.place s := by
  induction s generalizing t with
  | nil => rfl
  | cons a s ih => exact ih (t.write stop tab a)

theorem writes_append (t : Tape α) (s s' : List α) :
    t.writes stop tab (s ++ s') = (t.writes stop tab s).writes stop tab s' := List.foldl_append

theorem place_le_returned (some' : 0 < stop) (place : Nat) (s : List α) :
    place ≤ returned stop tab place s := Nat.le_sub_of_add_le (length_le_after some' tab place s)

/-! Cells. -/

/-- A symbol that is not seen leaves a clear tape as it is. -/
theorem Clear.unseen (clear : t.Clear blank) (unseen : Unseen tab blank a) :
    (t.write stop tab a).cells = t.cells := by
  unfold write
  rcases unseen with tab | none
  · exact if_pos tab
  · dsimp only
    split_ifs
    · rfl
    · rw [none,← clear t.place (Nat.le_refl _),Function.update_eq_self]

theorem write_before {i : Nat} (before : i < t.place) (a : α) : (t.write stop tab a).cells i = t.cells i := by
  unfold write
  dsimp only
  split_ifs
  · rfl
  · exact Function.update_of_ne before.ne _ _

theorem writes_before {i : Nat} (some' : 0 < stop) (before : i < t.place) (s : List α) :
    (t.writes stop tab s).cells i = t.cells i := by
  induction s generalizing t with
  | nil => rfl
  | cons a s ih => exact (ih (before.trans (advance_lt some' tab t.place a))).trans (write_before before a)

namespace Clear

theorem write (some' : 0 < stop) (clear : t.Clear blank) (a : α) : (t.write stop tab a).Clear blank := by
  intro i behind
  have later : t.place < i := (advance_lt some' tab t.place a).trans_le behind
  unfold Tape.write
  dsimp only
  split_ifs
  · exact clear i later.le
  · rw [Function.update_of_ne later.ne']
    exact clear i later.le

theorem writes (some' : 0 < stop) (clear : t.Clear blank) (s : List α) : (t.writes stop tab s).Clear blank := by
  induction s generalizing t with
  | nil => exact clear
  | cons a s ih => exact ih (clear.write some' a)

theorem writes_unseen (some' : 0 < stop) (clear : t.Clear blank) (unseen : ∀ a ∈ s, Unseen tab blank a) :
    (t.writes stop tab s).cells = t.cells := by
  induction s generalizing t with
  | nil => rfl
  | cons a s ih =>
    obtain ⟨first,rest⟩ := List.forall_mem_cons.mp unseen
    exact (ih (clear.write some' a) rest).trans (clear.unseen first)

end Clear

/-- One step back undoes a symbol that took one place. -/
theorem back_write_iff (some' : 0 < stop) (clear : t.Clear blank) :
    (t.write stop tab a).back blank = t ↔ advance stop tab t.place a = t.place + 1 := by
  have more := advance_lt some' tab t.place a
  constructor
  · intro same
    have place : advance stop tab t.place a - 1 = t.place := congrArg Tape.place same
    omega
  · intro one
    have place : advance stop tab t.place a - 1 = t.place := by omega
    unfold back write
    rw [place]
    refine congrArg (Tape.mk · t.place) ?_
    funext i
    by_cases here : i = t.place
    · rw [here,Function.update_self]
      exact (clear t.place (Nat.le_refl _)).symm
    · rw [Function.update_of_ne here]
      split_ifs
      · rfl
      · exact Function.update_of_ne here _ _

/-! Two tapes with the same text. -/

/-- Behind equal places the tapes only differ where they did. -/
theorem cells_eq (some' : 0 < stop) (clear : t.Clear blank) (clear' : t'.Clear blank)
    (together : t.place = t'.place) (same : t.writes stop tab s = t'.writes stop tab s) :
    t.cells = t'.cells := by
  funext i
  by_cases before : i < t.place
  · rw [← writes_before some' before s,same]
    exact writes_before some' (together ▸ before) s
  · have behind := Nat.le_of_not_lt before
    rw [clear i behind,clear' i (together ▸ behind)]

/-- Where the two texts are not written at one place, nothing of them is seen before their places
meet. -/
theorem writes_eq_iff (some' : 0 < stop) (clear : t.Clear blank) (clear' : t'.Clear blank)
    (less : t.place ≤ t'.place) :
    t.writes stop tab s = t'.writes stop tab s ↔ t.cells = t'.cells ∧ ∃ front rest, s = front ++ rest ∧
      (∀ a ∈ front, Unseen tab blank a) ∧ after stop tab t.place front = after stop tab t'.place front := by
  constructor
  · intro same
    induction s generalizing t t' with
    | nil =>
      obtain rfl : t = t' := same
      exact ⟨rfl,[],[],rfl,nofun,rfl⟩
    | cons a s ih =>
      rcases less.eq_or_lt with together | apart
      · exact ⟨cells_eq some' clear clear' together same,[],a :: s,rfl,nofun,together⟩
      · obtain ⟨cells,front,rest,rfl,unseen,meet⟩ :=
          ih (clear.write some' a) (clear'.write some' a) (advance_mono less a) same
        have first : Unseen tab blank a := by
          by_cases tabbed : a = tab
          · exact .inl tabbed
          · have here := congrFun cells t'.place
            unfold write at here
            dsimp only at here
            rw [if_neg tabbed,if_neg tabbed,Function.update_self,Function.update_of_ne apart.ne',
              clear t'.place less] at here
            exact .inr here.symm
        rw [clear.unseen first,clear'.unseen first] at cells
        exact ⟨cells,a :: front,rest,rfl,List.forall_mem_cons.mpr ⟨first,unseen⟩,meet⟩
  · rintro ⟨cells,front,rest,rfl,unseen,meet⟩
    have fronts : t.writes stop tab front = t'.writes stop tab front := by
      have left := clear.writes_unseen some' unseen
      have right := clear'.writes_unseen some' unseen
      have place : (t.writes stop tab front).place = (t'.writes stop tab front).place := by
        rw [writes_place,writes_place,meet]
      cases whole : t.writes stop tab front
      cases whole' : t'.writes stop tab front
      rw [whole] at left place
      rw [whole'] at right place
      rw [Tape.mk.injEq]
      exact ⟨left.trans (cells.trans right.symm),place⟩
    rw [writes_append,writes_append,fronts]

/-- Nothing is seen of a text before a place if nothing of it begins there. -/
theorem writes_unseen_iff (some' : 0 < stop) (clear : t.Clear blank) :
    (∀ i, i < place → (t.writes stop tab s).cells i = t.cells i) ↔
      ∀ front a rest, s = front ++ a :: rest → after stop tab t.place front < place → Unseen tab blank a := by
  induction s generalizing t with
  | nil =>
    refine iff_of_true (fun _ _ => rfl) fun front a rest whole => ?_
    cases front <;> cases whole
  | cons a s ih =>
    have step := ih (t := t.write stop tab a) (clear.write some' a)
    have parts : (∀ front b rest, a :: s = front ++ b :: rest →
          after stop tab t.place front < place → Unseen tab blank b) ↔
        (t.place < place → Unseen tab blank a) ∧ ∀ front b rest, s = front ++ b :: rest →
          after stop tab (advance stop tab t.place a) front < place → Unseen tab blank b := by
      constructor
      · intro all
        refine ⟨fun before => all [] a s rfl before,fun front b rest whole before => ?_⟩
        exact all (a :: front) b rest (congrArg (a :: ·) whole) before
      · rintro ⟨first,others⟩ front b rest whole before
        cases front with
        | nil =>
          obtain ⟨rfl,rfl⟩ := List.cons.inj whole
          exact first before
        | cons c front =>
          obtain ⟨rfl,behind⟩ := List.cons.inj whole
          exact others front b rest behind before
    have kept (unseen : t.place < place → Unseen tab blank a) {i : Nat} (before : i < place) :
        (t.write stop tab a).cells i = t.cells i := by
      by_cases reached : t.place < place
      · rw [clear.unseen (unseen reached)]
      · exact write_before (before.trans_le (Nat.le_of_not_lt reached)) a
    rw [parts]
    constructor
    · intro same
      have first : t.place < place → Unseen tab blank a := by
        intro reached
        by_cases tabbed : a = tab
        · exact .inl tabbed
        · have here := same t.place reached
          have written : ((t.write stop tab a).writes stop tab s).cells t.place = a := by
            rw [writes_before some' (advance_lt some' tab t.place a)]
            unfold write
            dsimp only
            rw [if_neg tabbed,Function.update_self]
          exact .inr (written.symm.trans (here.trans (clear t.place (Nat.le_refl _))))
      exact ⟨first,step.mp fun i before => (same i before).trans (kept first before).symm⟩
    · rintro ⟨first,others⟩ i before
      exact (step.mpr others i before).trans (kept first before)

/-- Going back once for each symbol of a text and writing another one: when that is as if the
first one had not been written. -/
theorem rewrite_iff (some' : 0 < stop) (clear : t.Clear blank) :
    ((t.writes stop tab old).erase blank old.length).writes stop tab new = t.writes stop tab new ↔
      Alike stop tab blank t.place old new := by
  have ended : (t.writes stop tab old).Clear blank := clear.writes some' old
  have place : ((t.writes stop tab old).erase blank old.length).place = returned stop tab t.place old := by
    rw [erase_place,writes_place]
    rfl
  have less : t.place ≤ ((t.writes stop tab old).erase blank old.length).place :=
    place ▸ place_le_returned some' t.place old
  have left : t.cells = ((t.writes stop tab old).erase blank old.length).cells ↔
      ∀ i, i < returned stop tab t.place old → (t.writes stop tab old).cells i = t.cells i := by
    constructor
    · intro same i before
      rw [congrFun same i,erase_before (by rw [writes_place]; exact before)]
    · intro same
      funext i
      by_cases before : i < returned stop tab t.place old
      · rw [erase_before (by rw [writes_place]; exact before),same i before]
      · have behind := Nat.le_of_not_lt before
        rw [clear i ((place_le_returned some' t.place old).trans behind),
          (ended.erase old.length) i (place ▸ behind)]
  rw [eq_comm,writes_eq_iff some' clear (ended.erase old.length) less,left,writes_unseen_iff some' clear,place]
  rfl

end Tape
