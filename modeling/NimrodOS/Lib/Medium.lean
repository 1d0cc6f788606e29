import Mathlib.Data.Set.Insert
import Mathlib.Logic.Function.Basic
import NimrodOS.Lib.Run

/-! Stations on a medium that may lose, repeat, delay and reorder what is sent. A message
that was sent once stays on the medium, and a station may receive any of them at any time
and any number of times; one that is lost is one that nobody receives. -/
namespace Medium

open Transition

variable {ι σ μ α : Type}

structure System (ι σ μ : Type) where
  station : ι → σ
  sent : Set μ

/-- What the stations do on a message and of their own accord, with the messages they send
by it, and what others may put on the medium. -/
structure Protocol (ι σ μ α : Type) where
  react : ι → σ → μ → σ → List μ → Prop
  act : ι → σ → α → σ → List μ → Prop
  foreign : μ → Prop

inductive Label (ι μ α : Type) where
  | receive (i : ι) (m : μ) (out : List μ)
  | act (i : ι) (a : α) (out : List μ)
  | foreign (m : μ)

def Label.out : Label ι μ α → List μ
  | .receive _ _ out => out
  | .act _ _ out => out
  | .foreign m => [m]

/-- One station moves and sends. -/
def System.move [DecidableEq ι] (w : System ι σ μ) (i : ι) (t : σ) (out : List μ) :
    System ι σ μ := ⟨Function.update w.station i t,w.sent ∪ {m | m ∈ out}⟩

section

variable [DecidableEq ι] {p : Protocol ι σ μ α} {w w' start last : System ι σ μ}
  {past : List (System ι σ μ × Label ι μ α)} {i j : ι} {s t : σ} {m : μ} {a : α} {out : List μ}

inductive Step (p : Protocol ι σ μ α) : System ι σ μ → Label ι μ α → System ι σ μ → Prop
  | receive {w : System ι σ μ} {i : ι} {m : μ} {t : σ} {out : List μ} (sent : m ∈ w.sent)
      (reacted : p.react i (w.station i) m t out) : Step p w (.receive i m out) (w.move i t out)
  | act {w : System ι σ μ} {i : ι} {a : α} {t : σ} {out : List μ}
      (acted : p.act i (w.station i) a t out) : Step p w (.act i a out) (w.move i t out)
  | foreign {w : System ι σ μ} {m : μ} (permitted : p.foreign m) :
      Step p w (.foreign m) ⟨w.station,w.sent ∪ {m' | m' ∈ [m]}⟩

@[simp] theorem move_same (w : System ι σ μ) : (w.move i t out).station i = t := by
  simp [System.move]

theorem move_other (w : System ι σ μ) (other : j ≠ i) :
    (w.move i t out).station j = w.station j := by
  simp [System.move,other]

theorem Step.sent {label : Label ι μ α} (moved : Step p w label w') :
    w'.sent = w.sent ∪ {m | m ∈ label.out} := by
  cases moved <;> rfl

/-- Nothing leaves the medium. -/
theorem sent_mono (run : Run (Step p) start past last) : start.sent ⊆ last.sent := by
  induction run with
  | nil => exact Set.Subset.rfl
  | snoc _ moved ih =>
    rw [moved.sent]
    exact ih.trans Set.subset_union_left

theorem out_sent (run : Run (Step p) start past last) {w : System ι σ μ} {label : Label ι μ α}
    (taken : (w,label) ∈ past) (member : m ∈ label.out) : m ∈ last.sent := by
  obtain ⟨before,behind,rfl⟩ := List.append_of_mem taken
  obtain ⟨-,next,moved,rest⟩ := run.split
  apply sent_mono rest
  rw [moved.sent]
  exact .inr member

/-- A property of each station and one of messages, each station's code taken alone: it
keeps its own, and on good messages it sends good ones. -/
structure Local (p : Protocol ι σ μ α) (inv : ι → σ → Prop) (good : μ → Prop) : Prop where
  react : ∀ i s m t out, inv i s → good m → p.react i s m t out → inv i t ∧ ∀ m ∈ out, good m
  act : ∀ i s a t out, inv i s → p.act i s a t out → inv i t ∧ ∀ m ∈ out, good m
  foreign : ∀ m, p.foreign m → good m

/-- All stations have theirs, and all that was sent is good. -/
structure Safe (inv : ι → σ → Prop) (good : μ → Prop) (w : System ι σ μ) : Prop where
  station : ∀ i, inv i (w.station i)
  sent : ∀ m ∈ w.sent, good m

variable {inv : ι → σ → Prop} {good : μ → Prop}

theorem Safe.move (safe : Safe inv good w) (own : inv i t) (sends : ∀ m ∈ out, good m) :
    Safe inv good (w.move i t out) := by
  constructor
  · intro j
    by_cases here : j = i
    · subst here
      rwa [move_same]
    · rw [move_other w here]
      exact safe.station j
  · rintro m (before | now)
    · exact safe.sent m before
    · exact sends m now

theorem Local.step (kept : Local p inv good) (safe : Safe inv good w) {label : Label ι μ α}
    (moved : Step p w label w') : Safe inv good w' := by
  cases moved with
  | receive sent reacted =>
    obtain ⟨own,sends⟩ := kept.react _ _ _ _ _ (safe.station _) (safe.sent _ sent) reacted
    exact safe.move own sends
  | act acted =>
    obtain ⟨own,sends⟩ := kept.act _ _ _ _ _ (safe.station _) acted
    exact safe.move own sends
  | foreign permitted =>
    refine ⟨safe.station,?_⟩
    rintro m (before | now)
    · exact safe.sent m before
    · obtain rfl := List.mem_singleton.mp now
      exact kept.foreign m permitted

/-- What each station's code keeps holds in every run, however messages are lost, repeated,
delayed and reordered. -/
theorem Local.run (kept : Local p inv good) (safe : Safe inv good start)
    (run : Run (Step p) start past last) : Safe inv good last :=
  run.invariant safe fun _ _ _ before moved => kept.step before moved

end

end Medium
