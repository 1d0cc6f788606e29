import Mathlib.Data.Fin.Basic
import Mathlib.Logic.Function.Basic
import NimrodOS.Lib.Cyclic
import NimrodOS.Lib.Wire

/-! Two interrupt controllers of type 8259 in cascade, edge triggered and fully nested: how
they are programmed, which request they pass on, and the end of an interrupt. Rotating
priorities, polling, special masks, and requests that are withdrawn are left out. -/
namespace I8259

open Wire

inductive InitWord where
  | icw2 | icw3 | icw4
  deriving DecidableEq

structure Chip where
  offset : Byte
  cascade : Byte
  mode : Byte
  mask : Byte
  requested : Fin 8 → Bool
  inService : Fin 8 → Bool
  /-- The initialisation words that the data port still takes. -/
  awaiting : List InitWord

namespace Chip

@[irreducible] def first (lines : Fin 8 → Bool) : Option (Fin 8) := Fin.find? lines

/-- The end of the interrupt of highest priority. -/
def endFirst (c : Chip) : Chip :=
  match first c.inService with
  | none => c
  | some i => {c with inService := Function.update c.inService i false}

/-- A write to the command port. -/
def command (c : Chip) (v : Byte) : Chip :=
  if v.getLsbD 4 then
    {c with
      mode := 0,mask := 0,requested := fun _ => false,inService := fun _ => false
      awaiting := .icw2 :: ((if v.getLsbD 1 then [] else [.icw3]) ++
        if v.getLsbD 0 then [.icw4] else [])}
  else if v.getLsbD 3 then c
  else if v &&& 0xE0 = 0x20 then c.endFirst
  else if v &&& 0xE0 = 0x60 then
    {c with inService := Function.update c.inService (Fin.ofNat 8 v.toNat) false}
  else c

/-- A write to the data port. -/
def data (c : Chip) (v : Byte) : Chip :=
  match c.awaiting with
  | .icw2 :: rest => {c with offset := v &&& 0xF8,awaiting := rest}
  | .icw3 :: rest => {c with cascade := v,awaiting := rest}
  | .icw4 :: rest => {c with mode := v,awaiting := rest}
  | [] => {c with mask := v}

/-- The line that is passed on: requested, not masked, and with none of its own or a higher
priority in service. -/
def pick (c : Chip) : Option (Fin 8) :=
  first fun i => c.requested i && !c.mask.getLsbD i && decide (∀ j, j ≤ i → c.inService j = false)

/-- The processor acknowledges a line. -/
def take (c : Chip) (i : Fin 8) : Chip :=
  {c with
    requested := Function.update c.requested i false
    inService := if c.mode.getLsbD 1 then c.inService else Function.update c.inService i true}

def vector (c : Chip) (i : Fin 8) : Byte := c.offset + BitVec.ofNat 8 i

variable {c : Chip} {lines : Fin 8 → Bool} {i : Fin 8} {o : Option (Fin 8)}

theorem first_eq_some : first lines = some i ↔ lines i ∧ ∀ j < i, lines j = false := by
  rw [first]
  exact Fin.find?_eq_some_iff

theorem first_eq_none : first lines = none ↔ ∀ j, lines j = false := by
  rw [first]
  exact Fin.find?_eq_none_iff

/-- Programmed, with every line open and every interrupt ended by a command. -/
structure Plain (c : Chip) : Prop where
  mask : c.mask = 0
  mode : c.mode.getLsbD 1 = false
  awaiting : c.awaiting = []

/-- At most the one line is in service. -/
def Serves (c : Chip) (o : Option (Fin 8)) : Prop := c.inService = fun j => decide (o = some j)

theorem pick_idle (plain : c.Plain) (idle : c.Serves none) : c.pick = first c.requested := by
  rw [pick,plain.mask,show c.inService = _ from idle]
  simp

theorem take_serves (plain : c.Plain) (idle : c.Serves none) (i : Fin 8) :
    (c.take i).Serves (some i) := by
  have held : c.inService = fun j => decide (none = some j) := idle
  have taken : (c.take i).inService = Function.update c.inService i true := by
    simp only [take,plain.mode]
    rfl
  rw [Serves,taken,held]
  funext j
  by_cases here : j = i
  · simp [here]
  · simp [here,Ne.symm here]

/-- The command that ends an interrupt changes nothing but what is in service. -/
theorem command_end (serves : c.Serves o) :
    c.command 0x20 = {c with inService := fun _ => false} := by
  have ends : c.command 0x20 = c.endFirst := rfl
  have held : c.inService = fun j => decide (o = some j) := serves
  rw [ends,endFirst,held]
  cases o with
  | none =>
    have nothing : (fun j : Fin 8 => decide (none = some j)) = fun _ => false := by simp
    rw [nothing] at held ⊢
    rw [first_eq_none.mpr fun _ => rfl,← held]
  | some i =>
    have only : first (fun j : Fin 8 => decide (some i = some j)) = some i := by
      refine first_eq_some.mpr ⟨by simp,fun j below => ?_⟩
      simpa using below.ne'
    have nothing : Function.update (fun j : Fin 8 => decide (some i = some j)) i false =
        fun _ => false := by
      funext j
      by_cases here : j = i
      · simp [here]
      · simp [here,Ne.symm here]
    rw [only]
    exact congrArg (fun held => {c with inService := held}) nothing

end Chip

structure Pair where
  master : Chip
  slave : Chip

namespace Pair

/-- A write to a port of either. -/
def output (p : Pair) (port : Half) (v : Byte) : Pair :=
  if port = 0x20 then {p with master := p.master.command v}
  else if port = 0x21 then {p with master := p.master.data v}
  else if port = 0xA0 then {p with slave := p.slave.command v}
  else if port = 0xA1 then {p with slave := p.slave.data v}
  else p

def outputs (p : Pair) (writes : List (Half × Byte)) : Pair :=
  writes.foldl (fun p w => p.output w.1 w.2) p

/-- An edge on one of the sixteen lines. The third is the slave's own. -/
def edge (p : Pair) (n : Fin 16) : Pair :=
  if low : n.val < 8 then
    if n = 2 then p
    else {p with master :=
      {p.master with requested := Function.update p.master.requested ⟨n,low⟩ true}}
  else {p with slave :=
    {p.slave with requested := Function.update p.slave.requested ⟨n - 8,by omega⟩ true}}

/-- The master with the slave's request on its third line. -/
def wired (p : Pair) : Chip :=
  {p.master with requested := Function.update p.master.requested 2 p.slave.pick.isSome}

/-- The vector that the processor is given, if any line is passed on. Nobody answers for a
slave that has another number. -/
def acknowledge (p : Pair) : Option (Byte × Pair) :=
  match p.wired.pick with
  | none => none
  | some i =>
    if i = 2 then
      match p.slave.pick with
      | none => none
      | some j =>
        if p.master.cascade.getLsbD 2 ∧ p.slave.cascade &&& 7 = 2 then
          some (p.slave.vector j,⟨p.master.take 2,p.slave.take j⟩)
        else some (0xFF,{p with master := p.master.take 2})
    else some (p.master.vector i,{p with master := p.master.take i})

/-- A line waits to be acknowledged. -/
def pending (p : Pair) (n : Fin 16) : Bool :=
  if low : n.val < 8 then n != 2 && p.master.requested ⟨n,low⟩
  else p.slave.requested ⟨n - 8,by omega⟩

end Pair

/-- The lines of the slave stand in the place of the master's third. -/
def rank (n : Fin 16) : Nat := if n.val < 2 then n else if 8 ≤ n.val then n - 6 else n + 8

def onMaster (i : Fin 8) : Fin 16 := ⟨i,by omega⟩

def onSlave (j : Fin 8) : Fin 16 := ⟨j + 8,by omega⟩

theorem line_cases (n : Fin 16) : (∃ i, n = onMaster i) ∨ ∃ j, n = onSlave j := by
  by_cases low : n.val < 8
  · exact .inl ⟨⟨n,low⟩,rfl⟩
  · refine .inr ⟨⟨n - 8,by omega⟩,Fin.ext ?_⟩
    simp only [onSlave]
    omega

section

variable {p q : Pair} {i j : Fin 8} {n : Fin 16} {o : Option (Fin 8)}

@[simp] theorem pending_onMaster : p.pending (onMaster i) = (i != 2 && p.master.requested i) := by
  have small : (onMaster i).val < 8 := i.isLt
  rw [Pair.pending,dif_pos small]
  congr 1
  revert i
  decide

@[simp] theorem pending_onSlave : p.pending (onSlave j) = p.slave.requested j := by
  have large : ¬(onSlave j).val < 8 := by simp [onSlave]
  rw [Pair.pending,dif_neg large]
  rfl

theorem rank_onMaster : rank (onMaster i) = if i < 2 then i.val else i + 8 := by
  revert i
  decide

theorem rank_onSlave : rank (onSlave j) = j + 2 := by
  revert j
  decide

theorem onMaster_inj : onMaster i = onMaster j ↔ i = j := by
  revert i j
  decide

theorem onSlave_inj : onSlave i = onSlave j ↔ i = j := by
  revert i j
  decide

theorem onMaster_ne_onSlave : onMaster i ≠ onSlave j := by
  revert i j
  decide

theorem onMaster_eq_third : onMaster i = 2 ↔ i = 2 := onMaster_inj (j := 2)

theorem onSlave_ne_third : onSlave j ≠ 2 := (onMaster_ne_onSlave (i := 2)).symm

/-- Which lines are pending is a matter of what was requested. -/
theorem pending_congr (master : q.master.requested = p.master.requested)
    (slave : q.slave.requested = p.slave.requested) : q.pending n = p.pending n := by
  rw [Pair.pending,Pair.pending,master,slave]

theorem edge_onMaster : p.edge (onMaster i) = if i = 2 then p else {p with master :=
    {p.master with requested := Function.update p.master.requested i true}} := by
  have small : (onMaster i).val < 8 := i.isLt
  rw [Pair.edge,dif_pos small]
  simp only [onMaster_eq_third]
  rfl

theorem edge_onSlave : p.edge (onSlave j) = {p with slave :=
    {p.slave with requested := Function.update p.slave.requested j true}} := by
  have large : ¬(onSlave j).val < 8 := by simp [onSlave]
  rw [Pair.edge,dif_neg large]
  rfl

theorem pending_edge (m : Fin 16) : (p.edge m).pending n = (p.pending n || (n == m && m != 2)) := by
  rcases line_cases m with ⟨i,rfl⟩ | ⟨i,rfl⟩
  · rw [edge_onMaster]
    by_cases third : i = 2
    · simp [third,onMaster_eq_third.mpr rfl]
    rcases line_cases n with ⟨k,rfl⟩ | ⟨k,rfl⟩
    · have own : (i != 2) = true := bne_iff_ne.mpr third
      have apart : (onMaster i != 2) = true := bne_iff_ne.mpr fun same => third (onMaster_eq_third.mp same)
      by_cases here : k = i
      · simp [here,third,own,apart]
      · simp [here,third,onMaster_inj]
    · simp [third,onMaster_ne_onSlave.symm]
  · rw [edge_onSlave]
    rcases line_cases n with ⟨k,rfl⟩ | ⟨k,rfl⟩
    · simp [onMaster_ne_onSlave]
    · by_cases here : k = i
      · simp [here,onSlave_ne_third]
      · simp [here,onSlave_inj]

theorem pending_take_master : Pair.pending {p with master := p.master.take i} n =
    (p.pending n && n != onMaster i) := by
  rcases line_cases n with ⟨k,rfl⟩ | ⟨k,rfl⟩
  · by_cases here : k = i
    · simp [here,Chip.take]
    · simp [here,Chip.take,onMaster_inj]
  · simp [onMaster_ne_onSlave.symm]

theorem pending_take_slave : Pair.pending ⟨p.master.take 2,p.slave.take j⟩ n =
    (p.pending n && n != onSlave j) := by
  rcases line_cases n with ⟨k,rfl⟩ | ⟨k,rfl⟩
  · by_cases third : k = 2
    · simp [third]
    · simp [third,Chip.take,onMaster_ne_onSlave]
  · by_cases here : k = j
    · simp [here,Chip.take]
    · simp [here,Chip.take,onSlave_inj]

/-- Both are programmed, and the slave has the number of the master's third line. -/
structure Cascaded (p : Pair) : Prop where
  master : p.master.Plain
  slave : p.slave.Plain
  line : p.master.cascade.getLsbD 2
  number : p.slave.cascade &&& 7 = 2

/-- A pending line before which no other is served. -/
structure Highest (p : Pair) (n : Fin 16) : Prop where
  pending : p.pending n
  before : ∀ m, p.pending m → rank n ≤ rank m

theorem highest_onMaster (other : i ≠ 2) (asked : p.master.requested i)
    (above : ∀ k < i, k ≠ 2 → p.master.requested k = false)
    (slave : 2 < i → ∀ j, p.slave.requested j = false) : Highest p (onMaster i) := by
  refine ⟨by simp [other,asked],fun m pending => ?_⟩
  rcases line_cases m with ⟨k,rfl⟩ | ⟨j,rfl⟩
  · have lower : i ≤ k := by
      by_contra earlier
      simp only [pending_onMaster,Bool.and_eq_true,bne_iff_ne] at pending
      simp [above k (not_le.mp earlier) pending.1] at pending
    rw [rank_onMaster,rank_onMaster]
    split_ifs <;> omega
  · have high : i < 2 := by
      by_contra low
      simp [slave (by omega) j] at pending
    rw [rank_onMaster,rank_onSlave,if_pos high]
    omega

theorem highest_onSlave (asked : p.slave.requested j)
    (above : ∀ k < j, p.slave.requested k = false)
    (master : ∀ k < 2, p.master.requested k = false) : Highest p (onSlave j) := by
  refine ⟨by simp [asked],fun m pending => ?_⟩
  rcases line_cases m with ⟨k,rfl⟩ | ⟨k,rfl⟩
  · have low : ¬k < 2 := by
      intro high
      simp [master k high] at pending
    rw [rank_onMaster,rank_onSlave,if_neg low]
    omega
  · have lower : j ≤ k := by
      by_contra earlier
      simp [above k (not_le.mp earlier)] at pending
    rw [rank_onSlave,rank_onSlave]
    omega

/-- With nothing in service the pending line of highest rank is acknowledged. -/
theorem acknowledge_idle (cascaded : Cascaded p) (master : p.master.Serves none)
    (slave : p.slave.Serves none) :
    ((∀ n, p.pending n = false) ∧ p.acknowledge = none) ∨
    (∃ i ≠ 2, Highest p (onMaster i) ∧
      p.acknowledge = some (p.master.vector i,{p with master := p.master.take i})) ∨
    ∃ j, Highest p (onSlave j) ∧
      p.acknowledge = some (p.slave.vector j,⟨p.master.take 2,p.slave.take j⟩) := by
  have plain : p.wired.Plain := ⟨cascaded.master.mask,cascaded.master.mode,cascaded.master.awaiting⟩
  have asks : p.wired.pick = Chip.first p.wired.requested := Chip.pick_idle plain master
  have third : p.wired.requested 2 = p.slave.pick.isSome := by simp [Pair.wired]
  have others : ∀ k ≠ 2, p.wired.requested k = p.master.requested k := by
    intro k other
    simp [Pair.wired,other]
  rw [Chip.pick_idle cascaded.slave slave] at third
  rw [Pair.acknowledge,asks,Chip.pick_idle cascaded.slave slave]
  cases picked : Chip.first p.wired.requested with
  | none =>
    have free := Chip.first_eq_none.mp picked
    have slaveFree := free 2
    rw [third,Option.isSome_eq_false_iff,Option.isNone_iff_eq_none] at slaveFree
    refine .inl ⟨fun n => ?_,rfl⟩
    rcases line_cases n with ⟨k,rfl⟩ | ⟨k,rfl⟩
    · by_cases other : k = 2
      · simp [other]
      · simp [← others k other,free k]
    · simpa using Chip.first_eq_none.mp slaveFree k
  | some i =>
    obtain ⟨asked,above⟩ := Chip.first_eq_some.mp picked
    by_cases here : i = 2
    · subst here
      obtain ⟨j,found⟩ := Option.isSome_iff_exists.mp (third.symm.trans asked)
      obtain ⟨slaveAsked,slaveAbove⟩ := Chip.first_eq_some.mp found
      refine .inr (.inr ⟨j,highest_onSlave slaveAsked slaveAbove fun k high => ?_,?_⟩)
      · rw [← others k high.ne]
        exact above k high
      · have answers : p.master.cascade.getLsbD 2 ∧ p.slave.cascade &&& 7 = 2 :=
          ⟨cascaded.line,cascaded.number⟩
        simp only [found]
        exact (if_pos True.intro).trans (if_pos answers)
    · refine .inr (.inl ⟨i,here,highest_onMaster here ?_ (fun k high other => ?_) fun low j => ?_,if_neg here⟩)
      · rwa [← others i here]
      · rw [← others k other]
        exact above k high
      · have slaveFree := above 2 low
        rw [third,Option.isSome_eq_false_iff,Option.isNone_iff_eq_none] at slaveFree
        exact Chip.first_eq_none.mp slaveFree j

end

end I8259
