import Mathlib.Logic.Function.Basic
import NimrodOS.Lib.ByteRanges

/-! Straight-line code of a 32-bit x86 processor that moves words between registers, memory
and the stack. The addresses of the instructions themselves are left out, so `eip` is only
set by a jump. -/
namespace X86

open ByteMemory

inductive Reg where
  | eax | ebx | ecx | edx | esi | edi | ebp | esp
  deriving DecidableEq

structure Machine where
  reg : Reg → Word
  eip : Word
  eflags : Word
  mem : Memory

/-- The word at `[base+disp]`. -/
structure Operand where
  base : Reg
  disp : Nat

inductive Instr where
  /-- `mov dst, [src]` -/
  | load (dst : Reg) (src : Operand)
  /-- `mov [dst], src` -/
  | store (dst : Operand) (src : Reg)
  | push (src : Operand)
  | pop (dst : Reg)
  | pushfd
  | popfd
  /-- `jmp [target]` -/
  | jump (target : Operand)

namespace Machine

def addr (m : Machine) (o : Operand) : Word := m.reg o.base + BitVec.ofNat 32 o.disp

def set (m : Machine) (r : Reg) (v : Word) : Machine := {m with reg := Function.update m.reg r v}

def pushWord (m : Machine) (v : Word) : Machine :=
  {m.set .esp (m.reg .esp - 4) with mem := store32 m.mem (m.reg .esp - 4) v}

def top (m : Machine) : Word := load32 m.mem (m.reg .esp)

def drop (m : Machine) : Machine := m.set .esp (m.reg .esp + 4)

end Machine

def exec (m : Machine) : Instr → Machine
  | .load dst src => m.set dst (load32 m.mem (m.addr src))
  | .store dst src => {m with mem := store32 m.mem (m.addr dst) (m.reg src)}
  | .push src => m.pushWord (load32 m.mem (m.addr src))
  | .pop dst => m.drop.set dst m.top
  | .pushfd => m.pushWord m.eflags
  | .popfd => {m.drop with eflags := m.top}
  | .jump target => {m with eip := load32 m.mem (m.addr target)}

def run (block : List Instr) (m : Machine) : Machine := block.foldl exec m

theorem run_append (first second : List Instr) (m : Machine) :
    run (first ++ second) m = run second (run first m) := List.foldl_append

/-! Words that stand apart. -/

variable {mem mem' : Memory} {a b v : Word} {lo hi : Nat}

/-- Two words have no byte in common. -/
structure WordsApart (a b : Word) : Prop where
  left : a.toNat + 4 ≤ 2^32
  right : b.toNat + 4 ≤ 2^32
  apart : a.toNat + 4 ≤ b.toNat ∨ b.toNat + 4 ≤ a.toNat

theorem load32_store32_apart (apart : WordsApart a b) (m : Memory) (v : Word) :
    load32 (store32 m a v) b = load32 m b := by
  have noWrap := apart.left
  have clear := apart.apart
  have kept : Agree m (store32 m a v) b.toNat (b.toNat + 4) := agree_store32 m a v noWrap (by omega)
  exact (kept.load32 b le_rfl le_rfl apart.right).symm

/-! Structures of words. -/

/-- Memory holds these words one after the other. -/
def HoldsWords (mem : Memory) (a : Word) (ws : List Word) : Prop :=
  ∀ i (inside : i < ws.length), load32 mem (a + BitVec.ofNat 32 (4 * i)) = ws[i]

namespace HoldsWords

variable {ws : List Word} {j : Nat}

theorem agree (held : HoldsWords mem a ws) (fits : a.toNat + 4 * ws.length ≤ 2^32)
    (same : Agree mem mem' a.toNat (a.toNat + 4 * ws.length)) : HoldsWords mem' a ws := by
  intro i inside
  have place : (a + BitVec.ofNat 32 (4 * i)).toNat = a.toNat + 4 * i := offset_toNat (by omega)
  rw [← held i inside]
  exact (same.load32 _ (by omega) (by omega) (by omega)).symm

/-- A store into the structure replaces one word. -/
theorem store (held : HoldsWords mem a ws) (fits : a.toNat + 4 * ws.length ≤ 2^32)
    (inside : j < ws.length) (v : Word) :
    HoldsWords (store32 mem (a + BitVec.ofNat 32 (4 * j)) v) a (ws.set j v) := by
  intro i bound
  rw [List.length_set] at bound
  rw [List.getElem_set]
  split_ifs with here
  · rw [← here,load32_store32]
  · have placeI : (a + BitVec.ofNat 32 (4 * i)).toNat = a.toNat + 4 * i := offset_toNat (by omega)
    have placeJ : (a + BitVec.ofNat 32 (4 * j)).toNat = a.toNat + 4 * j := offset_toNat (by omega)
    rw [← held i bound]
    exact load32_store32_apart ⟨by omega,by omega,by omega⟩ mem v

end HoldsWords

end X86
