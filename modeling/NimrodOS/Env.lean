import NimrodOS.Libc

/-! The environment variables of `kernel/env.c`. -/
namespace NimrodOS.Env

open Libc

structure State where
  keys : Fin 32 → Fin 32 → Byte
  values : Fin 32 → Fin 128 → Byte
  varCount : Nat
  bounded : varCount ≤ 32

/-- What the assignments in `env_init` leave. -/
def cleared : State := ⟨fun _ _ => 0,fun _ _ => 0,0,Nat.zero_le _⟩

/-- The search that the functions begin with. -/
@[irreducible] def findVar (s : State) (key : CString) : Option (Fin 32) :=
  Fin.find? fun i => i < s.varCount ∧ strcmp (contents (s.keys i)) key.val = 0

def setKey (s : State) (i : Fin 32) (key : CString) : Fin 32 → Fin 32 → Byte :=
  Function.update s.keys i (Function.update (strncpy (s.keys i) key 31) (Fin.last 31) 0)

def setValue (s : State) (i : Fin 32) (value : CString) : Fin 32 → Fin 128 → Byte :=
  Function.update s.values i (Function.update (strncpy (s.values i) value 127) (Fin.last 127) 0)

def envSet (s : State) (key value : CString) : State × Int :=
  match findVar s key with
  | some i => ({s with values := setValue s i value},0)
  | none =>
    if full : s.varCount ≥ 32 then (s,-1)
    else
      let i : Fin 32 := ⟨s.varCount,Nat.lt_of_not_le full⟩
      ({keys := setKey s i key,values := setValue s i value,varCount := s.varCount + 1,
        bounded := Nat.lt_of_not_le full},0)

def string (buf : Fin n → Byte) : CString := ⟨contents buf,contents_noNul buf⟩

def envGet (s : State) (key : CString) : Option CString :=
  (findVar s key).map fun i => string (s.values i)

/-- The copies of one round of the loop in `env_unset`. -/
def copyDown (s : State) (j : Nat) : State :=
  if inside : j + 1 < 32 then
    {s with
      keys := Function.update s.keys ⟨j,Nat.lt_of_succ_lt inside⟩
        (strcpy (s.keys ⟨j,Nat.lt_of_succ_lt inside⟩) (string (s.keys ⟨j + 1,inside⟩)))
      values := Function.update s.values ⟨j,Nat.lt_of_succ_lt inside⟩
        (strcpy (s.values ⟨j,Nat.lt_of_succ_lt inside⟩) (string (s.values ⟨j + 1,inside⟩)))}
  else s

def shiftDown (s : State) (i count : Nat) : State := (List.range' i count).foldl copyDown s

def envUnset (s : State) (key : CString) : State × Int :=
  match findVar s key with
  | some i =>
    let shifted := shiftDown s i (s.varCount - 1 - i)
    ({shifted with
      varCount := shifted.varCount - 1
      bounded := (Nat.sub_le ..).trans shifted.bounded},0)
  | none => (s,-1)

def envCount (s : State) : Int := s.varCount

/-- Nothing is stored through the pointers for an index out of range. -/
def envGetPair (s : State) (index : Int) : Option (CString × CString) :=
  if inside : index ≥ 0 ∧ index < s.varCount then
    have below : index.toNat < 32 := by
      have bounded := s.bounded
      omega
    some (string (s.keys ⟨index.toNat,below⟩),string (s.values ⟨index.toNat,below⟩))
  else none

/-- The names that the callers pass for a new variable fit in its place. -/
abbrev Key := {key : CString // key.val.length ≤ 31}

inductive Call where
  | set (key : Key) (value : CString)
  | unset (key : CString)
  | get (key : CString)
  | count
  | pair (index : Int)

inductive Reply where
  | code (r : Int)
  | pointer (value : Option CString)
  | pair (entry : Option (CString × CString))

def perform (s : State) : Call → State × Reply
  | .set key value => ((envSet s key value).1,.code (envSet s key value).2)
  | .unset key => ((envUnset s key).1,.code (envUnset s key).2)
  | .get key => (s,.pointer (envGet s key))
  | .count => (s,.code (envCount s))
  | .pair index => (s,.pair (envGetPair s index))

/-- The calls that `env_init` makes. -/
def initCalls : List Call :=
  [.set ⟨⟨[79,83],by decide⟩,by decide⟩ ⟨[78,105,109,114,111,100,79,83],by decide⟩,
    .set ⟨⟨[86,69,82,83,73,79,78],by decide⟩,by decide⟩ ⟨[48,46,49,46,48],by decide⟩,
    .set ⟨⟨[65,82,67,72],by decide⟩,by decide⟩ ⟨[120,56,54],by decide⟩,
    .set ⟨⟨[83,72,69,76,76],by decide⟩,by decide⟩ ⟨[110,105,109,114,111,100,115,104],by decide⟩,
    .set ⟨⟨[85,83,69,82],by decide⟩,by decide⟩ ⟨[114,111,111,116],by decide⟩,
    .set ⟨⟨[72,79,77,69],by decide⟩,by decide⟩ ⟨[47],by decide⟩,
    .set ⟨⟨[72,79,83,84,78,65,77,69],by decide⟩,by decide⟩ ⟨[98,97,114,101,109,101,116,97,108],by decide⟩]

end NimrodOS.Env
