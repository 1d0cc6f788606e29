import NimrodOS.NetSend
import NimrodOS.NetPing

/-! When the stack waits for an address although no interrupt can end the wait. -/
namespace NimrodOS.Net

open Wire Libc Logged

variable {env : Env} {s : State} {data payload : Nat → Byte} {len : Half} {ctrlC : Bool}

def Unresolved (s : State) (ip : Word) (ctrlC : Bool) : Prop :=
  arpLookup s (nextHop s ip) = none ∧ ctrlC = false

section

variable {dst : Word}

end

/-! Answers to echo requests. -/

end NimrodOS.Net
