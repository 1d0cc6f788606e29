import NimrodOS.Keyboard
import NimrodOS.NetWaits

/-! Which commands, keys and frames end in a wait. -/
namespace NimrodOS.Shell

open Libc Calc Wire Logged

variable {out : Outside} {iflag : Bool} {s : State} {sc : Option Byte}

/-- A call that has come to a loop around `hlt` with the interrupt flag as given. -/
def Waits (iflag : Bool) (x : Except Stop α) : Prop := ∃ loop, x = .error (.waiting loop iflag)

/-- The time that is waited for comes before the ticks begin anew at 0. -/
def Ahead (s : State) (ticks : Nat) : Prop := s.tickCount.toNat + ticks < 2^32

/-- Whether a query that does not fit into its array waits, by state and name. -/
abbrev Overruns := State → List Byte → Prop

/-- A time to sleep or to beep that comes, an address or a name to ask a working network for,
a file to edit, or a game. The seconds are read as `int`. -/
def Command.Blocks (overruns : Overruns) (s : State) (sc : Option Byte) : Command → Prop
  | .sleep args => 0 < (digitLoop 0 args).1.toInt ∧ (digitLoop 0 args).1.toInt ≤ 60 ∧
      Ahead s ((digitLoop 0 args).1.toNat * 100)
  | .ping args => netIsUp s ∧ parseIp (skipSpaces args) ≠ 0
  | .resolve args => netIsUp s ∧ skipSpaces args ≠ [] ∧
      ((Net.dnsQuery 0 (skipSpaces args)).length ≤ 256 ∨ overruns s (skipSpaces args))
  | .edit args => skipSpaces args ≠ []
  | .beep _ => Ahead s 20
  | .snake => sc = some 0x01 → Ahead s 30
  | .halt | .reboot | .alias _ | .unalias _ | .other => False

variable {overruns : Overruns}

/-- The line stands for such a command, without its leading spaces and with its alias
replaced. -/
def LineBlocks (overruns : Overruns) (s : State) (line : List Byte) (sc : Option Byte) : Prop :=
  skipSpaces line ≠ [] ∧
    (dispatch (expandAlias s.aliases (skipSpaces line))).Blocks overruns {s with ctrlCPressed := false} sc

theorem Command.Blocks.mono {overruns' : Overruns} (more : ∀ s name, overruns s name → overruns' s name)
    {c : Command} (blocks : c.Blocks overruns s sc) : c.Blocks overruns' s sc := by
  cases c with
  | resolve args =>
    obtain ⟨up,named,sent⟩ := blocks
    exact ⟨up,named,sent.imp_right (more s _)⟩
  | _ => exact blocks

theorem LineBlocks.mono {overruns' : Overruns} (more : ∀ s name, overruns s name → overruns' s name)
    {line : List Byte} (blocks : LineBlocks overruns s line sc) : LineBlocks overruns' s line sc :=
  ⟨blocks.1,blocks.2.mono more⟩

end NimrodOS.Shell
