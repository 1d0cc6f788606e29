import NimrodOS.Calc
import NimrodOS.NetPings

/-! The shell, `shell/shell.c`, from the line to the loops that its commands wait in, with
`timer_wait` of `drivers/timer.c` and `speaker_beep` of `drivers/speaker.c`. No interrupt
comes between, so a loop around `hlt` that is not left at once is where the call stops.
What is printed is left out. -/
namespace NimrodOS.Shell

open Libc Calc

def text (s : String) : List Byte := s.toList.map fun c => BitVec.ofNat 8 c.toNat

/-! The state. -/

structure Alias where
  name : List Byte
  cmd : List Byte

/-- What the commands and the handlers share. -/
structure State where
  tickCount : Word
  ctrlCPressed : Bool
  editorMode : Bool
  editorLineReady : Bool
  editorLineBuf : List Byte
  aliases : List Alias
  net : Net.State

/-- The functions that hold a loop around `hlt`. -/
inductive Loop where
  | timerWait
  | arpResolve
  | netDnsResolve
  | cmdPing
  | editorWaitLine
  | cmdSnake
  deriving DecidableEq, Repr

/-- Why a call does not return. A loop is named with the interrupt flag that it waits
with; `off` is a machine that is halted or starts anew. -/
inductive Stop where
  | waiting (loop : Loop) (iflag : Bool)
  | fault (reason : Fault)
  | off
  deriving DecidableEq

def Stop.ofHalt (iflag : Bool) : Net.Halt → Stop
  | .waiting => .waiting .arpResolve iflag
  | .fault reason => .fault reason

/-- What the sources leave open: the results of a card's driver, and what becomes of a call whose
query runs over the end of its array, into whatever the compiler has put behind it. -/
structure Outside where
  nicSend : Net.Nic → List Byte → Int
  overrun : Bool → State → List Byte → Except Stop State

/-! Waiting, with the interrupt flag as it is. -/

section

variable (out : Outside) (iflag : Bool)

def timerWait (s : State) (ticks : Word) : Except Stop State :=
  let target := s.tickCount + ticks
  if s.tickCount < target then
    if s.ctrlCPressed then .ok s else .error (.waiting .timerWait iflag)
  else .ok s

def speakerBeep (s : State) (freq durationMs : Word) : Except Stop State :=
  if freq = 0 then .ok s else timerWait iflag s (durationMs / 10)

/-- The stack when `ip_send` has asked for an address. -/
def behindRequest (net : Net.State) (ip : Word) : Net.State :=
  let counted := {net with ipIdCounter := net.ipIdCounter + 1}
  match (Net.arpSendRequest ⟨0,default,out.nicSend⟩ counted (Net.nextHop net ip)).result with
  | .ok asked => asked
  | .error _ => net

/-- What `arp_resolve` finds when it looks for the answer at once. -/
def maskedEnv (s : State) (net : Net.State) (ip : Word) : Net.Env where
  ticks := s.tickCount
  waits _ := ⟨s.tickCount,[⟨s.tickCount,s.ctrlCPressed,behindRequest out net ip⟩]⟩
  nicSend := out.nicSend

/-- Both `net_up` and the card are set when `net_init` has found one. -/
def netIsUp (s : State) : Prop := s.net.activeNic ≠ .none

instance (s : State) : Decidable (netIsUp s) := inferInstanceAs (Decidable (_ ≠ _))

/-- The time stands still, so the second attempt is never made. -/
def netDnsResolve (s : State) (hostname : List Byte) : Except Stop State := do
  let net := s.net.startQuery s.tickCount
  let query := Net.dnsQuery net.dnsQueryId hostname
  if query.length > 256 then out.overrun iflag s hostname
  else
    let sent ← (Net.netSendUdp (maskedEnv out s net Net.netDns) net Net.netDns 1053 Net.dnsPort
      (fun i => query.getD i 0) (BitVec.ofNat 16 query.length)).result.mapError (.ofHalt iflag)
    if s.ctrlCPressed then return {s with net := sent.1}
    else if sent.1.dnsGotReply ≠ 0 then return {s with net := sent.1}
    else .error (.waiting .netDnsResolve iflag)

/-! The commands that wait. -/

def cmdSleep (s : State) (args : List Byte) : Except Stop State :=
  let seconds := (digitLoop 0 args).1
  if seconds.toInt ≤ 0 ∨ seconds.toInt > 60 then .ok s else timerWait iflag s (seconds * 100)

/-- The frequency, kept between 20 and 20000. -/
def beepFreq (args : List Byte) : Word :=
  let freq : Word := if args.head?.any isDigit then (digitLoop 0 args).1 else 800
  let freq := if freq < 20 then 20 else freq
  if freq > 20000 then 20000 else freq

def cmdBeep (s : State) (args : List Byte) : Except Stop State :=
  speakerBeep iflag s (beepFreq (skipSpaces args)) 200

def parseIpLoop (octets : Fin 4 → Word) (idx : Nat) : List Byte → Fin 4 → Word
  | [] => octets
  | c :: s =>
    if idx < 4 then
      if isDigit c then
        parseIpLoop (fun i => if i.val = idx then octets i * 10 + (c.setWidth 32 - 48) else octets i)
          idx s
      else if c = 46 then parseIpLoop octets (idx + 1) s
      else parseIpLoop octets idx s
    else octets

def parseIp (s : List Byte) : Word :=
  let octets := parseIpLoop (fun _ => 0) 0 s
  octets 0 <<< 24 ||| octets 1 <<< 16 ||| octets 2 <<< 8 ||| octets 3

/-- The rounds of `cmd_ping`. -/
def pingLoop (ip : Word) : List (Fin 4) → State → Except Stop State
  | [], s => .ok s
  | i :: rounds, s =>
    if s.ctrlCPressed then .ok s
    else do
      let asked := s.net.startPing ip Net.pingId (Net.Ping.mk ip i).seq s.tickCount
      let sent ← (Net.cmdPingRequest (maskedEnv out s asked ip) s.net ⟨ip,i⟩).result.mapError
        (.ofHalt iflag)
      if sent.1.pingState.gotReply = 0 then .error (.waiting .cmdPing iflag)
      else
        let s ← if i < 3 then timerWait iflag {s with net := sent.1} 100 else
          .ok {s with net := sent.1}
        pingLoop ip rounds s

def cmdPing (s : State) (args : List Byte) : Except Stop State :=
  let args := skipSpaces args
  if ¬netIsUp s then .ok s
  else
    let ip := parseIp args
    if ip = 0 then .ok s else pingLoop out iflag ip (List.finRange 4) s

def cmdResolve (s : State) (args : List Byte) : Except Stop State :=
  let args := skipSpaces args
  if ¬netIsUp s then .ok s
  else if args.length = 0 then .ok s
  else netDnsResolve out iflag s args

def editorWaitLine (s : State) : Except Stop State :=
  let s := {s with editorLineReady := false}
  if ¬s.editorLineReady ∧ ¬s.ctrlCPressed then .error (.waiting .editorWaitLine iflag) else .ok s

/-- The first wait for a line does not return, so what the editor does with one is left out. -/
def cmdEdit (s : State) (args : List Byte) : Except Stop State := do
  let args := skipSpaces args
  if args.length = 0 then .ok s
  else
    let s ← editorWaitLine iflag {s with editorMode := true,ctrlCPressed := false}
    return {s with editorMode := false}

/-- The scancode is what the keyboard controller holds when the first round asks it. No
tick has passed then, so the round ends the game or waits. -/
def cmdSnake (s : State) (sc : Option Byte) : Except Stop State :=
  if s.ctrlCPressed then speakerBeep iflag {s with ctrlCPressed := false} 200 300
  else if sc = some 0x01 then speakerBeep iflag s 200 300
  else .error (.waiting .cmdSnake iflag)

end

/-! Aliases. -/

def aliasLookup (aliases : List Alias) (name : List Byte) : Option (List Byte) :=
  (aliases.find? fun a => strcmp a.name name = 0).map Alias.cmd

/-- The first alias of the name gets the command. -/
def updateAlias (name cmd : List Byte) : List Alias → Option (List Alias)
  | [] => none
  | a :: rest =>
    if strcmp a.name name = 0 then some ({a with cmd := cmd.take 127} :: rest)
    else (updateAlias name cmd rest).map (a :: ·)

def cmdAlias (aliases : List Alias) (args : List Byte) : List Alias :=
  let name := args.takeWhile (· ≠ 61)
  if args.length = 0 ∨ name.length = args.length then aliases
  else if name.length = 0 ∨ name.length ≥ 32 then aliases
  else
    let cmd := args.drop (name.length + 1)
    match updateAlias name cmd aliases with
    | some updated => updated
    | none => if aliases.length ≥ 16 then aliases else aliases ++ [⟨name,cmd.take 127⟩]

def cmdUnalias (aliases : List Alias) (args : List Byte) : List Alias :=
  aliases.eraseP fun a => strcmp a.name (skipSpaces args) = 0

/-- The line with its first word replaced, where the result has room. -/
def expandAlias (aliases : List Alias) (input : List Byte) : List Byte :=
  let first := input.takeWhile (· ≠ 32)
  if first.length < 32 then
    match aliasLookup aliases first with
    | some replacement =>
      let rest := input.drop first.length
      if replacement.length + rest.length < 255 then replacement ++ rest else input
    | none => input
  else input

/-! Lines. -/

/-- The commands that wait, that stop the machine or that change the aliases. -/
inductive Command where
  | halt
  | reboot
  | sleep (args : List Byte)
  | ping (args : List Byte)
  | resolve (args : List Byte)
  | edit (args : List Byte)
  | beep (args : List Byte)
  | snake
  | alias (args : List Byte)
  | unalias (args : List Byte)
  | other

def startsWith : List Byte → List Byte → Bool
  | _, [] => true
  | [], _ :: _ => false
  | c :: str, p :: start => c = p && startsWith str start

def dispatch (input : List Byte) : Command :=
  if strcmp input (text "halt") = 0 ∨ strcmp input (text "shutdown") = 0 then .halt
  else if strcmp input (text "reboot") = 0 then .reboot
  else if startsWith input (text "sleep ") then .sleep (input.drop 6)
  else if startsWith input (text "ping ") then .ping (input.drop 5)
  else if startsWith input (text "resolve ") then .resolve (input.drop 8)
  else if startsWith input (text "edit ") then .edit (input.drop 5)
  else if strcmp input (text "beep") = 0 ∨ startsWith input (text "beep ") then
    .beep (if input.length > 4 then input.drop 5 else [])
  else if strcmp input (text "snake") = 0 then .snake
  else if strcmp input (text "alias") = 0 ∨ startsWith input (text "alias ") then
    .alias (if input.length > 5 then input.drop 6 else [])
  else if startsWith input (text "unalias ") then .unalias (input.drop 8)
  else .other

variable (out : Outside) (iflag : Bool)

def execute (s : State) (sc : Option Byte) : Command → Except Stop State
  | .halt => .error .off
  | .reboot => .error .off
  | .sleep args => cmdSleep iflag s args
  | .ping args => cmdPing out iflag s args
  | .resolve args => cmdResolve out iflag s args
  | .edit args => cmdEdit iflag s args
  | .beep args => cmdBeep iflag s args
  | .snake => cmdSnake iflag s sc
  | .alias args => .ok {s with aliases := cmdAlias s.aliases args}
  | .unalias args => .ok {s with aliases := cmdUnalias s.aliases args}
  | .other => .ok s

def shellExecute (s : State) (input : List Byte) (sc : Option Byte) : Except Stop State :=
  let s := {s with ctrlCPressed := false}
  let input := skipSpaces input
  if input.length = 0 then .ok s
  else execute out iflag s sc (dispatch (expandAlias s.aliases input))

end NimrodOS.Shell
