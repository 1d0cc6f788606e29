import Mathlib.Logic.Function.Basic
import NimrodOS.Lib.Wire

/-! The receive side of the E1000 driver: the card fills buffers and marks their
descriptors, while the interrupt handler passes the frames on and gives the buffers back. -/
namespace NimrodOS.E1000

open Wire

def numRxDesc : Nat := 32
def rxBufSizeE1000 : Nat := 2048

instance neZero_numRxDesc : NeZero numRxDesc := ⟨by decide⟩

def icrRxt0 : Word := 1 <<< 7
def rdescStatDd : Byte := 1 <<< 0

/-- `addr` is the number of a buffer in `rx_buffers`. -/
structure RxDesc where
  addr : Fin numRxDesc
  length : Half
  status : Byte

/-- A frame that the card accepts. -/
structure Frame where
  data : List Byte
  some' : 0 < data.length
  fits : data.length ≤ rxBufSizeE1000

/-- A buffer with the frame in it, as a call of `net_handle_packet` finds it. -/
structure Packet where
  buffer : Fin numRxDesc
  len : Half
  contents : List Byte
  deriving DecidableEq

/-- Where the handler goes on: outside, at the loop's test, or in its body before the call,
before the descriptor is cleared, before `rx_cur` is advanced or before `REG_RDT` is written. -/
inductive Point where
  | idle
  | test
  | receive
  | clear
  | advance
  | tell (oldCur : Fin numRxDesc)

/-- `accepted` is what the card put into buffers, `packets` what was passed on. -/
structure State where
  rxDescs : Fin numRxDesc → RxDesc
  rxBuffers : Fin numRxDesc → Nat → Byte
  rxCur : Fin numRxDesc
  rdh : Fin numRxDesc
  rdt : Fin numRxDesc
  icr : Word
  point : Point
  accepted : List Packet
  packets : List Packet

def e1000RxInit (rxDescs : Fin numRxDesc → RxDesc) (rxBuffers : Fin numRxDesc → Nat → Byte) :
    State where
  rxDescs := fun i => {rxDescs i with addr := i, status := 0}
  rxBuffers := rxBuffers
  rxCur := 0
  rdh := 0
  rdt := Fin.ofNat numRxDesc (numRxDesc - 1)
  icr := 0
  point := .idle
  accepted := []
  packets := []

def Frame.length (f : Frame) : Half := BitVec.ofNat 16 f.data.length

/-- The frame in the buffer that is the card's next. -/
def State.incoming (s : State) (f : Frame) : Packet := ⟨(s.rxDescs s.rdh).addr,f.length,f.data⟩

/-- The card fills the buffer at `REG_RDH`. -/
def State.fill (s : State) (f : Frame) : State :=
  let desc := s.rxDescs s.rdh
  {s with
    rxDescs := Function.update s.rxDescs s.rdh
      {desc with length := f.length, status := desc.status ||| rdescStatDd}
    rxBuffers := Function.update s.rxBuffers desc.addr (write (s.rxBuffers desc.addr) 0 f.data)
    rdh := s.rdh + 1
    accepted := s.accepted ++ [s.incoming f]}

def State.netHandlePacket (s : State) (buffer : Fin numRxDesc) (len : Half) : State :=
  {s with packets := s.packets ++ [⟨buffer,len,bytesFrom (s.rxBuffers buffer) 0 len.toNat⟩]}

/-- The call in the loop's body. -/
def State.receive (s : State) : State :=
  let len := (s.rxDescs s.rxCur).length
  if len > 0 ∧ len ≤ BitVec.ofNat 16 rxBufSizeE1000 then s.netHandlePacket s.rxCur len else s

def State.clear (s : State) : State :=
  {s with rxDescs := Function.update s.rxDescs s.rxCur {s.rxDescs s.rxCur with status := 0}}

/-- The next step of `e1000_irq_handler`. Reading `REG_ICR` clears it. -/
def State.handler (s : State) : State :=
  match s.point with
  | .idle => {s with icr := 0, point := if s.icr &&& icrRxt0 ≠ 0 then .test else .idle}
  | .test => {s with
      point := if (s.rxDescs s.rxCur).status &&& rdescStatDd ≠ 0 then .receive else .idle}
  | .receive => {s.receive with point := .clear}
  | .clear => {s.clear with point := .advance}
  | .advance => {s with rxCur := s.rxCur + 1, point := .tell s.rxCur}
  | .tell oldCur => {s with rdt := oldCur, point := .test}

inductive Op where
  | fill (f : Frame)
  | raise (bits : Word)
  | handler

/-- The card fills a buffer whenever it owns one, and raises interrupts as it likes. -/
inductive Step : State → Op → State → Prop
  | fill {s : State} (f : Frame) (owned : s.rdh ≠ s.rdt) : Step s (.fill f) (s.fill f)
  | raise {s : State} (bits : Word) : Step s (.raise bits) {s with icr := s.icr ||| bits}
  | handler {s : State} : Step s .handler s.handler

end NimrodOS.E1000
