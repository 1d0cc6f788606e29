import NimrodOS.Lib.RecordRing
import NimrodOS.Lib.Run

/-! The receive side of the RTL8139 driver: the card stores frames in a ring, and the
interrupt handler passes them on. -/
namespace NimrodOS.Rtl8139

open Wire RecordRing Transition

def rxBufSize : Nat := 8192
def rxBufPad : Nat := 16
def rxBufWrap : Nat := 1500
def rxBufTotal : Nat := rxBufSize + rxBufPad + rxBufWrap

def cmdRxEnable : Byte := 0x08
def cmdTxEnable : Byte := 0x04
def intRok : Half := 0x0001

/-- A frame as the card accepts it, with its CRC. -/
structure Frame where
  status : Half
  data : List Byte
  ok : status &&& 0x01 = 1

def Frame.length (f : Frame) : Half := BitVec.ofNat 16 f.data.length

def roundUp4 (n : Nat) : Nat := (n + 3) / 4 * 4

/-- A header of four bytes, then the frame. -/
def format : Format Frame where
  bytes f := bytes16 f.status ++ bytes16 f.length ++ f.data
  span f := roundUp4 (4 + f.data.length)
  covers f := by
    simp only [List.length_append,bytes16_length,roundUp4]
    omega
  moves f := by
    simp only [roundUp4]
    omega

/-- What the handler sees of the card, and the offset `cbr` that it stores at. -/
structure Card where
  isr : Half
  capr : Half
  cbr : Nat

/-- The card keeps `REG_CAPR` 16 bytes behind the place that is read. -/
def Card.reading (c : Card) : Nat := (c.capr.toNat + 16) % rxBufSize

/-- Bit 0 of `REG_CMD` says that nothing is unread. -/
def Card.cmd (c : Card) : Byte :=
  cmdRxEnable ||| cmdTxEnable ||| if c.cbr = c.reading then 0x01 else 0

def Card.unread (c : Card) : Nat := (c.cbr + rxBufSize - c.reading) % rxBufSize

/-- A call of `net_handle_packet`, its pointer as an offset from `rx_buffer`, and the bytes
that stand there. -/
structure Packet where
  pktData : Nat
  rxSize : Half
  contents : List Byte
  deriving DecidableEq

/-- `rxBuffer` is the memory from `rx_buffer` on, also behind its end. -/
structure State where
  card : Card
  rxBuffer : Nat → Byte
  rxOffset : Word
  packets : List Packet

/-- A reset leaves the card reading and storing at 0. -/
def rtl8139Init (memory : Nat → Byte) : State where
  card := ⟨0,0xFFF0,0⟩
  rxBuffer := fun i => if i < rxBufTotal then 0 else memory i
  rxOffset := 0
  packets := []

/-- The card stores a frame in one piece, past the end of the ring where it must. -/
def State.store (s : State) (f : Frame) : State :=
  {s with
    card := {s.card with
      isr := s.card.isr ||| intRok
      cbr := roundUp4 (s.card.cbr + 4 + f.data.length) % rxBufSize}
    rxBuffer := write s.rxBuffer s.card.cbr (format.bytes f)}

def State.netHandlePacket (s : State) (pktData : Nat) (rxSize : Half) : State :=
  {s with packets := s.packets ++ [⟨pktData,rxSize,bytesFrom s.rxBuffer pktData rxSize.toNat⟩]}

/-- Sizes that cannot be a frame's are left out. -/
def State.pass (s : State) (pktData : Nat) (rxSize : Half) : State :=
  if rxSize > 0 ∧ rxSize < 1600 then s.netHandlePacket pktData rxSize else s

/-- One round of the handler's loop, `none` where it ends. -/
def rxRound (s : State) : Option State :=
  if s.card.cmd &&& 0x01 ≠ 0 then none
  else
    let offset := s.rxOffset % BitVec.ofNat 32 rxBufSize
    let rxStatus := load16 s.rxBuffer offset.toNat
    let rxSize := load16 s.rxBuffer (offset.toNat + 2)
    if rxStatus &&& 0x01 = 0 then none
    else
      let s := s.pass (offset.toNat + 4) rxSize
      let rxOffset := (offset + rxSize.setWidth 32 + 4 + 3) &&& ~~~(3 : Word)
      some {s with rxOffset := rxOffset, card := {s.card with capr := (rxOffset - 16).setWidth 16}}

def rxLoop : Nat → State → Option State
  | 0,_ => none
  | fuel + 1,s =>
    match rxRound s with
    | none => some s
    | some t => rxLoop fuel t

def State.acknowledge (s : State) (status : Half) : State :=
  {s with card := {s.card with isr := s.card.isr &&& ~~~status}}

def rtl8139IrqHandler (fuel : Nat) (s : State) : Option State :=
  let status := s.card.isr
  if status &&& intRok ≠ 0 then (rxLoop fuel s).map (·.acknowledge status)
  else some (s.acknowledge status)

/-! What is passed on. -/

/-- The sizes that the handler lets through. -/
def Frame.Forwarded (f : Frame) : Prop := 0 < f.data.length ∧ f.data.length < 1600

instance (f : Frame) : Decidable f.Forwarded := inferInstanceAs (Decidable (_ ∧ _))

/-- The frame that begins at a position, behind its header. -/
def packetAt (entry : Nat × Frame) : Packet :=
  ⟨entry.1 % rxBufSize + 4,entry.2.length,entry.2.data⟩

/-- All accepted frames as packets, each where the card stored it. -/
def packetsOf (frames : List Frame) : List Packet :=
  ((placed format 0 frames).filter fun entry => entry.2.Forwarded).map packetAt

/-- The driver and the card agree that of the accepted frames the first ones are taken and
the others wait in the ring. -/
structure Synced (s : State) (taken pending : List Frame) : Prop where
  laid : Laid format rxBufSize s.rxBuffer (extent format taken) pending
  room : extent format pending < rxBufSize
  offset : s.rxOffset.toNat % rxBufSize = extent format taken % rxBufSize
  reading : s.card.reading = extent format taken % rxBufSize
  storing : s.card.cbr = (extent format taken + extent format pending) % rxBufSize
  packets : s.packets = packetsOf taken

variable {s t : State} {f : Frame} {taken pending rest : List Frame} {mem : Nat → Byte} {i : Nat}

theorem format_stands (stands : At mem i (format.bytes f)) :
    load16 mem i = f.status ∧ load16 mem (i + 2) = f.length ∧ At mem (i + 4) f.data := by
  simp only [format,at_append,List.length_append,bytes16_length] at stands
  exact ⟨load16_at stands.1.1,load16_at stands.1.2,stands.2⟩

theorem format_span (f : Frame) : format.span f = roundUp4 (4 + f.data.length) := rfl

theorem span_aligned (f : Frame) : 4 ∣ format.span f := Nat.dvd_mul_left ..

theorem extent_aligned (frames : List Frame) : 4 ∣ extent format frames := by
  induction frames with
  | nil => exact Nat.dvd_zero 4
  | cons f frames ih =>
    rw [extent_cons]
    exact Nat.dvd_add (span_aligned f) ih

theorem packetsOf_snoc (frames : List Frame) (f : Frame) : packetsOf (frames ++ [f]) =
    packetsOf frames ++ if f.Forwarded then [packetAt (extent format frames,f)] else [] := by
  rw [packetsOf,placed_append,List.filter_append,List.map_append,Nat.zero_add]
  refine congrArg (packetsOf frames ++ ·) ?_
  by_cases forwarded : f.Forwarded <;> simp [placed,forwarded]

theorem init_synced (memory : Nat → Byte) : Synced (rtl8139Init memory) [] [] where
  laid := laid_nil
  room := by decide
  offset := rfl
  reading := by simp [rtl8139Init,Card.reading,rxBufSize]
  storing := rfl
  packets := rfl

theorem cmd_empty (c : Card) : c.cmd &&& 0x01 ≠ 0 ↔ c.cbr = c.reading := by
  unfold Card.cmd
  split_ifs with same
  · exact iff_of_true (by decide) same
  · exact iff_of_false (by decide) same

theorem pass_same (s : State) (pktData : Nat) (rxSize : Half) :
    (s.pass pktData rxSize).card = s.card ∧ (s.pass pktData rxSize).rxBuffer = s.rxBuffer := by
  unfold State.pass
  split_ifs <;> exact ⟨rfl,rfl⟩

namespace Synced

theorem unread (synced : Synced s taken pending) : s.card.unread = extent format pending := by
  rw [Card.unread,synced.storing,synced.reading]
  exact RecordRing.unread synced.room

theorem length_fits (synced : Synced s taken (f :: rest)) : f.length.toNat = f.data.length := by
  have room := synced.room
  rw [extent_cons,format_span] at room
  simp only [roundUp4,rxBufSize] at room
  rw [Frame.length,BitVec.toNat_ofNat]
  exact Nat.mod_eq_of_lt (by omega)

/-- Where the next frame goes, rounded by the card from its own offset. -/
theorem next (synced : Synced s taken pending) (f : Frame) :
    roundUp4 (s.card.cbr + 4 + f.data.length) % rxBufSize =
      (extent format taken + extent format (pending ++ [f])) % rxBufSize := by
  have taken' := extent_aligned taken
  have pending' := extent_aligned pending
  rw [synced.storing,extent_append,extent_cons,extent_nil,format_span]
  simp only [roundUp4,rxBufSize]
  omega

theorem store (synced : Synced s taken pending)
    (room : s.card.unread + format.span f < rxBufSize) : Synced (s.store f) taken (pending ++ [f]) := by
  rw [synced.unread] at room
  refine {synced with laid := ?_,room := ?_,storing := synced.next f}
  · rw [State.store,synced.storing]
    exact synced.laid.snoc (Nat.le_of_lt room)
  · simpa using room

/-- The driver's new offset is the next frame's, and it tells the card so. -/
theorem advanced {offset : Word} {pos : Nat} (rxSize : Half) (inside : offset.toNat < rxBufSize)
    (here : offset.toNat = pos % rxBufSize) (aligned : 4 ∣ pos) :
    ((offset + rxSize.setWidth 32 + 4 + 3) &&& ~~~(3 : Word)).toNat % rxBufSize =
      (pos + roundUp4 (4 + rxSize.toNat)) % rxBufSize := by
  have size := rxSize.isLt
  have sum : (offset + rxSize.setWidth 32 + 4).toNat = offset.toNat + rxSize.toNat + 4 := by
    simp only [rxBufSize] at inside
    bv_omega
  have rounded := roundUp_toNat (offset + rxSize.setWidth 32 + 4) 2 (by omega)
  rw [sum] at rounded
  refine (congrArg (· % rxBufSize) rounded).trans ?_
  simp only [roundUp4,rxBufSize] at inside here ⊢
  omega

theorem told (rxOffset : Word) :
    (((rxOffset - 16).setWidth 16 : Half).toNat + 16) % rxBufSize = rxOffset.toNat % rxBufSize := by
  simp only [rxBufSize]
  bv_omega

theorem round_nil (synced : Synced s taken []) : rxRound s = none := by
  have empty : s.card.cbr = s.card.reading := by
    rw [synced.storing,synced.reading,extent_nil,Nat.add_zero]
  exact if_pos ((cmd_empty s.card).mpr empty)

theorem pass_packets (synced : Synced s taken (f :: rest)) :
    (s.pass (extent format taken % rxBufSize + 4) f.length).packets =
      packetsOf (taken ++ [f]) := by
  have size := synced.length_fits
  have stands := (format_stands (laid_cons.mp synced.laid).1).2.2
  have forwarded : (f.length > 0 ∧ f.length < 1600) ↔ f.Forwarded := by
    rw [Frame.Forwarded,← size]
    bv_omega
  rw [State.pass,packetsOf_snoc]
  split_ifs with lets sends sends
  · rw [State.netHandlePacket,synced.packets,size,stands.bytesFrom]
    rfl
  · exact absurd (forwarded.mp lets) sends
  · exact absurd (forwarded.mpr sends) lets
  · rw [synced.packets,List.append_nil]

/-- A round takes the first frame that waits. -/
theorem round_cons (synced : Synced s taken (f :: rest)) :
    ∃ t, rxRound s = some t ∧ Synced t (taken ++ [f]) rest := by
  have moves := format.moves f
  have room := synced.room
  rw [extent_cons] at room
  have nonempty : ¬s.card.cmd &&& 0x01 ≠ 0 := by
    rw [cmd_empty,synced.storing,synced.reading,extent_cons]
    simp only [rxBufSize] at room ⊢
    omega
  obtain ⟨stands,behind⟩ := laid_cons.mp synced.laid
  obtain ⟨status,length,-⟩ := format_stands stands
  have here : (s.rxOffset % BitVec.ofNat 32 rxBufSize).toNat = extent format taken % rxBufSize := by
    rw [← synced.offset]
    rfl
  have good : ¬f.status &&& 0x01 = 0 := by
    rw [f.ok]
    decide
  have inside : (s.rxOffset % BitVec.ofNat 32 rxBufSize).toNat < rxBufSize := by
    rw [here]
    exact Nat.mod_lt _ (by decide)
  have next := advanced f.length inside here (extent_aligned taken)
  rw [synced.length_fits,← format_span] at next
  obtain ⟨card,buffer⟩ := pass_same s (extent format taken % rxBufSize + 4) f.length
  simp only [rxRound,if_neg nonempty,here,status,length,if_neg good]
  refine ⟨_,rfl,?_⟩
  constructor
  · rw [buffer,extent_append,extent_cons,extent_nil]
    exact behind
  · omega
  · rw [extent_append,extent_cons,extent_nil]
    exact next
  · rw [extent_append,extent_cons,extent_nil]
    exact (told _).trans next
  · rw [card,extent_append,extent_cons,extent_nil]
    dsimp only
    rw [synced.storing,extent_cons,Nat.add_zero,Nat.add_assoc]
  · exact synced.pass_packets

end Synced

end NimrodOS.Rtl8139
