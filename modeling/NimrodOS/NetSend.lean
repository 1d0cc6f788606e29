import NimrodOS.NetSteps

/-! Whether what is sent fits into the buffers on its way. -/
namespace NimrodOS.Net

open Wire Libc Logged

variable {env : Env} {s : State} {data payload : Nat → Byte} {len : Half} {p : Event → Prop}

def Event.BufferInside : Event → Prop
  | .write b offset size => offset + size ≤ b.size
  | _ => True

def Event.NotWrite : Event → Prop
  | .write _ _ _ => False
  | _ => True

/-- All four buffers would hold a datagram with the data. -/
def DatagramFits (len : Half) : Prop :=
  8 + len.toNat ≤ Buffer.udpPkt.size ∧ 28 + len.toNat ≤ Buffer.ipPkt.size ∧
    42 + len.toNat ≤ Buffer.pktBuf.size

/-- Nothing goes beyond a buffer, and data that does not fit is refused before any copy. -/
structure DatagramSafe (env : Env) (s : State) (dstIp : Word) (srcPort dstPort : Half)
    (data : Nat → Byte) (len : Half) : Prop where
  inside : (netSendUdp env s dstIp srcPort dstPort data len).All Event.BufferInside
  refused : ¬DatagramFits len →
    (netSendUdp env s dstIp srcPort dstPort data len).All Event.NotWrite ∧
      ∃ s' r, (netSendUdp env s dstIp srcPort dstPort data len).result = .ok (s',r) ∧ r < 0

/-- An echo request that is answered. -/
def Answered (data : Nat → Byte) (len : Half) : Prop :=
  Carries data len protoIcmp ∧ 8 ≤ (payloadLen data).toNat ∧
    (IcmpHeader.read data (14 + (ihl data).toNat)).type = echoRequest

/-- All buffers would hold the answer with the payload. -/
def EchoFits (len : Half) : Prop :=
  len.toNat ≤ Buffer.reply.size ∧ 20 + len.toNat ≤ Buffer.ipPkt.size ∧
    34 + len.toNat ≤ Buffer.pktBuf.size

structure EchoSafe (env : Env) (s : State) (data : Nat → Byte) (len : Half) : Prop where
  inside : (netHandlePacket env s data len).All Event.BufferInside
  refused : Answered data len → ¬EchoFits (payloadLen data) →
    (netHandlePacket env s data len).All Event.NotWrite

theorem datagramFits_iff : DatagramFits len ↔ len.toNat ≤ 1464 := by
  simp only [DatagramFits,Buffer.size]
  omega

theorem echoFits_iff : EchoFits len ↔ len.toNat ≤ 1480 := by
  simp only [EchoFits,Buffer.size]
  omega

theorem Event.Framing.bufferInside {e : Event} (framing : e.Framing) : e.BufferInside := by
  cases e with
  | view v => trivial
  | write b offset size =>
    cases b with
    | pktBuf => exact framing
    | udpPkt | reply | ipPkt => exact framing.elim
  | sent frame => trivial

/-- A first copy that fits leaves the log to what follows it. -/
theorem all_put_bind {b : Buffer} {contents : b.Contents} {offset size : Nat} {α : Type}
    {f : b.Contents → Logs α} (fits : offset + size ≤ b.size)
    (held : (put b contents offset payload size >>= f).All p) : ∃ after, (f after).All p := by
  have rest := (all_bind.mp held).2
  rw [put_eq fits] at rest
  exact ⟨_,rest _ rfl⟩

theorem header_fits {b : Buffer} {bytes : List Byte} (short : bytes.length ≤ 20) :
    0 + bytes.length ≤ b.size := by
  cases b <;> simp only [Buffer.size] <;> omega

theorem ipSend_body {dst : Word} {protocol : Byte}
    (held : (ipSend env s dst protocol payload len).All p) : p (.write .ipPkt 20 len.toNat) := by
  rw [ipSend] at held
  obtain ⟨after,rest⟩ := all_put_bind (header_fits (Nat.le_of_eq (ip_length _))) held
  exact all_put.mp (all_bind.mp rest).1

theorem ipSend_inside {dst : Word} {protocol : Byte} (fits : 20 + len.toNat ≤ 1500) :
    (ipSend env s dst protocol payload len).All Event.BufferInside := by
  apply ipSend_all
  · exact (by decide : 0 + 20 ≤ 1500)
  · exact fits
  · exact fun _ => Event.Framing.bufferInside

/-! Datagrams. -/

theorem datagram_inside (dst : Word) (srcPort dstPort : Half) :
    (netSendUdp env s dst srcPort dstPort data len).All Event.BufferInside ↔
      len.toNat ≤ 1464 := by
  rw [netSendUdp]
  have header : (UdpHeader.bytes ⟨htons srcPort,htons dstPort,htons (8 + len),0⟩).length ≤ 20 := by
    rw [udp_length]
    decide
  constructor
  · intro held
    obtain ⟨after,rest⟩ := all_put_bind (header_fits header) held
    have copied : 8 + len.toNat ≤ 1472 := all_put.mp (all_bind.mp rest).1
    omega
  · intro small
    have copied : 8 + len.toNat ≤ 1472 := by omega
    have total : (8 + len).toNat = 8 + len.toNat := by
      have eight : (8 : Half).toNat = 8 := rfl
      rw [BitVec.toNat_add,eight]
      omega
    apply All.bind
    · rw [all_putBytes]
      exact header_fits header
    · intro _ _
      apply All.bind
      · rw [all_put]
        exact copied
      · intro _ _
        apply ipSend_inside
        omega

theorem datagramSafe_iff (dst : Word) (srcPort dstPort : Half) :
    DatagramSafe env s dst srcPort dstPort data len ↔ len.toNat ≤ 1464 := by
  constructor
  · exact fun safe => (datagram_inside dst srcPort dstPort).mp safe.inside
  · intro small
    exact ⟨(datagram_inside dst srcPort dstPort).mpr small,
      fun large => absurd (datagramFits_iff.mpr small) large⟩

/-! Answers to echo requests. -/

theorem echoReply_inside {start : Nat} (fits : len.toNat ≤ 1500) :
    (echoReply data start len).All Event.BufferInside := by
  apply echoReply_all
  · exact (by decide : 0 + 8 ≤ 1500)
  · intro long
    change 8 + (len.toNat - 8) ≤ 1500
    omega
  · exact (by decide : 2 + 2 ≤ 1500)

/-- A reply that is put together holds the data of the request. -/
theorem echoReply_body {start : Nat} (held : (echoReply data start len).All p)
    (long : 8 < len.toNat) : p (.write .reply 8 (len.toNat - 8)) := by
  rw [echoReply] at held
  obtain ⟨after,rest⟩ := all_put_bind (header_fits (by rw [icmp_length]; decide)) held
  have copied := (all_bind.mp rest).1
  rw [echoData,if_pos long,all_put] at copied
  exact copied

theorem put_bind_ok {b : Buffer} {contents : b.Contents} {offset size : Nat} {α : Type}
    {f : b.Contents → Logs α} (fits : offset + size ≤ b.size)
    (rest : ∀ after, ∃ r, (f after).result = .ok r) :
    ∃ r, (put b contents offset payload size >>= f).result = .ok r := by
  rw [put_eq fits,bind_of_ok rfl]
  exact rest _

theorem echoReply_ok {start : Nat} (fits : len.toNat ≤ 1500) :
    ∃ reply, (echoReply data start len).result = .ok reply := by
  have sum : ∀ contents (v : Half), ∃ reply,
      (putBytes .reply contents 2 (bytes16 v)).result = .ok reply := by
    intro contents v
    rw [putBytes,put_eq (by exact (by decide : 2 + 2 ≤ 1500))]
    exact ⟨_,rfl⟩
  rw [echoReply]
  apply put_bind_ok
  · exact header_fits (by rw [icmp_length]; decide)
  · intro header
    rw [echoData]
    split_ifs with long
    · apply put_bind_ok
      · change 8 + (len.toNat - 8) ≤ 1500
        omega
      · exact fun filled => sum filled _
    · exact sum header _

theorem handleIcmp_inside (ip : IpHeader) (start : Nat) :
    (handleIcmp env s data ip start len).All Event.BufferInside ↔
      (8 ≤ len.toNat ∧ (IcmpHeader.read data start).type = echoRequest → len.toNat ≤ 1480) := by
  rw [handleIcmp]
  split_ifs with short
  · simp only [all_pure,true_iff]
    omega
  have long : 8 ≤ len.toNat := Nat.not_lt.mp short
  dsimp only
  split_ifs with request reply
  · simp only [long,request,and_self,forall_const]
    constructor
    · intro held
      have copied : len.toNat ≤ 1500 := by
        rcases Nat.lt_or_ge 8 len.toNat with more | exactly
        · have body : 8 + (len.toNat - 8) ≤ 1500 := echoReply_body (all_bind.mp held).1 more
          omega
        · omega
      obtain ⟨reply,ran⟩ := echoReply_ok copied
      have sent := (all_bind.mp held).2 reply ran
      have body : 20 + len.toNat ≤ 1500 := ipSend_body (all_bind.mp sent).1
      omega
    · intro small
      apply All.bind
      · exact echoReply_inside (by omega)
      · intro _ _
        apply All.bind
        · exact ipSend_inside (by omega)
        · simp
  · simp [request]
  · simp [request]

theorem packet_inside : (netHandlePacket env s data len).All Event.BufferInside ↔
    (Answered data len → (payloadLen data).toNat ≤ 1480) := by
  rcases packet_cases env s data len with
    ⟨arp,handled⟩ | ⟨icmp,handled⟩ | ⟨udp,handled⟩ | ⟨arp,icmp,udp,handled⟩
  · rw [handled,all_note_bind]
    constructor
    · exact fun _ answered => absurd answered.1 (not_carries_of_arp arp)
    · exact fun _ => ⟨trivial,handleArp_framing.mono fun _ => Event.Framing.bufferInside⟩
  · rw [handled,all_note_bind,handleIcmp_inside]
    simp only [Event.BufferInside,true_and,Answered,icmp]
  · rw [handled,all_note_bind]
    constructor
    · exact fun _ answered => absurd udp (not_udp_of_icmp answered.1)
    · refine fun _ => ⟨trivial,?_⟩
      rw [handleUdp]
      split_ifs
      · simp
      · dsimp only
        split_ifs
        · simp [Event.BufferInside]
        · simp
  · rw [handled]
    simp [Answered,icmp]

theorem echoSafe_iff : EchoSafe env s data len ↔
    (Answered data len → (payloadLen data).toNat ≤ 1480) := by
  constructor
  · exact fun safe => packet_inside.mp safe.inside
  · intro small
    exact ⟨packet_inside.mpr small,
      fun answered large => absurd (echoFits_iff.mpr (small answered)) large⟩

/-- Datagrams and answers stay inside of the buffers just when they are short enough for
the smallest of them. -/
theorem send_bounds_iff (env : Env) (s : State) :
    (∀ dstIp srcPort dstPort data len,
      DatagramSafe env s dstIp srcPort dstPort data len ↔ len.toNat ≤ 1464) ∧
    ∀ data len, EchoSafe env s data len ↔
      (Answered data len → (payloadLen data).toNat ≤ 1480) :=
  ⟨fun dstIp srcPort dstPort _ _ => datagramSafe_iff dstIp srcPort dstPort,
    fun _ _ => echoSafe_iff⟩

/-- Data of 1465 bytes runs over the end of the datagram's buffer. -/
theorem long_datagram_overflows : ¬∀ (env : Env) (s : State) dstIp srcPort dstPort data len,
    DatagramSafe env s dstIp srcPort dstPort data len := by
  intro claim
  have safe := claim default (netInit .e1000 broadcast) 0 0 0 (fun _ => 0) 1465
  exact absurd ((datagramSafe_iff 0 0 0).mp safe) (by decide)

end NimrodOS.Net
