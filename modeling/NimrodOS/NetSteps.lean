import NimrodOS.Net

/-! What each part of the network stack logs and hands back. -/
namespace NimrodOS.Net

open Wire Libc Logged

variable {env : Env} {s : State} {data payload : Nat → Byte} {packet : Nat} {len : Half}
  {p : Event → Prop}

/-! Copies into the buffers. -/

section

variable {b : Buffer} {contents after : b.Contents} {offset size : Nat} {bytes : List Byte}

@[simp] theorem all_put : (put b contents offset payload size).All p ↔ p (.write b offset size) := by
  simp [put]

@[simp] theorem all_putBytes :
    (putBytes b contents offset bytes).All p ↔ p (.write b offset bytes.length) := all_put

/-- A buffer after a copy that fits. -/
def written (contents : b.Contents) (offset : Nat) (src : Nat → Byte) (size : Nat) : b.Contents :=
  fun i => if offset ≤ i ∧ i < offset + size then src (i - offset) else contents i

theorem put_eq (fits : offset + size ≤ b.size) : put b contents offset payload size =
    ⟨[.write b offset size],.ok (written contents offset payload size)⟩ := by
  rw [put,memcpy,if_pos fits]
  rfl

end

/-! Frames. -/

/-- What the sending of a frame may log. -/
def Event.Framing : Event → Prop
  | .write .pktBuf offset size => offset + size ≤ Buffer.pktBuf.size
  | .sent _ => True
  | _ => False

theorem padFrame_framing {pktBuf : Buffer.pktBuf.Contents} {total : Half} :
    (padFrame pktBuf total).All Event.Framing := by
  rw [padFrame]
  split_ifs with short
  · apply All.bind
    · rw [all_put]
      change total.toNat + (60 - total.toNat) ≤ 1536
      have : total.toNat < 60 := short
      omega
    · simp
  · simp

theorem handToNic_framing {total : Half} : (handToNic env s total).All Event.Framing := by
  rw [handToNic]
  split_ifs
  · simp
  · simp [Event.Framing]

theorem eth_length (h : EthHeader) : h.bytes.length = 14 := by
  simp [EthHeader.bytes,bytes16]

theorem ip_length (h : IpHeader) : h.bytes.length = 20 := rfl

theorem icmp_length (h : IcmpHeader) : h.bytes.length = 8 := rfl

theorem udp_length (h : UdpHeader) : h.bytes.length = 8 := rfl

theorem ethSend_framing {dst : Mac} {type : Half} :
    (ethSend env s dst type payload len).All Event.Framing := by
  rw [ethSend]
  split_ifs with large
  · simp
  · have fits : 14 + len.toNat ≤ 1536 := Nat.not_lt.mp large
    apply All.bind
    · rw [all_putBytes,eth_length]
      change 0 + 14 ≤ 1536
      omega
    · intro header _
      apply All.bind
      · rw [all_put]
        exact fits
      · intro filled _
        exact padFrame_framing.bind fun _ _ => handToNic_framing

theorem arpSendRequest_framing {ip : Word} : (arpSendRequest env s ip).All Event.Framing :=
  ethSend_framing.bind fun _ _ => all_pure _

theorem arpSendReply_framing {ip : Word} {mac : Mac} :
    (arpSendReply env s ip mac).All Event.Framing := ethSend_framing.bind fun _ _ => all_pure _

theorem arpLookup_congr {t : State} (same : t.arpCache = s.arpCache) (ip : Word) :
    arpLookup t ip = arpLookup s ip := by
  cases s
  cases t
  cases same
  unfold arpLookup arpSlot
  rfl

theorem waitLoop_log (start ip : Word) (polls : List Poll) : (waitLoop start ip polls).log = [] := by
  induction polls with
  | nil => rfl
  | cons poll polls ih =>
    rw [waitLoop]
    split_ifs
    · rfl
    · cases arpLookup poll.state ip with
      | none => exact ih
      | some entry => rfl
    · rfl

theorem resolveLoop_framing {ip : Word} (attempts : List (Fin 3)) :
    (resolveLoop env ip attempts s).All Event.Framing := by
  induction attempts generalizing s with
  | nil => simp [resolveLoop]
  | cons attempt attempts ih =>
    rw [resolveLoop]
    apply arpSendRequest_framing.bind
    intro _ _
    apply All.bind
    · simp [All,waitLoop_log]
    · rintro ⟨after,waited⟩ _
      cases waited with
      | cancelled => simp
      | found mac => simp
      | timedOut => exact ih

theorem arpResolve_framing {ip : Word} : (arpResolve env s ip).All Event.Framing := by
  rw [arpResolve]
  cases arpLookup s (nextHop s ip) with
  | none => exact resolveLoop_framing _
  | some entry => simp

/-! Packets. -/

/-- The log of `ip_send` holds its own two copies and what sending the frame logs. -/
theorem ipSend_all {dst : Word} {protocol : Byte} (header : p (.write .ipPkt 0 20))
    (body : p (.write .ipPkt 20 len.toNat)) (framing : ∀ e, e.Framing → p e) :
    (ipSend env s dst protocol payload len).All p := by
  rw [ipSend]
  apply All.bind
  · rw [all_putBytes,ip_length]
    exact header
  · intro _ _
    apply All.bind
    · rw [all_put]
      exact body
    · intro _ _
      apply (arpResolve_framing.mono framing).bind
      rintro ⟨after,resolved⟩ _
      cases resolved with
      | none => simp
      | some mac => exact ethSend_framing.mono framing

theorem echoReply_all {start : Nat} (header : p (.write .reply 0 8))
    (body : 8 < len.toNat → p (.write .reply 8 (len.toNat - 8)))
    (sum : p (.write .reply 2 2)) : (echoReply data start len).All p := by
  rw [echoReply]
  apply All.bind
  · rw [all_putBytes,icmp_length]
    exact header
  · intro _ _
    apply All.bind
    · rw [echoData]
      split_ifs with long
      · rw [all_put]
        exact body long
      · simp
    · intro _ _
      rw [all_putBytes]
      exact sum

theorem handleArp_framing : (handleArp env s data packet).All Event.Framing := by
  rw [handleArp]
  split_ifs
  · simp
  · simp
  · dsimp only
    split_ifs
    · exact arpSendReply_framing
    · simp

/-! Received packets, by the fields of their headers. -/

def etherType (data : Nat → Byte) : Half := ntohs (EthHeader.read data 0).type

def ihl (data : Nat → Byte) : Byte := ((IpHeader.read data 14).verIhl &&& 0x0F) * 4

def totalLen (data : Nat → Byte) : Half := ntohs (IpHeader.read data 14).totalLen

/-- The payload's length as `handle_ip` computes it. -/
def payloadLen (data : Nat → Byte) : Half := totalLen data - (ihl data).setWidth 16

def IsArp (data : Nat → Byte) (len : Half) : Prop :=
  14 ≤ len.toNat ∧ etherType data = etherTypeArp

/-- An IP packet for the protocol whose total length is inside of the frame. -/
structure Carries (data : Nat → Byte) (len : Half) (protocol : Byte) : Prop where
  long : 34 ≤ len.toNat
  type : etherType data = etherTypeIp
  total : (totalLen data).toNat + 14 ≤ len.toNat
  protocol : (IpHeader.read data 14).protocol = protocol

def ipView (data : Nat → Byte) (handler : Handler) : View :=
  ⟨handler,14 + (ihl data).toNat,payloadLen data,(totalLen data).toNat - (ihl data).toNat⟩

theorem ihl_small (data : Nat → Byte) : (ihl data).toNat < 2^8 := (ihl data).isLt

theorem payloadLen_toNat (data : Nat → Byte) : (payloadLen data).toNat =
    (2^16 - (ihl data).toNat + (totalLen data).toNat) % 2^16 := by
  have small := ihl_small data
  have wide : ((ihl data).setWidth 16).toNat = (ihl data).toNat := by
    rw [BitVec.toNat_setWidth]
    exact Nat.mod_eq_of_lt (by omega)
  rw [payloadLen,BitVec.toNat_sub,wide]

theorem not_carries_of_arp {protocol : Byte} (arp : IsArp data len) :
    ¬Carries data len protocol := by
  intro carries
  exact absurd (arp.2.symm.trans carries.type) (by decide)

theorem not_udp_of_icmp (icmp : Carries data len protoIcmp) : ¬Carries data len protoUdp := by
  intro udp
  exact absurd (icmp.protocol.symm.trans udp.protocol) (by decide)

theorem handleIp_cases (type : etherType data = etherTypeIp) (long : 14 ≤ len.toNat) :
    (Carries data len protoIcmp ∧ handleIp env s data 14 (len - 14) = (do
      note (.view (ipView data .icmp))
      handleIcmp env s data (IpHeader.read data 14) (14 + (ihl data).toNat) (payloadLen data))) ∨
    (Carries data len protoUdp ∧ handleIp env s data 14 (len - 14) = (do
      note (.view (ipView data .udp))
      handleUdp s data (14 + (ihl data).toNat) (payloadLen data))) ∨
    (¬Carries data len protoIcmp ∧ ¬Carries data len protoUdp ∧
      handleIp env s data 14 (len - 14) = pure s) := by
  have behind : (len - 14).toNat = len.toNat - 14 := by
    have fourteen : (14 : Half).toNat = 14 := rfl
    rw [BitVec.toNat_sub,fourteen]
    omega
  rw [handleIp]
  split_ifs with short
  · refine .inr (.inr ⟨fun carries => ?_,fun carries => ?_,rfl⟩)
    · have := carries.long
      omega
    · have := carries.long
      omega
  dsimp only
  split_ifs with beyond icmp udp
  · have beyond : (len - 14).toNat < (totalLen data).toNat := beyond
    refine .inr (.inr ⟨fun carries => ?_,fun carries => ?_,rfl⟩)
    · have := carries.total
      omega
    · have := carries.total
      omega
  · have inside : ¬(len - 14).toNat < (totalLen data).toNat := beyond
    exact .inl ⟨⟨by omega,type,by omega,icmp⟩,rfl⟩
  · have inside : ¬(len - 14).toNat < (totalLen data).toNat := beyond
    exact .inr (.inl ⟨⟨by omega,type,by omega,udp⟩,rfl⟩)
  · exact .inr (.inr ⟨fun carries => icmp carries.protocol,fun carries => udp carries.protocol,rfl⟩)

/-- What becomes of a received packet. -/
theorem packet_cases (env : Env) (s : State) (data : Nat → Byte) (len : Half) :
    (IsArp data len ∧ netHandlePacket env s data len = (do
      note (.view ⟨.arp,14,28,28⟩)
      handleArp env s data 14)) ∨
    (Carries data len protoIcmp ∧ netHandlePacket env s data len = (do
      note (.view (ipView data .icmp))
      handleIcmp env s data (IpHeader.read data 14) (14 + (ihl data).toNat) (payloadLen data))) ∨
    (Carries data len protoUdp ∧ netHandlePacket env s data len = (do
      note (.view (ipView data .udp))
      handleUdp s data (14 + (ihl data).toNat) (payloadLen data))) ∨
    (¬IsArp data len ∧ ¬Carries data len protoIcmp ∧ ¬Carries data len protoUdp ∧
      netHandlePacket env s data len = pure s) := by
  rw [netHandlePacket]
  split_ifs with short
  · have rejected : ∀ protocol, ¬Carries data len protocol := by
      intro protocol carries
      have := carries.long
      omega
    exact .inr (.inr (.inr ⟨fun arp => Nat.not_lt.mpr arp.1 short,rejected _,rejected _,rfl⟩))
  have long : 14 ≤ len.toNat := Nat.not_lt.mp short
  dsimp only
  split_ifs with arp ip
  · exact .inl ⟨⟨long,arp⟩,rfl⟩
  · rcases handleIp_cases ip long with icmp | udp | ⟨icmp,udp,kept⟩
    · exact .inr (.inl icmp)
    · exact .inr (.inr (.inl udp))
    · exact .inr (.inr (.inr ⟨fun other => arp other.2,icmp,udp,kept⟩))
  · have rejected : ∀ protocol, ¬Carries data len protocol := fun _ carries => ip carries.type
    exact .inr (.inr (.inr ⟨fun other => arp other.2,rejected _,rejected _,rfl⟩))

theorem packet_of_arp (arp : IsArp data len) : netHandlePacket env s data len = (do
    note (.view ⟨.arp,14,28,28⟩)
    handleArp env s data 14) := by
  rcases packet_cases env s data len with ⟨-,handled⟩ | ⟨icmp,-⟩ | ⟨udp,-⟩ | ⟨other,-⟩
  · exact handled
  · exact absurd icmp (not_carries_of_arp arp)
  · exact absurd udp (not_carries_of_arp arp)
  · exact absurd arp other

end NimrodOS.Net
