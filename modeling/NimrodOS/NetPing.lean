import NimrodOS.NetKeeps
import NimrodOS.Lib.Run

/-! Pings. Requests are sent one after the other, and the network may deliver any packet
at any time: a reply late, twice or after the reply to a later request. Each packet
comes with the number of the request that it answers, which the code does not see. -/
namespace NimrodOS.Net

open Wire Logged Transition

variable {env : Env} {s : State} {data payload : Nat → Byte} {len : Half}

/-! What the parts of the stack do to `ping_state`. -/

theorem ping_stable (q : PingState → Prop) : Stable fun t => q t.pingState :=
  fun _ _ _ before => before

theorem handleArp_ping {packet : Nat} :
    (handleArp env s data packet).Returns fun t => t.pingState = s.pingState :=
  handleArp_keeps (ping_stable (· = s.pingState)) (fun _ _ kept => kept) rfl

theorem handleUdp_ping {start : Nat} {n : Half} :
    (handleUdp s data start n).Returns fun t => t.pingState = s.pingState := by
  rw [handleUdp]
  split_ifs
  · simp
  · dsimp only
    split_ifs
    · apply Returns.after
      intro _
      rw [returns_pure,dnsReply]
      dsimp only
      split_ifs
      · split <;> rfl
      · rfl
    · simp

/-! Replies. -/

def icmpHeader (data : Nat → Byte) : IcmpHeader := IcmpHeader.read data (14 + (ihl data).toNat)

/-- The sender of a received packet. -/
def source (data : Nat → Byte) : Word := ntohl (IpHeader.read data 14).srcIp

structure EchoReply (data : Nat → Byte) (len : Half) : Prop where
  carries : Carries data len protoIcmp
  long : 8 ≤ (payloadLen data).toNat
  type : (icmpHeader data).type = 0

/-- The replies that `handle_icmp` takes for an answer. -/
structure Confirms (s : State) (data : Nat → Byte) (len : Half) : Prop
    extends EchoReply data len where
  id : ntohs (icmpHeader data).id = s.pingState.id
  seq : ntohs (icmpHeader data).sequence = s.pingState.seq

/-- No other handler runs while this one waits. -/
def Env.Quiet (env : Env) (s : State) : Prop := env.Finds fun t => t.pingState = s.pingState

def State.confirmed (s : State) (ticks : Word) : PingState :=
  {s.pingState with gotReply := 1,rttTicks := ticks - s.pingState.sendTick}

theorem handleIcmp_ping (quiet : env.Quiet s) (carries : Carries data len protoIcmp) :
    (handleIcmp env s data (IpHeader.read data 14) (14 + (ihl data).toNat)
      (payloadLen data)).Returns fun t =>
        (Confirms s data len → t.pingState = s.confirmed env.ticks) ∧
        (¬Confirms s data len → t.pingState = s.pingState) := by
  rw [handleIcmp]
  split_ifs with short
  · have unanswered : ¬Confirms s data len := fun confirms => by
      have := confirms.long
      omega
    simp [unanswered]
  dsimp only
  split_ifs with request answered
  · have unanswered : ¬Confirms s data len := fun confirms =>
      absurd (request.symm.trans confirms.type) (by decide)
    apply Returns.after
    intro reply
    refine (ipSend_keeps (ping_stable (· = s.pingState)) rfl quiet).bind ?_
    intro t kept
    simpa [unanswered] using kept
  · have confirms : Confirms s data len :=
      ⟨⟨carries,Nat.not_lt.mp short,answered.1⟩,answered.2.1,answered.2.2⟩
    simp [confirms,State.confirmed]
  · have unanswered : ¬Confirms s data len := fun confirms =>
      answered ⟨confirms.type,confirms.id,confirms.seq⟩
    simp [unanswered]

/-- What a received packet does to `ping_state`. -/
theorem packet_ping (quiet : env.Quiet s) :
    (netHandlePacket env s data len).Returns fun t =>
      (Confirms s data len → t.pingState = s.confirmed env.ticks) ∧
      (¬Confirms s data len → t.pingState = s.pingState) := by
  have other : ¬Carries data len protoIcmp → ¬Confirms s data len :=
    fun icmp confirms => icmp confirms.carries
  rcases packet_cases env s data len with
    ⟨arp,handled⟩ | ⟨icmp,handled⟩ | ⟨udp,handled⟩ | ⟨-,icmp,-,handled⟩
  · rw [handled]
    have unanswered := other (not_carries_of_arp arp)
    exact Returns.after fun _ t result => ⟨fun confirms => absurd confirms unanswered,
      fun _ => handleArp_ping t result⟩
  · rw [handled]
    exact Returns.after fun _ => handleIcmp_ping quiet icmp
  · rw [handled]
    have unanswered := other fun icmp => not_udp_of_icmp icmp udp
    exact Returns.after fun _ t result => ⟨fun confirms => absurd confirms unanswered,
      fun _ => handleUdp_ping t result⟩
  · rw [handled]
    simp [other icmp]

theorem confirms_handled (env : Env) (confirms : Confirms s data len) :
    (netHandlePacket env s data len).result =
      .ok {s with pingState := s.confirmed env.ticks} := by
  have icmp := confirms.carries
  rcases packet_cases env s data len with
    ⟨arp,handled⟩ | ⟨-,handled⟩ | ⟨udp,handled⟩ | ⟨-,other,-,handled⟩
  · exact absurd icmp (not_carries_of_arp arp)
  · have reply : (icmpHeader data).type ≠ echoRequest := by
      rw [confirms.type]
      decide
    have checks : (icmpHeader data).type = 0 ∧ ntohs (icmpHeader data).id = s.pingState.id ∧
        ntohs (icmpHeader data).sequence = s.pingState.seq :=
      ⟨confirms.type,confirms.id,confirms.seq⟩
    rw [handled,note_bind_result,handleIcmp,if_neg (Nat.not_lt.mpr confirms.long)]
    dsimp only
    rw [← icmpHeader,if_neg reply,if_pos checks]
    rfl
  · exact absurd udp (not_udp_of_icmp icmp)
  · exact absurd icmp other

end NimrodOS.Net
