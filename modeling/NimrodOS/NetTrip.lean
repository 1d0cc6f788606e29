import NimrodOS.NetPings
import NimrodOS.NetSegment

/-! A ping from one machine to another and back. -/
namespace NimrodOS.Net

open Wire Logged

variable {env : Env} {s r : State} {data : Nat → Byte} {len n : Half} {dst : Word} {mac : Mac}
  {protocol : Byte} {id seq : Half}

/-- Memory that starts with the two headers of a packet that `ip_send` has sent. -/
structure Packeted (data : Nat → Byte) (s : State) (mac : Mac) (dst : Word) (protocol : Byte)
    (len : Half) : Prop where
  eth : At data 0 (EthHeader.bytes ⟨mac,s.ourMac,htons etherTypeIp⟩)
  ip : At data 14 (sentHeader s dst protocol len).bytes

namespace Packeted

theorem header (packet : Packeted data s mac dst protocol len) :
    IpHeader.read data 14 = sentHeader s dst protocol len := IpHeader.read_at packet.ip

theorem ihl (packet : Packeted data s mac dst protocol len) : Net.ihl data = 20 := by
  have first : (sentHeader s dst protocol len).verIhl = 0x45 := rfl
  rw [Net.ihl,packet.header,first]
  decide

theorem totalLen (packet : Packeted data s mac dst protocol len) :
    Net.totalLen data = 20 + len := by
  rw [Net.totalLen,packet.header]
  exact ntohs_htons _

theorem payloadLen (packet : Packeted data s mac dst protocol len) : Net.payloadLen data = len := by
  have wide : (20 : Byte).setWidth 16 = (20 : Half) := rfl
  rw [Net.payloadLen,packet.totalLen,packet.ihl,wide]
  bv_omega

theorem source (packet : Packeted data s mac dst protocol len) : Net.source data = s.ourIp := by
  rw [Net.source,packet.header]
  exact ntohl_htonl _

theorem carries (packet : Packeted data s mac dst protocol len) (short : len.toNat ≤ 1480)
    (inside : 34 + len.toNat ≤ n.toNat) : Carries data n protocol := by
  have total : (20 + len).toNat = 20 + len.toNat := by bv_omega
  constructor
  · omega
  · rw [etherType,EthHeader.read_at packet.eth]
    exact ntohs_htons _
  · rw [packet.totalLen,total]
    omega
  · rw [packet.header]
    rfl

end Packeted

theorem packet_of_icmp (icmp : Carries data n protoIcmp) : netHandlePacket env s data n = (do
    note (.view (ipView data .icmp))
    handleIcmp env s data (IpHeader.read data 14) (14 + (ihl data).toNat) (payloadLen data)) := by
  rcases packet_cases env s data n with ⟨arp,-⟩ | ⟨-,handled⟩ | ⟨udp,-⟩ | ⟨-,other,-⟩
  · exact absurd icmp (not_carries_of_arp arp)
  · exact handled
  · exact absurd udp (not_udp_of_icmp icmp)
  · exact absurd icmp other

/-! The request. -/

theorem icmpPkt_length (id seq : Half) : (icmpPkt id seq).length = 64 := by
  simp [icmpPkt,icmp_length]

/-- The header of a request, as `net_send_icmp_echo` has put it together. -/
theorem icmpPkt_header {i : Nat} (stands : At data i (icmpPkt id seq)) :
    (IcmpHeader.read data i).type = echoRequest ∧ (IcmpHeader.read data i).id = htons id ∧
      (IcmpHeader.read data i).sequence = htons seq := by
  rw [icmpPkt,at_append] at stands
  rw [IcmpHeader.read_at stands.1]
  exact ⟨rfl,rfl,rfl⟩

/-- What the one who hears a request finds in memory. -/
structure Requests (data : Nat → Byte) (s : State) (mac : Mac) (dst : Word) (id seq : Half) :
    Prop extends Packeted data s mac dst protoIcmp 64 where
  body : At data 34 (icmpPkt id seq)

theorem echo_frames {entry : ArpEntry} (card : s.activeNic ≠ .none)
    (cached : arpLookup s (nextHop s dst) = some entry) : ∃ request : List Byte,
    sentFrames (netSendIcmpEcho env s dst id seq) = [request] ∧ request.length = 98 ∧
      ∀ data, At data 0 request → Requests data s entry.mac dst id seq := by
  have cached' : arpLookup (s.startPing dst id seq env.ticks)
      (nextHop (s.startPing dst id seq env.ticks) dst) = some entry :=
    (arpLookup_congr (s := s) (t := s.startPing dst id seq env.ticks) rfl _).trans cached
  have fits : 20 + (64 : Half).toNat ≤ 1500 := by decide
  obtain ⟨pkt,sent,eth,ip,body,-⟩ := @ipSend_frames env (s.startPing dst id seq env.ticks)
    (fun i => (icmpPkt id seq).getD i 0) 64 dst protoIcmp entry cached' fits
  have sixtyFour : (64 : Half).toNat = (icmpPkt id seq).length := by
    rw [icmpPkt_length]
    rfl
  have whole : max 60 (34 + (64 : Half).toNat) = 98 := by decide
  rw [if_neg (show (s.startPing dst id seq env.ticks).activeNic ≠ .none from card),whole] at sent
  rw [sixtyFour,at_getD.bytesFrom] at body
  refine ⟨_,sent,bytesFrom_length,fun data received => ?_⟩
  constructor
  · constructor
    · exact received.copied_front eth (by rw [eth_length]; decide)
    · exact received.copied_front ip (by rw [ip_length]; decide)
  · exact received.copied_front body (by rw [icmpPkt_length])

theorem Requests.header (requests : Requests data s mac dst id seq) :
    (icmpHeader data).type = echoRequest ∧ (icmpHeader data).id = htons id ∧
      (icmpHeader data).sequence = htons seq := by
  rw [icmpHeader,requests.ihl]
  exact icmpPkt_header requests.body

/-! The answer. -/

theorem reply_frames {entry : ArpEntry} (requests : Requests data s mac dst id seq)
    (card : r.activeNic ≠ .none) (long : 98 ≤ n.toNat)
    (cached : arpLookup r (nextHop r s.ourIp) = some entry) : ∃ reply : List Byte,
    sentFrames (netHandlePacket env r data n) = [reply] ∧ reply.length = 98 ∧
      ∀ bytes, At bytes 0 reply → Echoes bytes entry.mac data := by
  have icmp := requests.carries (by decide) long
  have payload := requests.payloadLen
  have own : ntohl (IpHeader.read data 14).srcIp = s.ourIp := requests.source
  rw [← own] at cached
  have eight : 8 ≤ (payloadLen data).toNat := by rw [payload]; decide
  have short : (payloadLen data).toNat ≤ 1480 := by rw [payload]; decide
  obtain ⟨pkt,reply,sum,sent,eth,ip,body,whole⟩ :=
    handleIcmp_frames env eight requests.header.1 short cached
  have length : max 60 (34 + (payloadLen data).toNat) = 98 := by rw [payload]; decide
  rw [if_neg card,length] at sent
  refine ⟨bytesFrom pkt 0 98,?_,bytesFrom_length,fun bytes received => ?_⟩
  · rw [packet_of_icmp icmp]
    exact sent
  · rw [payload] at ip body whole
    have eth' := received.copied_front eth (by rw [eth_length]; decide)
    have ip' := received.copied_front ip (by rw [ip_length]; decide)
    have body' := received.copied_front body (by rw [bytesFrom_length]; decide)
    apply echoes_of_parts eight short eth'
    · rwa [payload]
    · rwa [payload]
    · rwa [payload]

/-- The one who pings takes the answer for its own. -/
theorem Requests.confirms {bytes : Nat → Byte} {hop : Mac} {s' : State}
    (requests : Requests data s mac dst id seq) (echoes : Echoes bytes hop data)
    (long : 98 ≤ n.toNat) (sameId : s'.pingState.id = id) (sameSeq : s'.pingState.seq = seq) :
    Confirms s' bytes n := by
  have sixtyFour : (64 : Half).toNat = 64 := rfl
  have twenty : (20 : Byte).toNat = 20 := rfl
  have total := echoes.totalLen
  have payload := payloadLen_toNat bytes
  rw [requests.payloadLen,sixtyFour] at total
  rw [echoes.noOptions,twenty,total] at payload
  obtain ⟨-,ids,seqs⟩ := requests.header
  constructor
  · exact ⟨⟨by omega,echoes.type,by omega,echoes.protocol⟩,by omega,echoes.reply.1⟩
  · rw [echoes.id,ids,sameId]
    exact ntohs_htons id
  · rw [echoes.sequence,seqs,sameSeq]
    exact ntohs_htons seq

theorem halfLength {frame : List Byte} (length : frame.length = 98) :
    (BitVec.ofNat 16 frame.length).toNat = 98 := by
  rw [length]
  rfl

/-- A ping goes out as one frame, whoever hears it answers with one frame to the next hop of
the sender, and the sender that hears the answer knows it for the answer to this ping, as long
as it has not sent another. -/
theorem ping_round_trip (s r : State) (dst : Word) (id seq : Half) (here there : ArpEntry)
    (cardHere : s.activeNic ≠ .none) (cardThere : r.activeNic ≠ .none)
    (cachedHere : arpLookup s (nextHop s dst) = some here)
    (cachedThere : arpLookup r (nextHop r s.ourIp) = some there) (env₁ env₂ env₃ : Env) :
    ∃ request, sentFrames (netSendIcmpEcho env₁ s dst id seq) = [request] ∧
      ∀ data, At data 0 request → ∃ reply,
        sentFrames (netHandlePacket env₂ r data (BitVec.ofNat 16 request.length)) = [reply] ∧
        ∀ bytes, At bytes 0 reply → (EthHeader.read bytes 0).dst = there.mac ∧
          ∀ s' : State, s'.pingState.id = id → s'.pingState.seq = seq →
            (netHandlePacket env₃ s' bytes (BitVec.ofNat 16 reply.length)).result =
              .ok {s' with pingState := s'.confirmed env₃.ticks} := by
  obtain ⟨request,sent,length,requests⟩ := echo_frames cardHere cachedHere
  refine ⟨request,sent,fun data received => ?_⟩
  have asked := requests data received
  obtain ⟨reply,answered,length',echoes⟩ :=
    reply_frames asked cardThere (halfLength length).ge cachedThere
  refine ⟨reply,answered,fun bytes heard => ⟨(echoes bytes heard).hop,fun s' sameId sameSeq => ?_⟩⟩
  exact confirms_handled env₃ (asked.confirms (echoes bytes heard) (halfLength length').ge sameId sameSeq)

/-- The pinged host, in a network of its own behind the same gateway. -/
def knownRemote : State := {knownGateway with ourIp := 0x08080808}


theorem ping_round_trip_once : ∃ request,
    sentFrames (netSendIcmpEcho default knownGateway 0x08080808 pingId 1) = [request] := by
  have known : (arpLookup knownGateway (nextHop knownGateway 0x08080808)).isSome := by decide +kernel
  have known' : (arpLookup knownRemote (nextHop knownRemote knownGateway.ourIp)).isSome := by
    decide +kernel
  obtain ⟨here,cachedHere⟩ := Option.isSome_iff_exists.mp known
  obtain ⟨there,cachedThere⟩ := Option.isSome_iff_exists.mp known'
  have card : knownGateway.activeNic ≠ .none := by decide +kernel
  obtain ⟨request,sent,-⟩ := ping_round_trip knownGateway knownRemote 0x08080808 pingId 1 here there card
    (by decide +kernel) cachedHere cachedThere default default default
  exact ⟨request,sent⟩

end NimrodOS.Net
