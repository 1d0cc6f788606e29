import NimrodOS.NetHeaders
import NimrodOS.NetSteps

/-! A datagram that is sent is received with the same ports, length and data. -/
namespace NimrodOS.Net

open Wire Logged

variable {env : Env} {s : State} {payload : Nat → Byte} {len : Half}

/-! The contents of a buffer. -/

section

variable {b : Buffer} {contents : b.Contents} {offset size i : Nat} {bytes : List Byte}

theorem reading_written (fits : offset + size ≤ b.size) :
    reading (written contents offset payload size) i =
      if offset ≤ i ∧ i < offset + size then payload (i - offset) else reading contents i := by
  unfold reading written
  by_cases inside : i < b.size
  · simp [inside]
  · have beyond : ¬i < offset + size := by omega
    simp [inside,beyond]

theorem at_written (fits : offset + size ≤ b.size) :
    At (reading (written contents offset payload size)) offset (bytesFrom payload 0 size) := by
  apply at_of_get
  intro k inside
  have here : k < size := by simpa using inside
  rw [reading_written fits,if_pos ⟨Nat.le_add_right ..,by omega⟩,← at_bytesFrom.get inside]
  congr 1
  omega

theorem at_header (fits : offset + bytes.length ≤ b.size) :
    At (reading (written contents offset (fun k => bytes.getD k 0) bytes.length)) offset bytes := by
  have copied : At (reading (written contents offset (fun k => bytes.getD k 0) bytes.length)) offset
      (bytesFrom (fun k => bytes.getD k 0) 0 bytes.length) := at_written fits
  rwa [at_getD.bytesFrom] at copied

/-- A copy leaves what stands before it. -/
theorem At.before_written (stands : At (reading contents) i bytes)
    (before : i + bytes.length ≤ offset) (fits : offset + size ≤ b.size) :
    At (reading (written contents offset payload size)) i bytes := by
  apply stands.congr
  intro k inside
  rw [reading_written fits,if_neg]
  omega

end

/-! Frames that go to the card. -/

def sentFrames {α : Type} (x : Logs α) : List (List Byte) :=
  x.log.filterMap fun
    | .sent frame => some frame
    | _ => none

theorem sentFrames_put {b : Buffer} {contents : b.Contents} {offset size : Nat} {α : Type}
    {f : b.Contents → Logs α} (fits : offset + size ≤ b.size) :
    sentFrames (put b contents offset payload size >>= f) =
      sentFrames (f (written contents offset payload size)) := by
  rw [put_eq fits,bind_of_ok rfl]
  rfl

theorem sentFrames_putBytes {b : Buffer} {contents : b.Contents} {offset : Nat}
    {bytes : List Byte} {α : Type} {f : b.Contents → Logs α}
    (fits : offset + bytes.length ≤ b.size) :
    sentFrames (putBytes b contents offset bytes >>= f) =
      sentFrames (f (written contents offset (fun k => bytes.getD k 0) bytes.length)) :=
  sentFrames_put fits

/-- What a frame in a buffer holds, from the Ethernet header to the end of the padding. -/
structure Framed (pkt : Nat → Byte) (eth : EthHeader) (payload : Nat → Byte) (len : Nat) :
    Prop where
  header : At pkt 0 eth.bytes
  body : At pkt 14 (bytesFrom payload 0 len)
  padding : ∀ i, 14 + len ≤ i → i < 60 → pkt i = 0

theorem sentFrames_bind {α β : Type} {x : Logs α} {f : α → Logs β} {a : α}
    (ran : x.result = .ok a) : sentFrames (x >>= f) = sentFrames x ++ sentFrames (f a) := by
  rw [bind_of_ok ran,sentFrames,List.filterMap_append]
  rfl

theorem padFrame_eq (pktBuf : Buffer.pktBuf.Contents) (total : Half) :
    ∃ padded, (padFrame pktBuf total).result = .ok padded ∧
      sentFrames (padFrame pktBuf total) = [] ∧ padded.2.toNat = max 60 total.toNat ∧
      (∀ i, i < total.toNat → reading padded.1 i = reading pktBuf i) ∧
      ∀ i, total.toNat ≤ i → i < 60 → reading padded.1 i = 0 := by
  rw [padFrame]
  split_ifs with short
  · have short : total.toNat < 60 := short
    have fits : total.toNat + (60 - total.toNat) ≤ Buffer.pktBuf.size := by
      change total.toNat + (60 - total.toNat) ≤ 1536
      omega
    rw [put_eq fits,bind_of_ok rfl]
    refine ⟨_,rfl,rfl,?_,fun i inside => ?_,fun i behind inside => ?_⟩
    · change 60 = _
      omega
    · rw [reading_written fits,if_neg]
      omega
    · rw [reading_written fits,if_pos (by omega)]
  · have long : ¬total.toNat < 60 := short
    refine ⟨_,rfl,rfl,?_,fun i _ => rfl,fun i behind inside => by omega⟩
    change total.toNat = _
    omega

theorem handToNic_frames {total : Half} : sentFrames (handToNic env s total) =
    if s.activeNic = .none then [] else [bytesFrom (reading s.pktBuf) 0 total.toNat] := by
  rw [handToNic]
  split_ifs <;> rfl

theorem ethSend_frames {dst : Mac} {type : Half} (fits : 14 + len.toNat ≤ 1536) : ∃ pkt,
    sentFrames (ethSend env s dst type payload len) =
      (if s.activeNic = .none then [] else [bytesFrom pkt 0 (max 60 (14 + len.toNat))]) ∧
    Framed pkt ⟨dst,s.ourMac,htons type⟩ payload len.toNat := by
  have total : (14 + len).toNat = 14 + len.toNat := by
    have fourteen : (14 : Half).toNat = 14 := rfl
    rw [BitVec.toNat_add,fourteen]
    omega
  have header := eth_length ⟨dst,s.ourMac,htons type⟩
  have room : 0 + (EthHeader.bytes ⟨dst,s.ourMac,htons type⟩).length ≤ Buffer.pktBuf.size := by
    rw [header]
    exact (by decide : 0 + 14 ≤ 1536)
  rw [ethSend,if_neg (by exact Nat.not_lt.mpr fits),sentFrames_putBytes room,
    sentFrames_put (by exact fits)]
  generalize filled : written (b := .pktBuf) (written s.pktBuf 0 _ _) 14 payload len.toNat = pktBuf
  obtain ⟨padded,ran,silent,length,kept,zeros⟩ := padFrame_eq pktBuf (14 + len)
  rw [sentFrames_bind ran,silent,handToNic_frames,length,total,List.nil_append]
  rw [total] at kept zeros
  refine ⟨reading padded.1,rfl,?_,?_,zeros⟩
  · have stands : At (reading pktBuf) 0 (EthHeader.bytes ⟨dst,s.ourMac,htons type⟩) := by
      rw [← filled]
      apply At.before_written
      · exact at_header room
      · omega
      · exact fits
    apply stands.congr
    intro k inside
    exact kept _ (by omega)
  · have stands : At (reading pktBuf) 14 (bytesFrom payload 0 len.toNat) := by
      rw [← filled]
      exact at_written fits
    apply stands.congr
    intro k inside
    rw [bytesFrom_length] at inside
    exact kept _ (by omega)

/-- The header that `ip_send` puts in front. -/
def sentHeader (s : State) (dst : Word) (protocol : Byte) (len : Half) : IpHeader :=
  withChecksum (ipHeader s dst protocol len)

theorem ipSend_frames {dst : Word} {protocol : Byte} {entry : ArpEntry}
    (cached : arpLookup s (nextHop s dst) = some entry) (fits : 20 + len.toNat ≤ 1500) : ∃ pkt,
    sentFrames (ipSend env s dst protocol payload len) =
      (if s.activeNic = .none then [] else [bytesFrom pkt 0 (max 60 (34 + len.toNat))]) ∧
    At pkt 0 (EthHeader.bytes ⟨entry.mac,s.ourMac,htons etherTypeIp⟩) ∧
    At pkt 14 (sentHeader s dst protocol len).bytes ∧
    At pkt 34 (bytesFrom payload 0 len.toNat) ∧
    ∀ i, 34 + len.toNat ≤ i → i < 60 → pkt i = 0 := by
  have total : (20 + len).toNat = 20 + len.toNat := by
    have twenty : (20 : Half).toNat = 20 := rfl
    rw [BitVec.toNat_add,twenty]
    omega
  have header : (sentHeader s dst protocol len).bytes.length = 20 := rfl
  have room : 0 + (sentHeader s dst protocol len).bytes.length ≤ Buffer.ipPkt.size := by
    rw [header]
    exact (by decide : 0 + 20 ≤ 1500)
  have resolved : arpResolve env {s with ipIdCounter := s.ipIdCounter + 1} dst =
      pure ({s with ipIdCounter := s.ipIdCounter + 1},some entry.mac) := by
    have hop : nextHop {s with ipIdCounter := s.ipIdCounter + 1} dst = nextHop s dst := rfl
    have lookup : arpLookup {s with ipIdCounter := s.ipIdCounter + 1} (nextHop s dst) = some entry :=
      (arpLookup_congr (s := s) (t := {s with ipIdCounter := s.ipIdCounter + 1}) rfl _).trans cached
    rw [arpResolve,hop,lookup]
  rw [ipSend,sentFrames_putBytes (by exact room),sentFrames_put (by exact fits),resolved,Logged.pure_bind]
  generalize filled : written (b := .ipPkt) (written _ 0 _ _) 20 payload len.toNat = ipPkt
  have first : At (reading ipPkt) 0 (sentHeader s dst protocol len).bytes := by
    rw [← filled]
    apply At.before_written
    · exact at_header room
    · omega
    · exact fits
  have second : At (reading ipPkt) 20 (bytesFrom payload 0 len.toNat) := by
    rw [← filled]
    exact at_written fits
  have frame : 14 + (20 + len).toNat ≤ 1536 := by omega
  obtain ⟨pkt,sent,framed⟩ := ethSend_frames frame
  rw [total] at sent framed
  have longer : 14 + (20 + len.toNat) = 34 + len.toNat := by omega
  rw [longer] at sent
  refine ⟨pkt,sent,framed.header,?_,?_,fun i behind => framed.padding i (by omega)⟩
  · have copied : At pkt (14 + 0) (sentHeader s dst protocol len).bytes := by
      apply framed.body.copied
      · exact first
      · omega
    exact copied
  · have copied : At pkt (14 + 20) (bytesFrom payload 0 len.toNat) := by
      apply framed.body.copied
      · exact second
      · simp
    exact copied

/-- The header that `net_send_udp` puts in front. -/
def sentUdp (srcPort dstPort len : Half) : UdpHeader :=
  ⟨htons srcPort,htons dstPort,htons (8 + len),0⟩

theorem datagram_frames {dst : Word} {srcPort dstPort : Half} {data : Nat → Byte}
    {entry : ArpEntry} (cached : arpLookup s (nextHop s dst) = some entry)
    (short : len.toNat ≤ 1464) : ∃ pkt,
    sentFrames (netSendUdp env s dst srcPort dstPort data len) =
      (if s.activeNic = .none then [] else [bytesFrom pkt 0 (max 60 (42 + len.toNat))]) ∧
    At pkt 0 (EthHeader.bytes ⟨entry.mac,s.ourMac,htons etherTypeIp⟩) ∧
    At pkt 14 (sentHeader s dst protoUdp (8 + len)).bytes ∧
    At pkt 34 (sentUdp srcPort dstPort len).bytes ∧
    At pkt 42 (bytesFrom data 0 len.toNat) ∧
    ∀ i, 42 + len.toNat ≤ i → i < 60 → pkt i = 0 := by
  have total : (8 + len).toNat = 8 + len.toNat := by
    have eight : (8 : Half).toNat = 8 := rfl
    rw [BitVec.toNat_add,eight]
    omega
  have header : (sentUdp srcPort dstPort len).bytes.length = 8 := rfl
  have room : 0 + (sentUdp srcPort dstPort len).bytes.length ≤ Buffer.udpPkt.size := by
    rw [header]
    exact (by decide : 0 + 8 ≤ 1472)
  have fits : 8 + len.toNat ≤ 1472 := by omega
  rw [netSendUdp,sentFrames_putBytes (by exact room),sentFrames_put (by exact fits)]
  generalize filled : written (b := .udpPkt) (written _ 0 _ _) 8 data len.toNat = udpPkt
  have first : At (reading udpPkt) 0 (sentUdp srcPort dstPort len).bytes := by
    rw [← filled]
    apply At.before_written
    · exact at_header room
    · omega
    · exact fits
  have second : At (reading udpPkt) 8 (bytesFrom data 0 len.toNat) := by
    rw [← filled]
    exact at_written fits
  have packet : 20 + (8 + len).toNat ≤ 1500 := by omega
  obtain ⟨pkt,sent,eth,ip,body,padding⟩ := ipSend_frames cached packet
  rw [total] at sent body padding
  have longer : 34 + (8 + len.toNat) = 42 + len.toNat := by omega
  rw [longer] at sent
  refine ⟨pkt,sent,eth,ip,?_,?_,fun i behind => padding i (by omega)⟩
  · have copied : At pkt (34 + 0) (sentUdp srcPort dstPort len).bytes := by
      apply body.copied
      · exact first
      · omega
    exact copied
  · have copied : At pkt (34 + 8) (bytesFrom data 0 len.toNat) := by
      apply body.copied
      · exact second
      · simp
    exact copied

/-! The receiving side. -/

/-- A receiver comes to `handle_udp` with the sender's datagram and nothing more, under an
IP header that sums up to zero. -/
structure Delivers (frame : List Byte) (srcPort dstPort : Half) (data : Nat → Byte) (len : Half)
    (env : Env) (receiver : State) (bytes : Nat → Byte) : Prop where
  dispatched : netHandlePacket env receiver bytes (BitVec.ofNat 16 frame.length) = (do
    note (.view ⟨.udp,34,8 + len,8 + len.toNat⟩)
    handleUdp receiver bytes 34 (8 + len))
  length : (8 + len).toNat = 8 + len.toNat
  srcPort : ntohs (UdpHeader.read bytes 34).srcPort = srcPort
  dstPort : ntohs (UdpHeader.read bytes 34).dstPort = dstPort
  lengthField : ntohs (UdpHeader.read bytes 34).length = 8 + len
  data : At bytes 42 (bytesFrom data 0 len.toNat)
  sum : checksum bytes 14 20 = 0

/-- A receiver's packet that starts with the three headers and the data. -/
structure Carried (bytes : Nat → Byte) (s : State) (mac : Mac) (dst : Word) (srcPort dstPort : Half)
    (data : Nat → Byte) (len : Half) : Prop where
  eth : At bytes 0 (EthHeader.bytes ⟨mac,s.ourMac,htons etherTypeIp⟩)
  ip : At bytes 14 (sentHeader s dst protoUdp (8 + len)).bytes
  udp : At bytes 34 (sentUdp srcPort dstPort len).bytes
  data : At bytes 42 (bytesFrom data 0 len.toNat)

section

variable {bytes data : Nat → Byte} {mac : Mac} {dst : Word} {srcPort dstPort : Half}

theorem Carried.etherType (carried : Carried bytes s mac dst srcPort dstPort data len) :
    etherType bytes = etherTypeIp := by
  rw [Net.etherType,EthHeader.read_at carried.eth,ntohs_htons]

theorem Carried.ihl (carried : Carried bytes s mac dst srcPort dstPort data len) :
    ihl bytes = 20 := by
  have first : (sentHeader s dst protoUdp (8 + len)).verIhl = 0x45 := rfl
  rw [Net.ihl,IpHeader.read_at carried.ip,first]
  decide

theorem Carried.totalLen (carried : Carried bytes s mac dst srcPort dstPort data len) :
    totalLen bytes = 20 + (8 + len) := by
  rw [Net.totalLen,IpHeader.read_at carried.ip]
  exact ntohs_htons _

theorem Carried.payloadLen (carried : Carried bytes s mac dst srcPort dstPort data len) :
    payloadLen bytes = 8 + len := by
  rw [Net.payloadLen,carried.totalLen,carried.ihl]
  have wide : (20 : Byte).setWidth 16 = (20 : Half) := rfl
  rw [wide]
  bv_omega

theorem Carried.dispatched (carried : Carried bytes s mac dst srcPort dstPort data len)
    (short : len.toNat ≤ 1464) {n : Half} (inside : 42 + len.toNat ≤ n.toNat)
    (receiver : State) : netHandlePacket env receiver bytes n = (do
      note (.view ⟨.udp,34,8 + len,8 + len.toNat⟩)
      handleUdp receiver bytes 34 (8 + len)) := by
  have total : (20 + (8 + len)).toNat = 28 + len.toNat := by bv_omega
  have twenty : (20 : Byte).toNat = 20 := rfl
  have carries : Carries bytes n protoUdp := by
    constructor
    · omega
    · exact carried.etherType
    · rw [carried.totalLen,total]
      omega
    · rw [IpHeader.read_at carried.ip]
      rfl
  rcases packet_cases env receiver bytes n with
    ⟨arp,-⟩ | ⟨icmp,-⟩ | ⟨-,handled⟩ | ⟨-,-,udp,-⟩
  · exact absurd carries (not_carries_of_arp arp)
  · exact absurd carries (not_udp_of_icmp icmp)
  · have exact' : ((28 + len.toNat : Nat) : Int) - (20 : Nat) = 8 + len.toNat := by omega
    rw [handled,ipView,carried.totalLen,carried.payloadLen,carried.ihl,total,twenty,exact']
  · exact absurd carries udp

theorem Carried.delivers (carried : Carried bytes s mac dst srcPort dstPort data len)
    (short : len.toNat ≤ 1464) {frame : List Byte} (least : 42 + len.toNat ≤ frame.length)
    (most : frame.length < 2^16) (receiver : State) :
    Delivers frame srcPort dstPort data len env receiver bytes := by
  have length : (BitVec.ofNat 16 frame.length).toNat = frame.length := Nat.mod_eq_of_lt most
  have udp := UdpHeader.read_at carried.udp
  constructor
  · exact carried.dispatched short (by omega) receiver
  · bv_omega
  · rw [udp]
    exact ntohs_htons _
  · rw [udp]
    exact ntohs_htons _
  · rw [udp]
    exact ntohs_htons _
  · exact carried.data
  · exact checksum_resum rfl carried.ip

end

/-- With the next hop in the cache, a datagram of at most 1464 bytes goes out as one
frame, and every receiver of that frame is given what was sent. -/
theorem datagram_delivered (env : Env) (s : State) (dst : Word) (srcPort dstPort : Half)
    (data : Nat → Byte) (len : Half) (short : len.toNat ≤ 1464) (entry : ArpEntry)
    (cached : arpLookup s (nextHop s dst) = some entry) :
    (s.activeNic ≠ .none →
      ∃ frame, sentFrames (netSendUdp env s dst srcPort dstPort data len) = [frame]) ∧
    ∀ frame ∈ sentFrames (netSendUdp env s dst srcPort dstPort data len),
      frame.length = max 60 (42 + len.toNat) ∧
      (∀ i (inside : i < frame.length), 42 + len.toNat ≤ i → frame[i] = 0) ∧
      ∀ env receiver bytes, At bytes 0 frame →
        Delivers frame srcPort dstPort data len env receiver bytes := by
  obtain ⟨pkt,sent,eth,ip,udp,body,padding⟩ := datagram_frames cached short
  rw [sent]
  constructor
  · intro card
    exact ⟨_,if_neg card⟩
  intro frame member
  split_ifs at member with card
  · simp at member
  obtain rfl := List.mem_singleton.mp member
  have length : (bytesFrom pkt 0 (max 60 (42 + len.toNat))).length = max 60 (42 + len.toNat) :=
    bytesFrom_length
  refine ⟨length,fun i inside behind => ?_,fun env receiver bytes received => ?_⟩
  · rw [← at_bytesFrom.get inside,Nat.zero_add]
    exact padding i behind (by omega)
  · have carried : Carried bytes s entry.mac dst srcPort dstPort data len := by
      constructor
      · exact received.copied_front eth (by rw [eth_length]; omega)
      · exact received.copied_front ip (by rw [ip_length]; omega)
      · exact received.copied_front udp (by rw [udp_length]; omega)
      · exact received.copied_front body (by rw [bytesFrom_length]; omega)
    exact carried.delivers short (by omega) (by omega) receiver

/-- The gateway's address is known. -/
def knownGateway : State := arpUpdate (netInit .e1000 broadcast) gateway broadcast

/-- The bytes from 1 on. -/
def counted (i : Nat) : Byte := BitVec.ofNat 8 (i + 1)

/-- Nineteen bytes, in a frame without padding. -/
theorem datagram_delivered_counted : ∃ frame,
    sentFrames (netSendUdp default knownGateway 0x08080808 1000 53 counted 19) = [frame] ∧
      frame.length = 61 ∧ ∀ env receiver bytes, At bytes 0 frame →
        Delivers frame 1000 53 counted 19 env receiver bytes := by
  have known : (arpLookup knownGateway (nextHop knownGateway 0x08080808)).isSome := by decide +kernel
  obtain ⟨entry,cached⟩ := Option.isSome_iff_exists.mp known
  have card : knownGateway.activeNic ≠ .none := by decide +kernel
  have delivered := datagram_delivered default knownGateway 0x08080808 1000 53 counted 19
    (by decide) entry cached
  obtain ⟨frame,sent⟩ := delivered.1 card
  have member := List.mem_singleton_self frame
  rw [← sent] at member
  obtain ⟨length,-,received⟩ := delivered.2 frame member
  exact ⟨frame,sent,length,received⟩

end NimrodOS.Net
