import NimrodOS.NetChecksum
import NimrodOS.NetPing
import NimrodOS.NetRound
import NimrodOS.NetSend

/-! Echo requests and their answers. -/
namespace NimrodOS.Net

open Wire Logged

variable {env : Env} {s : State} {data bytes : Nat → Byte} {len : Half} {start : Nat} {mac : Mac}

/-- What the one who pings finds in memory that holds the answer to a request. -/
structure Echoes (bytes : Nat → Byte) (mac : Mac) (data : Nat → Byte) : Prop where
  hop : (EthHeader.read bytes 0).dst = mac
  type : etherType bytes = etherTypeIp
  protocol : (IpHeader.read bytes 14).protocol = protoIcmp
  noOptions : ihl bytes = 20
  totalLen : (totalLen bytes).toNat = 20 + (payloadLen data).toNat
  dst : (IpHeader.read bytes 14).dstIp = (IpHeader.read data 14).srcIp
  ipSum : checksum bytes 14 20 = 0
  reply : (icmpHeader bytes).type = 0 ∧ (icmpHeader bytes).code = 0
  id : (icmpHeader bytes).id = (icmpHeader data).id
  sequence : (icmpHeader bytes).sequence = (icmpHeader data).sequence
  body : bytesFrom bytes 42 ((payloadLen data).toNat - 8) =
    bytesFrom data (14 + (Net.ihl data).toNat + 8) ((payloadLen data).toNat - 8)
  icmpSum : checksum bytes 34 (payloadLen data) = 0

/-! The message. -/

section

variable {b : Buffer} {contents : b.Contents} {offset : Nat} {field : List Byte}

theorem reading_putBytes (fits : offset + field.length ≤ b.size) :
    reading (written contents offset (fun k => field.getD k 0) field.length) =
      write (reading contents) offset field := by
  funext i
  rw [reading_written fits,write]
  by_cases before : offset ≤ i
  · by_cases inside : i < offset + field.length
    · have here : i - offset < field.length := by omega
      rw [if_pos ⟨before,inside⟩,if_pos before,List.getD_eq_getElem _ _ here,List.getD_eq_getElem _ _ here]
    · rw [if_neg fun both => inside both.2,if_pos before,List.getD_eq_default _ _ (by omega)]
  · rw [if_neg fun both => before both.1,if_neg before]

theorem bytesFrom_offset (f : Nat → Byte) (i n : Nat) : bytesFrom (fun k => f (i + k)) 0 n = bytesFrom f i n := by
  have stands : At (fun k => f (i + k)) 0 (bytesFrom f i n) := by
    apply at_of_get
    intro j inside
    rw [Nat.zero_add]
    exact at_bytesFrom.get inside
  have copied := stands.bytesFrom
  rwa [bytesFrom_length] at copied

end

theorem htonl_append (a b c d : Byte) : htonl (a ++ b ++ c ++ d) = d ++ c ++ b ++ a := by
  apply BitVec.eq_of_getLsbD_eq
  intro k inside
  simp only [htonl,BitVec.getLsbD_or,BitVec.getLsbD_and,BitVec.getLsbD_ushiftRight,
    BitVec.getLsbD_shiftLeft,BitVec.getLsbD_append]
  interval_cases k <;> simp

theorem htonl_ntohl (v : Word) : htonl (ntohl v) = v := by
  rw [← append_quarters v,ntohl,htonl_append,htonl_append]

/-- The answer before its checksum is filled in. -/
def unsummed (data : Nat → Byte) (start : Nat) : IcmpHeader :=
  ⟨0,0,0,(IcmpHeader.read data start).id,(IcmpHeader.read data start).sequence⟩

/-- A whole message: type and code, a checksum over everything, and the request's data. -/
structure Message (reply data : Nat → Byte) (start : Nat) (len : Half) (sum : Half) : Prop where
  header : At reply 0 {unsummed data start with checksum := sum}.bytes
  body : At reply 8 (bytesFrom data (start + 8) (len.toNat - 8))
  sums : checksum reply 0 len = 0

/-- The data goes behind the header. -/
theorem echoData_spec {reply : Buffer.reply.Contents} {header : List Byte} (short : header.length = 8)
    (data : Nat → Byte) (start : Nat) (stands : At (reading reply) 0 header) (fits : len.toNat ≤ 1500) : ∃ filled,
    (echoData reply data start len).result = .ok filled ∧ sentFrames (echoData reply data start len) = [] ∧
      At (reading filled) 0 header ∧
      At (reading filled) 8 (bytesFrom data (start + 8) (len.toNat - 8)) := by
  rw [echoData]
  split_ifs with more
  · have room : 8 + (len.toNat - 8) ≤ Buffer.reply.size := by
      change 8 + (len.toNat - 8) ≤ 1500
      omega
    rw [put_eq room]
    refine ⟨_,rfl,rfl,?_,?_⟩
    · exact At.before_written stands (by omega) room
    · rw [← bytesFrom_offset]
      exact at_written room
  · have none : len.toNat - 8 = 0 := by omega
    rw [none]
    exact ⟨reply,rfl,rfl,stands,trivial⟩

/-- The checksum is computed over a message that has zeros in its place. -/
theorem message_summed {filled : Nat → Byte} (long : 8 ≤ len.toNat)
    (header : At filled 0 (unsummed data start).bytes)
    (body : At filled 8 (bytesFrom data (start + 8) (len.toNat - 8))) :
    Message (write filled 2 (bytes16 (checksum filled 0 len))) data start len (checksum filled 0 len) := by
  have outside {i : Nat} {part : List Byte} (stands : At filled i part) (apart : i + part.length ≤ 2 ∨ 4 ≤ i) :
      At (write filled 2 (bytes16 (checksum filled 0 len))) i part := by
    apply stands.congr
    intro j inside
    apply write_outside
    rw [bytes16_length]
    omega
  simp only [IcmpHeader.bytes,at_append,List.length_append,List.length_cons,List.length_nil,
    bytes16_length,Nat.zero_add,Nat.reduceAdd] at header
  obtain ⟨⟨⟨first,empty⟩,id⟩,sequence⟩ := header
  constructor
  · simp only [IcmpHeader.bytes,at_append,List.length_append,List.length_cons,List.length_nil,
      bytes16_length,Nat.zero_add,Nat.reduceAdd]
    exact ⟨⟨⟨outside first (.inl (Nat.le_refl _)),at_write⟩,outside id (.inr (by decide))⟩,
      outside sequence (.inr (by decide))⟩
  · exact outside body (.inr (by decide))
  · exact checksum_write (i := 0) (k := 1) (by omega) (load16_at empty)

theorem echoReply_eq (data : Nat → Byte) (start : Nat) (len : Half) : echoReply data start len = (do
    let reply ← putBytes .reply (fun _ => 0) 0 (unsummed data start).bytes
    let reply ← echoData reply data start len
    putBytes .reply reply 2 (bytes16 (checksum (reading reply) 0 len))) := rfl

theorem echoReply_message (data : Nat → Byte) (start : Nat) (long : 8 ≤ len.toNat) (fits : len.toNat ≤ 1500) : ∃ reply sum,
    (echoReply data start len).result = .ok reply ∧ sentFrames (echoReply data start len) = [] ∧
      Message (reading reply) data start len sum := by
  have eight : (unsummed data start).bytes.length = 8 := icmp_length _
  have room : 0 + (unsummed data start).bytes.length ≤ Buffer.reply.size := by
    rw [eight]
    exact (by decide : 0 + 8 ≤ 1500)
  have plain := @at_header .reply (fun _ => 0) 0 (unsummed data start).bytes room
  obtain ⟨filled,ran,silent,header,body⟩ := echoData_spec eight data start plain fits
  have field : 2 + (bytes16 (checksum (reading filled) 0 len)).length ≤ Buffer.reply.size := by
    exact (by decide : 2 + 2 ≤ 1500)
  have whole := message_summed long header body
  rw [← reading_putBytes field] at whole
  refine ⟨_,_,?_,?_,whole⟩
  · rw [echoReply_eq,putBytes,put_eq room,bind_of_ok rfl]
    dsimp only
    rw [bind_of_ok ran,putBytes,put_eq field]
  · rw [echoReply_eq,sentFrames_putBytes room,sentFrames_bind ran,silent]
    rfl

/-! The frame. -/

theorem sentFrames_pure {α β : Type} {x : Logs α} (f : α → β) :
    sentFrames (x >>= fun a => pure (f a)) = sentFrames x := by
  cases ran : x.result with
  | error e =>
    rw [bind_of_error ran]
    rfl
  | ok a =>
    rw [sentFrames_bind ran]
    exact List.append_nil _

theorem handleIcmp_frames (env : Env) {ip : IpHeader} {entry : ArpEntry} (long : 8 ≤ len.toNat)
    (request : (IcmpHeader.read data start).type = echoRequest) (short : len.toNat ≤ 1480)
    (cached : arpLookup s (nextHop s (ntohl ip.srcIp)) = some entry) : ∃ pkt reply sum,
    sentFrames (handleIcmp env s data ip start len) =
      (if s.activeNic = .none then [] else [bytesFrom pkt 0 (max 60 (34 + len.toNat))]) ∧
    At pkt 0 (EthHeader.bytes ⟨entry.mac,s.ourMac,htons etherTypeIp⟩) ∧
    At pkt 14 (sentHeader s (ntohl ip.srcIp) protoIcmp len).bytes ∧
    At pkt 34 (bytesFrom reply 0 len.toNat) ∧ Message reply data start len sum := by
  obtain ⟨reply,sum,ran,silent,whole⟩ := echoReply_message data start long (by omega)
  have packet : 20 + len.toNat ≤ 1500 := by omega
  obtain ⟨pkt,sent,eth,header,body,-⟩ :=
    @ipSend_frames env s (reading reply) len (ntohl ip.srcIp) protoIcmp entry cached packet
  refine ⟨pkt,reading reply,sum,?_,eth,header,body,whole⟩
  rw [handleIcmp,if_neg (Nat.not_lt.mpr long)]
  dsimp only
  rw [if_pos request,sentFrames_bind ran,silent,sentFrames_pure,sent]
  rfl

theorem checksum_copied {f g : Nat → Byte} {i j : Nat} (copy : At f i (bytesFrom g j len.toNat)) :
    checksum f i len = checksum g j len := by
  have sums := wordSum_at copy at_bytesFrom
  rw [bytesFrom_length] at sums
  apply BitVec.eq_of_toNat_eq
  rw [checksum_toNat,checksum_toNat,sums]

/-- Memory that starts with the headers of an answer and its message. -/
theorem echoes_of_parts {reply : Nat → Byte} {sum : Half}
    (long : 8 ≤ (payloadLen data).toNat) (short : (payloadLen data).toNat ≤ 1480)
    (eth : At bytes 0 (EthHeader.bytes ⟨mac,s.ourMac,htons etherTypeIp⟩))
    (ip : At bytes 14 (sentHeader s (source data) protoIcmp (payloadLen data)).bytes)
    (body : At bytes 34 (bytesFrom reply 0 (payloadLen data).toNat))
    (whole : Message reply data (14 + (ihl data).toNat) (payloadLen data) sum) : Echoes bytes mac data := by
  have ethRead := EthHeader.read_at eth
  have ipRead := IpHeader.read_at ip
  have own : ihl bytes = 20 := by
    have first : (sentHeader s (source data) protoIcmp (payloadLen data)).verIhl = 0x45 := rfl
    rw [ihl,ipRead,first]
    decide
  have header : At bytes (34 + 0) {unsummed data (14 + (ihl data).toNat) with checksum := sum}.bytes := by
    apply body.copied
    · exact whole.header
    · rw [icmp_length]
      omega
  have read : icmpHeader bytes = {unsummed data (14 + (ihl data).toNat) with checksum := sum} := by
    rw [icmpHeader,own]
    exact IcmpHeader.read_at header
  have content : At bytes (34 + 8) (bytesFrom data (14 + (ihl data).toNat + 8) ((payloadLen data).toNat - 8)) := by
    apply body.copied
    · exact whole.body
    · rw [bytesFrom_length]
      omega
  constructor
  · rw [ethRead]
  · rw [etherType,ethRead]
    exact ntohs_htons _
  · rw [ipRead]
    rfl
  · exact own
  · have field : totalLen bytes = 20 + payloadLen data := by
      rw [totalLen,ipRead]
      exact ntohs_htons _
    rw [field]
    bv_omega
  · rw [ipRead]
    exact htonl_ntohl _
  · exact checksum_resum rfl ip
  · rw [read]
    exact ⟨rfl,rfl⟩
  · rw [read]
    rfl
  · rw [read]
    rfl
  · have copied := content.bytesFrom
    rwa [bytesFrom_length] at copied
  · rw [checksum_copied body]
    exact whole.sums

/-- Every echo request of at most 1480 bytes is answered with one frame to the next hop, if
that is in the cache. -/
theorem echo_answered (env : Env) (s : State) (data : Nat → Byte) (len : Half)
    (card : s.activeNic ≠ .none) (request : Answered data len) (short : (payloadLen data).toNat ≤ 1480)
    (entry : ArpEntry) (cached : arpLookup s (nextHop s (source data)) = some entry) :
    (ihl data).toNat + (payloadLen data).toNat = (totalLen data).toNat ∧
    ∃ frame, sentFrames (netHandlePacket env s data len) = [frame] ∧
      frame.length = max 60 (34 + (payloadLen data).toNat) ∧
      ∀ bytes, At bytes 0 frame → Echoes bytes entry.mac data := by
  obtain ⟨carries,long,type⟩ := request
  have exactly := payloadLen_toNat data
  have small := ihl_small data
  have total := (totalLen data).isLt
  refine ⟨by omega,?_⟩
  obtain ⟨pkt,reply,sum,sent,eth,ip,body,whole⟩ := handleIcmp_frames env long type short cached
  rw [if_neg card] at sent
  rcases packet_cases env s data len with
    ⟨arp,-⟩ | ⟨-,handled⟩ | ⟨udp,-⟩ | ⟨-,icmp,-,-⟩
  · exact absurd carries (not_carries_of_arp arp)
  · refine ⟨bytesFrom pkt 0 _,?_,bytesFrom_length,fun bytes received => ?_⟩
    · rw [handled]
      exact sent
    · have eth' := received.copied_front eth (by rw [eth_length]; omega)
      have ip' := received.copied_front ip (by rw [ip_length]; omega)
      have body' := received.copied_front body (by rw [bytesFrom_length]; omega)
      exact echoes_of_parts long short eth' ip' body' whole
  · exact absurd udp (not_udp_of_icmp carries)
  · exact absurd carries icmp

/-- A request from behind the gateway with one byte of data. -/
def pingRequest : Nat → Byte := fun i =>
  ([0,0,0,0,0,0,0,0,0,0,0,0,0x08,0x00,0x45,0,0,29,0,0,0,0,64,1,0,0,8,8,8,8,10,0,2,15,
    8,0,0xA1,0xFD,0x12,0x34,0,1,0x43] : List Byte).getD i 0

theorem echo_answered_once : ∃ frame,
    sentFrames (netHandlePacket default knownGateway pingRequest 43) = [frame] ∧ frame.length = 60 := by
  have known : (arpLookup knownGateway (nextHop knownGateway (source pingRequest))).isSome := by
    decide +kernel
  obtain ⟨entry,cached⟩ := Option.isSome_iff_exists.mp known
  have card : knownGateway.activeNic ≠ .none := by decide +kernel
  have request : Answered pingRequest 43 := ⟨⟨by decide,by decide,by decide,by decide⟩,by decide,by decide⟩
  obtain ⟨-,frame,sent,length,-⟩ :=
    echo_answered default knownGateway pingRequest 43 card request (by decide) entry cached
  exact ⟨frame,sent,length⟩

end NimrodOS.Net
