import NimrodOS.Lib.Logged
import NimrodOS.Lib.Wire
import NimrodOS.Libc

/-! The network stack, `net/net.c` and `net/net.h`. A received packet is what memory
holds from its first byte on, and pointers into it are offsets. The log keeps the parts
of a packet that are handed down, the writes into the send buffers and the frames that
go to the card. The lines that are logged for the user are left out. -/
namespace NimrodOS.Net

open Wire Libc Logged

/-! Byte order. -/

def htons (v : Half) : Half := v >>> 8 ||| v <<< 8

def ntohs (v : Half) : Half := htons v

def htonl (v : Word) : Word :=
  ((v >>> 24) &&& (0xFF : Word)) ||| ((v >>> 8) &&& (0xFF00 : Word)) |||
    ((v <<< 8) &&& (0xFF0000 : Word)) ||| ((v <<< 24) &&& (0xFF000000 : Word))

def ntohl (v : Word) : Word := htonl v

/-! Headers, with the fields as they stand in memory. -/

abbrev Mac := Vector Byte 6

def readMac (data : Nat → Byte) (i : Nat) : Mac := .ofFn fun k => data (i + k)

structure EthHeader where
  dst : Mac
  src : Mac
  type : Half

def EthHeader.bytes (h : EthHeader) : List Byte := h.dst.toList ++ h.src.toList ++ bytes16 h.type

def EthHeader.read (data : Nat → Byte) (i : Nat) : EthHeader :=
  ⟨readMac data i,readMac data (i + 6),load16 data (i + 12)⟩

structure ArpPacket where
  hwType : Half
  protoType : Half
  hwLen : Byte
  protoLen : Byte
  opcode : Half
  senderMac : Mac
  senderIp : Word
  targetMac : Mac
  targetIp : Word

def ArpPacket.bytes (p : ArpPacket) : List Byte :=
  bytes16 p.hwType ++ bytes16 p.protoType ++ [p.hwLen,p.protoLen] ++ bytes16 p.opcode ++
    p.senderMac.toList ++ bytes32 p.senderIp ++ p.targetMac.toList ++ bytes32 p.targetIp

def ArpPacket.read (data : Nat → Byte) (i : Nat) : ArpPacket where
  hwType := load16 data i
  protoType := load16 data (i + 2)
  hwLen := data (i + 4)
  protoLen := data (i + 5)
  opcode := load16 data (i + 6)
  senderMac := readMac data (i + 8)
  senderIp := load32 data (i + 14)
  targetMac := readMac data (i + 18)
  targetIp := load32 data (i + 24)

structure IpHeader where
  verIhl : Byte
  tos : Byte
  totalLen : Half
  id : Half
  flagsFrag : Half
  ttl : Byte
  protocol : Byte
  checksum : Half
  srcIp : Word
  dstIp : Word

def IpHeader.bytes (h : IpHeader) : List Byte :=
  [h.verIhl,h.tos] ++ bytes16 h.totalLen ++ bytes16 h.id ++ bytes16 h.flagsFrag ++
    [h.ttl,h.protocol] ++ bytes16 h.checksum ++ bytes32 h.srcIp ++ bytes32 h.dstIp

def IpHeader.read (data : Nat → Byte) (i : Nat) : IpHeader where
  verIhl := data i
  tos := data (i + 1)
  totalLen := load16 data (i + 2)
  id := load16 data (i + 4)
  flagsFrag := load16 data (i + 6)
  ttl := data (i + 8)
  protocol := data (i + 9)
  checksum := load16 data (i + 10)
  srcIp := load32 data (i + 12)
  dstIp := load32 data (i + 16)

structure IcmpHeader where
  type : Byte
  code : Byte
  checksum : Half
  id : Half
  sequence : Half

def IcmpHeader.bytes (h : IcmpHeader) : List Byte :=
  [h.type,h.code] ++ bytes16 h.checksum ++ bytes16 h.id ++ bytes16 h.sequence

def IcmpHeader.read (data : Nat → Byte) (i : Nat) : IcmpHeader :=
  ⟨data i,data (i + 1),load16 data (i + 2),load16 data (i + 4),load16 data (i + 6)⟩

structure UdpHeader where
  srcPort : Half
  dstPort : Half
  length : Half
  checksum : Half

def UdpHeader.bytes (h : UdpHeader) : List Byte :=
  bytes16 h.srcPort ++ bytes16 h.dstPort ++ bytes16 h.length ++ bytes16 h.checksum

def UdpHeader.read (data : Nat → Byte) (i : Nat) : UdpHeader :=
  ⟨load16 data i,load16 data (i + 2),load16 data (i + 4),load16 data (i + 6)⟩

structure DnsHeader where
  id : Half
  flags : Half
  qdcount : Half
  ancount : Half
  nscount : Half
  arcount : Half

def DnsHeader.read (data : Nat → Byte) (i : Nat) : DnsHeader :=
  ⟨load16 data i,load16 data (i + 2),load16 data (i + 4),load16 data (i + 6),
    load16 data (i + 8),load16 data (i + 10)⟩

/-! The state of `net.c`. -/

inductive Nic where
  | none
  | rtl8139
  | e1000
  deriving DecidableEq, Repr

structure ArpEntry where
  ip : Word
  mac : Mac
  valid : Byte

structure PingState where
  targetIp : Word
  id : Half
  seq : Half
  sendTick : Word
  gotReply : Byte
  rttTicks : Word

/-- The arrays that outgoing packets are put together in. -/
inductive Buffer where
  | udpPkt
  | reply
  | ipPkt
  | pktBuf
  deriving DecidableEq, Repr

def Buffer.size : Buffer → Nat
  | .udpPkt => 1472
  | .reply => 1500
  | .ipPkt => 1500
  | .pktBuf => 1536

abbrev Buffer.Contents (b : Buffer) := Fin b.size → Byte

structure State where
  activeNic : Nic
  ourMac : Mac
  ourIp : Word
  arpCache : Fin 16 → ArpEntry
  pingState : PingState
  dnsResultIp : Word
  dnsGotReply : Byte
  dnsQueryId : Half
  ipIdCounter : Half
  pktBuf : Buffer.pktBuf.Contents

/-- After `net_init` has found a card and read its address. -/
def netInit (nic : Nic) (mac : Mac) : State where
  activeNic := nic
  ourMac := mac
  ourIp := 0x0A00020F
  arpCache := fun _ => ⟨0,Vector.replicate 6 0,0⟩
  pingState := ⟨0,0,0,0,0,0⟩
  dnsResultIp := 0
  dnsGotReply := 0
  dnsQueryId := 0
  ipIdCounter := 1
  pktBuf := fun _ => 0

/-- What one round of a waiting loop finds: the time, the key and the state as the
interrupt handlers have left it. -/
structure Poll where
  ticks : Word
  ctrlC : Bool
  state : State

structure Wait where
  start : Word
  polls : List Poll
  deriving Inhabited

/-- The rest of the kernel: the time at which a packet is handled, what the attempts to
resolve an address find, and what the driver returns for a frame. -/
structure Env where
  ticks : Word
  waits : Fin 3 → Wait
  nicSend : Nic → List Byte → Int
  deriving Inhabited

inductive Handler where
  | arp
  | icmp
  | udp
  | dns
  deriving DecidableEq, Repr

/-- A pointer and a length that are handed down. The last field is the length without
the bounds of `uint16_t`. -/
structure View where
  handler : Handler
  offset : Nat
  length : Half
  exact : Int
  deriving DecidableEq

inductive Event where
  | view (v : View)
  | write (b : Buffer) (offset size : Nat)
  | sent (frame : List Byte)

/-- Why a call does not return. -/
inductive Halt where
  | fault (reason : Fault)
  | waiting

abbrev Logs := Logged Event Halt

/-! Checksums. -/

def sumLoop (data : Nat → Byte) : Nat → Nat → Word → Word
  | ptr, len + 2, sum => sumLoop data (ptr + 2) len (sum + (load16 data ptr).setWidth 32)
  | ptr, 1, sum => sum + (data ptr).setWidth 32
  | _, 0, sum => sum

/-- One round of adding the carry back in. -/
def addCarry (sum : Word) : Word := (sum &&& (0xFFFF : Word)) + (sum >>> 16)

theorem addCarry_toNat (sum : Word) :
    (addCarry sum).toNat = sum.toNat % 2^16 + sum.toNat / 2^16 := by
  have bound := sum.isLt
  have low : (sum &&& (0xFFFF : Word)).toNat = sum.toNat % 2^16 := by
    rw [BitVec.toNat_and]
    exact Nat.and_two_pow_sub_one_eq_mod sum.toNat 16
  rw [addCarry,BitVec.toNat_add,low,BitVec.toNat_ushiftRight,Nat.shiftRight_eq_div_pow]
  omega

theorem carries_iff (sum : Word) : sum >>> 16 ≠ 0 ↔ 2^16 ≤ sum.toNat := by
  have zero : (0 : Word).toNat = 0 := rfl
  rw [Ne,← BitVec.toNat_inj,BitVec.toNat_ushiftRight,Nat.shiftRight_eq_div_pow,zero]
  omega

def foldLoop (sum : Word) : Word := if sum >>> 16 ≠ 0 then foldLoop (addCarry sum) else sum
termination_by sum.toNat
decreasing_by
  have high := (carries_iff sum).mp ‹_›
  rw [addCarry_toNat]
  omega

def checksum (data : Nat → Byte) (ptr : Nat) (len : Half) : Half :=
  ~~~(foldLoop (sumLoop data ptr len.toNat 0)).setWidth 16

/-! The ARP cache. -/

@[irreducible] def arpSlot (s : State) (ip : Word) : Option (Fin 16) :=
  Fin.find? fun i => (s.arpCache i).valid ≠ 0 ∧ (s.arpCache i).ip = ip

@[irreducible] def arpFreeSlot (s : State) : Option (Fin 16) :=
  Fin.find? fun i => (s.arpCache i).valid = 0

def arpLookup (s : State) (ip : Word) : Option ArpEntry := (arpSlot s ip).map s.arpCache

def State.setArp (s : State) (i : Fin 16) (entry : ArpEntry) : State :=
  {s with arpCache := fun j => if j = i then entry else s.arpCache j}

/-- A full cache loses its first entry. -/
def arpUpdate (s : State) (ip : Word) (mac : Mac) : State :=
  match arpSlot s ip with
  | some i => s.setArp i {s.arpCache i with mac := mac}
  | none =>
    match arpFreeSlot s with
    | some i => s.setArp i ⟨ip,mac,1⟩
    | none => s.setArp 0 ⟨ip,mac,1⟩

/-! Sending. -/

/-- A copy into a buffer. -/
def put (b : Buffer) (contents : b.Contents) (offset : Nat) (src : Nat → Byte) (size : Nat) :
    Logs b.Contents := do
  note (.write b offset size)
  lift ((memcpy contents offset src size).mapError .fault)

def putBytes (b : Buffer) (contents : b.Contents) (offset : Nat) (bytes : List Byte) :
    Logs b.Contents := put b contents offset (fun i => bytes.getD i 0) bytes.length

/-- A buffer as the source of a copy. No more is read of it than was written before. -/
def reading {b : Buffer} (contents : b.Contents) : Nat → Byte :=
  fun i => if inside : i < b.size then contents ⟨i,inside⟩ else 0

/-- Pad to the minimum of 60 bytes. -/
def padFrame (pktBuf : Buffer.pktBuf.Contents) (total : Half) :
    Logs (Buffer.pktBuf.Contents × Half) := do
  if total < 60 then
    let pktBuf ← put .pktBuf pktBuf total.toNat (fun _ => 0) (60 - total.toNat)
    return (pktBuf,60)
  else return (pktBuf,total)

def handToNic (env : Env) (s : State) (total : Half) : Logs (State × Int) := do
  if s.activeNic = .none then return (s,-1)
  else
    let frame := bytesFrom (reading s.pktBuf) 0 total.toNat
    note (.sent frame)
    return (s,env.nicSend s.activeNic frame)

def ethSend (env : Env) (s : State) (dstMac : Mac) (type : Half) (payload : Nat → Byte)
    (len : Half) : Logs (State × Int) := do
  if 14 + len.toNat > Buffer.pktBuf.size then return (s,-1)
  else
    let eth : EthHeader := ⟨dstMac,s.ourMac,htons type⟩
    let pktBuf ← putBytes .pktBuf s.pktBuf 0 eth.bytes
    let pktBuf ← put .pktBuf pktBuf 14 payload len.toNat
    let padded ← padFrame pktBuf (14 + len)
    handToNic env {s with pktBuf := padded.1} padded.2

def etherTypeArp : Half := 0x0806
def etherTypeIp : Half := 0x0800

def broadcast : Mac := Vector.replicate 6 0xFF

def ownArp (s : State) (opcode : Half) (targetMac : Mac) (targetIp : Word) : ArpPacket where
  hwType := htons 1
  protoType := htons etherTypeIp
  hwLen := 6
  protoLen := 4
  opcode := htons opcode
  senderMac := s.ourMac
  senderIp := htonl s.ourIp
  targetMac := targetMac
  targetIp := htonl targetIp

def arpSendRequest (env : Env) (s : State) (targetIp : Word) : Logs State := do
  let arp := ownArp s 1 (Vector.replicate 6 0) targetIp
  let sent ← ethSend env s broadcast etherTypeArp (fun i => arp.bytes.getD i 0) 28
  return sent.1

def arpSendReply (env : Env) (s : State) (targetIp : Word) (targetMac : Mac) : Logs State := do
  let arp := ownArp s 2 targetMac targetIp
  let sent ← ethSend env s targetMac etherTypeArp (fun i => arp.bytes.getD i 0) 28
  return sent.1

/-- How the waiting for one request ends. -/
inductive Waited where
  | cancelled
  | found (mac : Mac)
  | timedOut

/-- The rounds of one attempt; without another interrupt the wait does not end. -/
def waitLoop (start ip : Word) : List Poll → Logs (State × Waited)
  | [] => fail .waiting
  | p :: polls =>
    if p.ticks - start < 100 then
      if p.ctrlC then pure (p.state,.cancelled)
      else
        match arpLookup p.state ip with
        | some entry => pure (p.state,.found entry.mac)
        | none => waitLoop start ip polls
    else pure (p.state,.timedOut)

def resolveLoop (env : Env) (ip : Word) : List (Fin 3) → State → Logs (State × Option Mac)
  | [], s => pure (s,none)
  | attempt :: attempts, s => do
    let _ ← arpSendRequest env s ip
    let waited ← waitLoop (env.waits attempt).start ip (env.waits attempt).polls
    match waited.2 with
    | .cancelled => return (waited.1,none)
    | .found mac => return (waited.1,some mac)
    | .timedOut => resolveLoop env ip attempts waited.1

def subnetMask : Word := 0xFFFFFF00
def gateway : Word := 0x0A000202

/-- Foreign networks are reached through the gateway. -/
def nextHop (s : State) (ip : Word) : Word :=
  if ip &&& subnetMask ≠ s.ourIp &&& subnetMask then gateway else ip

def arpResolve (env : Env) (s : State) (ip : Word) : Logs (State × Option Mac) :=
  match arpLookup s (nextHop s ip) with
  | some entry => pure (s,some entry.mac)
  | none => resolveLoop env (nextHop s ip) (List.finRange 3) s

/-- The header of an outgoing packet before its checksum is filled in. -/
def ipHeader (s : State) (dstIp : Word) (protocol : Byte) (payloadLen : Half) : IpHeader where
  verIhl := 0x45
  tos := 0
  totalLen := htons (20 + payloadLen)
  id := htons s.ipIdCounter
  flagsFrag := 0
  ttl := 64
  protocol := protocol
  checksum := 0
  srcIp := htonl s.ourIp
  dstIp := htonl dstIp

def withChecksum (ip : IpHeader) : IpHeader :=
  {ip with checksum := checksum (fun i => ip.bytes.getD i 0) 0 20}

def ipSend (env : Env) (s : State) (dstIp : Word) (protocol : Byte) (payload : Nat → Byte)
    (payloadLen : Half) : Logs (State × Int) := do
  let ip := withChecksum (ipHeader s dstIp protocol payloadLen)
  let s := {s with ipIdCounter := s.ipIdCounter + 1}
  let ipPkt ← putBytes .ipPkt (fun _ => 0) 0 ip.bytes
  let ipPkt ← put .ipPkt ipPkt 20 payload payloadLen.toNat
  let resolved ← arpResolve env s dstIp
  match resolved.2 with
  | none => return (resolved.1,-1)
  | some dstMac => ethSend env resolved.1 dstMac etherTypeIp (reading ipPkt) (20 + payloadLen)

def protoIcmp : Byte := 1
def protoUdp : Byte := 17

def netSendUdp (env : Env) (s : State) (dstIp : Word) (srcPort dstPort : Half)
    (data : Nat → Byte) (len : Half) : Logs (State × Int) := do
  let udp : UdpHeader := ⟨htons srcPort,htons dstPort,htons (8 + len),0⟩
  let udpPkt ← putBytes .udpPkt (fun _ => 0) 0 udp.bytes
  let udpPkt ← put .udpPkt udpPkt 8 data len.toNat
  ipSend env s dstIp protoUdp (reading udpPkt) (8 + len)

/-! Receiving. -/

def handleArp (env : Env) (s : State) (data : Nat → Byte) (packet : Nat) : Logs State := do
  let arp := ArpPacket.read data packet
  if ntohs arp.hwType ≠ 1 then return s
  else if ntohs arp.protoType ≠ etherTypeIp then return s
  else
    let s := arpUpdate s (ntohl arp.senderIp) arp.senderMac
    if ntohs arp.opcode = 1 ∧ ntohl arp.targetIp = s.ourIp then
      arpSendReply env s (ntohl arp.senderIp) arp.senderMac
    else return s

def echoData (reply : Buffer.reply.Contents) (data : Nat → Byte) (payload : Nat) (len : Half) :
    Logs Buffer.reply.Contents :=
  if 8 < len.toNat then put .reply reply 8 (fun i => data (payload + 8 + i)) (len.toNat - 8)
  else pure reply

/-- The answer to an echo request: the header, the data and then the checksum. -/
def echoReply (data : Nat → Byte) (payload : Nat) (len : Half) : Logs Buffer.reply.Contents := do
  let icmp := IcmpHeader.read data payload
  let ricmp : IcmpHeader := ⟨0,0,0,icmp.id,icmp.sequence⟩
  let reply ← putBytes .reply (fun _ => 0) 0 ricmp.bytes
  let reply ← echoData reply data payload len
  putBytes .reply reply 2 (bytes16 (checksum (reading reply) 0 len))

def echoRequest : Byte := 8

def handleIcmp (env : Env) (s : State) (data : Nat → Byte) (ip : IpHeader) (payload : Nat)
    (len : Half) : Logs State := do
  if len.toNat < 8 then return s
  else
    let icmp := IcmpHeader.read data payload
    if icmp.type = echoRequest then
      let reply ← echoReply data payload len
      let sent ← ipSend env s (ntohl ip.srcIp) protoIcmp (reading reply) len
      return sent.1
    else if icmp.type = 0 ∧ ntohs icmp.id = s.pingState.id ∧
        ntohs icmp.sequence = s.pingState.seq then
      return {s with pingState := {s.pingState with
        gotReply := 1,rttTicks := env.ticks - s.pingState.sendTick}}
    else return s

/-- The `while` loop over the question's name and what follows it up to the answers. As
many rounds as bytes are left are enough. -/
def skipQuestion (data : Nat → Byte) (stop : Nat) : Nat → Nat → Nat
  | 0, ptr => ptr + 1 + 4
  | fuel + 1, ptr =>
    if ptr < stop ∧ data ptr ≠ 0 then
      if data ptr &&& 0xC0 = 0xC0 then ptr + 2
      else skipQuestion data stop fuel (ptr + 1 + (data ptr).toNat)
    else ptr + 1 + 4

/-- The `while` loop over the name of an answer. -/
def skipLabels (data : Nat → Byte) (stop : Nat) : Nat → Nat → Nat
  | 0, ptr => ptr + 1
  | fuel + 1, ptr =>
    if ptr < stop ∧ data ptr ≠ 0 then skipLabels data stop fuel (ptr + 1 + (data ptr).toNat)
    else ptr + 1

def skipName (data : Nat → Byte) (stop ptr : Nat) : Nat :=
  if data ptr &&& 0xC0 = 0xC0 then ptr + 2 else skipLabels data stop (stop - ptr) ptr

/-- The address in the answers, where one is found. -/
def answerLoop (data : Nat → Byte) (stop : Nat) : Nat → Nat → Option Word
  | 0, _ => none
  | answers + 1, ptr =>
    if ptr + 12 ≤ stop then
      let ptr := skipName data stop ptr
      if ptr + 10 > stop then none
      else
        let rtype := big16 data ptr
        let rdlength := big16 data (ptr + 8)
        let ptr := ptr + 10
        if rtype = 1 ∧ rdlength = 4 ∧ ptr + 4 ≤ stop then some (big32 data ptr)
        else answerLoop data stop answers (ptr + rdlength.toNat)
    else none

/-- What `handle_udp` does with the DNS message at an offset. -/
def dnsReply (s : State) (data : Nat → Byte) (message len : Nat) : State :=
  let dns := DnsHeader.read data message
  if ntohs dns.id = s.dnsQueryId ∧ ntohs dns.flags &&& 0x8000 ≠ 0 ∧ ntohs dns.ancount > 0 then
    let stop := message + len
    let answers := skipQuestion data stop (stop - (message + 12)) (message + 12)
    match answerLoop data stop (ntohs dns.ancount).toNat answers with
    | some ip => {s with dnsResultIp := ip,dnsGotReply := 1}
    | none => s
  else s

def dnsPort : Half := 53

def handleUdp (s : State) (data : Nat → Byte) (payload : Nat) (len : Half) : Logs State := do
  if len.toNat < 8 then return s
  else
    let udp := UdpHeader.read data payload
    let dataLen := ntohs udp.length - 8
    if ntohs udp.srcPort = dnsPort ∧ dataLen.toNat ≥ 12 then
      note (.view ⟨.dns,payload + 8,dataLen,(ntohs udp.length).toNat - 8⟩)
      return dnsReply s data (payload + 8) dataLen.toNat
    else return s

def handleIp (env : Env) (s : State) (data : Nat → Byte) (packet : Nat) (len : Half) :
    Logs State := do
  if len.toNat < 20 then return s
  else
    let ip := IpHeader.read data packet
    let ihl : Byte := (ip.verIhl &&& 0x0F) * 4
    let totalLen := ntohs ip.totalLen
    if totalLen > len then return s
    else
      let payload := packet + ihl.toNat
      let payloadLen := totalLen - ihl.setWidth 16
      if ip.protocol = protoIcmp then
        note (.view ⟨.icmp,payload,payloadLen,totalLen.toNat - ihl.toNat⟩)
        handleIcmp env s data ip payload payloadLen
      else if ip.protocol = protoUdp then
        note (.view ⟨.udp,payload,payloadLen,totalLen.toNat - ihl.toNat⟩)
        handleUdp s data payload payloadLen
      else return s

def netHandlePacket (env : Env) (s : State) (data : Nat → Byte) (len : Half) : Logs State := do
  if len.toNat < 14 then return s
  else
    let type := ntohs (EthHeader.read data 0).type
    let payloadLen := len - 14
    if type = etherTypeArp then
      note (.view ⟨.arp,14,28,28⟩)
      handleArp env s data 14
    else if type = etherTypeIp then handleIp env s data 14 payloadLen
    else return s

/-! Queries for a name. -/

/-- The labels of a name, each behind its length; the first argument is what the loop has
copied of the current one. -/
def qname (label : List Byte) : List Byte → List Byte
  | [] => BitVec.ofNat 8 label.length :: label
  | c :: src =>
    if c = 46 then
      BitVec.ofNat 8 label.length :: label ++ if src.isEmpty then [] else qname [] src
    else qname (label ++ [c]) src

def dnsQuery (id : Half) (hostname : List Byte) : List Byte :=
  bytes16 (htons id) ++ bytes16 (htons 0x0100) ++ bytes16 (htons 1) ++ List.replicate 6 0 ++
    (if hostname.isEmpty then [] else qname [] hostname) ++ [0,0,1,0,1]

/-- What `net_dns_resolve` sets before it sends its query. -/
def State.startQuery (s : State) (ticks : Word) : State :=
  {s with dnsQueryId := ticks.setWidth 16,dnsGotReply := 0,dnsResultIp := 0}

def netDns : Word := 0x0A000203

/-! Pings. -/

/-- An echo request with its 56 bytes of data. -/
def icmpPkt (id seq : Half) : List Byte :=
  let icmp : IcmpHeader := ⟨echoRequest,0,0,htons id,htons seq⟩
  let data := (List.range 56).map (BitVec.ofNat 8)
  let sum := checksum (fun i => (icmp.bytes ++ data).getD i 0) 0 64
  {icmp with checksum := sum}.bytes ++ data

/-- What `net_send_icmp_echo` sets in `ping_state`. -/
def State.startPing (s : State) (dstIp : Word) (id seq : Half) (ticks : Word) : State :=
  {s with pingState := {s.pingState with
    targetIp := dstIp,id := id,seq := seq,gotReply := 0,sendTick := ticks}}

def netSendIcmpEcho (env : Env) (s : State) (dstIp : Word) (id seq : Half) : Logs (State × Int) :=
  ipSend env (s.startPing dstIp id seq env.ticks) dstIp protoIcmp
    (fun i => (icmpPkt id seq).getD i 0) 64

end NimrodOS.Net
