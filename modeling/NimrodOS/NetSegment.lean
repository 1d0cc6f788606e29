import NimrodOS.Lib.Medium
import NimrodOS.NetCache
import NimrodOS.NetEcho

/-! Address resolution on a segment with any number of machines that run this stack, and
with others. Each machine's handlers, requests and packets are steps of their own; what is
sent may be lost, repeated, delayed and reordered. `eth_send` is one step with the rest of its
caller, though `ip_send` waits with the interrupts on: that a handler builds a frame of its own in
`pkt_buf` meanwhile is left out. -/
namespace NimrodOS.Net

open Wire Logged Transition Medium

variable {env : Env} {s t : State} {data payload : Nat → Byte} {len : Half} {ip : Word} {mac : Mac}
  {frame : List Byte}

/-! ARP packets in frames. -/

theorem arp_length (p : ArpPacket) : p.bytes.length = 28 := by
  simp [ArpPacket.bytes,bytes16,bytes32]

theorem ArpPacket.read_at {p : ArpPacket} {i : Nat} (stands : At data i p.bytes) :
    ArpPacket.read data i = p := by
  simp only [ArpPacket.bytes,at_append,at_cons,List.length_append,List.length_cons,List.length_nil,
    Vector.length_toList,bytes16_length,bytes32_length,at_nil,and_true,Nat.reduceAdd,
    Nat.add_assoc] at stands
  obtain ⟨⟨⟨⟨⟨⟨⟨hwType,protoType⟩,hwLen,protoLen⟩,opcode⟩,senderMac⟩,senderIp⟩,targetMac⟩,targetIp⟩ :=
    stands
  rw [ArpPacket.read,load16_at hwType,load16_at protoType,hwLen,protoLen,load16_at opcode,
    readMac_at senderMac,load32_at senderIp,readMac_at targetMac,load32_at targetIp]

theorem ntohl_htonl (v : Word) : ntohl (htonl v) = v := htonl_ntohl v

/-- A whole frame with the header, as every card that hears it reads it. -/
structure Heads (frame : List Byte) (dst src : Mac) (type : Half) : Prop where
  least : 60 ≤ frame.length
  most : frame.length ≤ 1536
  header : ∀ data, At data 0 frame → EthHeader.read data 0 = ⟨dst,src,htons type⟩

structure HoldsArp (frame : List Byte) (dst src : Mac) (p : ArpPacket) : Prop
    extends Heads frame dst src etherTypeArp where
  packet : ∀ data, At data 0 frame → arpPacket data = p

theorem Heads.etherType {dst src : Mac} {type : Half} (heads : Heads frame dst src type)
    (received : At data 0 frame) : etherType data = type := by
  rw [Net.etherType,heads.header data received]
  exact ntohs_htons type

/-! The frames that go out. -/

/-- A property of the frames that are handed to the card. -/
def Event.Sends (q : List Byte → Prop) : Event → Prop
  | .sent frame => q frame
  | _ => True

section

variable {q : List Byte → Prop} {α : Type} {x : Logs α}

theorem all_sends : x.All (Event.Sends q) ↔ ∀ frame ∈ sentFrames x, q frame := by
  simp only [All,sentFrames,List.mem_filterMap]
  constructor
  · rintro each frame ⟨event,member,here⟩
    cases event with
    | sent other =>
      obtain rfl := Option.some.inj here
      exact each _ member
    | view v | write b offset size => cases here
  · intro each event member
    cases event with
    | sent frame => exact each frame ⟨_,member,rfl⟩
    | view v | write b offset size => trivial

@[simp] theorem put_sends {b : Buffer} {contents : b.Contents} {offset size : Nat} :
    (put b contents offset payload size).All (Event.Sends q) := by
  rw [all_put]
  trivial

@[simp] theorem putBytes_sends {b : Buffer} {contents : b.Contents} {offset : Nat}
    {bytes : List Byte} : (putBytes b contents offset bytes).All (Event.Sends q) := put_sends

theorem ethSend_sends {dst : Mac} {type : Half}
    (each : ∀ pkt, Framed pkt ⟨dst,s.ourMac,htons type⟩ payload len.toNat →
      14 + len.toNat ≤ 1536 → q (bytesFrom pkt 0 (max 60 (14 + len.toNat)))) :
    (ethSend env s dst type payload len).All (Event.Sends q) := by
  by_cases fits : 14 + len.toNat ≤ 1536
  · obtain ⟨pkt,sent,framed⟩ := @ethSend_frames env s payload len dst type fits
    rw [all_sends,sent]
    split_ifs
    · simp
    · simpa using each pkt framed fits
  · have large : 14 + len.toNat > Buffer.pktBuf.size := Nat.lt_of_not_le fits
    rw [ethSend,if_pos large]
    exact all_pure _

end

theorem heads_bytesFrom {pkt : Nat → Byte} {dst src : Mac} {type : Half} {n : Nat}
    (framed : Framed pkt ⟨dst,src,htons type⟩ payload n) (fits : 14 + n ≤ 1536) :
    Heads (bytesFrom pkt 0 (max 60 (14 + n))) dst src type := by
  constructor
  · rw [bytesFrom_length]
    omega
  · rw [bytesFrom_length]
    omega
  · intro data received
    exact EthHeader.read_at (received.copied_front framed.header (by rw [eth_length]; omega))

theorem ethSend_heads {dst : Mac} {type : Half} : (ethSend env s dst type payload len).All
    (Event.Sends fun frame => Heads frame dst s.ourMac type) :=
  ethSend_sends fun _ framed fits => heads_bytesFrom framed fits

theorem ethSend_arp {dst : Mac} (p : ArpPacket) :
    (ethSend env s dst etherTypeArp (fun i => p.bytes.getD i 0) 28).All
      (Event.Sends fun frame => HoldsArp frame dst s.ourMac p) := by
  refine ethSend_sends fun pkt framed fits => ⟨heads_bytesFrom framed fits,fun data received => ?_⟩
  have twentyEight : (28 : Half).toNat = 28 := rfl
  have body := framed.body
  have plain : At (fun i => p.bytes.getD i 0) 0 p.bytes := at_getD
  have length := arp_length p
  have stands : At pkt (14 + 0) p.bytes := by
    apply body.copied
    · exact plain
    · omega
  exact ArpPacket.read_at (received.copied_front stands (by omega))

theorem arpSendRequest_arp : (arpSendRequest env s ip).All
    (Event.Sends fun frame => HoldsArp frame broadcast s.ourMac (ownArp s 1 (Vector.replicate 6 0) ip)) :=
  (ethSend_arp _).bind fun _ _ => all_pure _

theorem arpSendReply_arp : (arpSendReply env s ip mac).All
    (Event.Sends fun frame => HoldsArp frame mac s.ourMac (ownArp s 2 mac ip)) :=
  (ethSend_arp _).bind fun _ _ => all_pure _

/-! What a machine knows. -/

structure Station where
  nic : Nic
  mac : Mac
  ip : Word

def Station.boot (a : Station) : State := {netInit a.nic a.mac with ourIp := a.ip}

/-- `binding` told which address belongs to which card. -/
structure Knows (binding : Word → Mac → Prop) (a : Station) (s : State) : Prop where
  ip : s.ourIp = a.ip
  mac : s.ourMac = a.mac
  nic : s.activeNic = a.nic
  cached : ∀ i, (s.arpCache i).valid ≠ 0 → binding (s.arpCache i).ip (s.arpCache i).mac

/-- The request for an address, as the station sends it. -/
def Asks (a : Station) (ip : Word) (frame : List Byte) : Prop :=
  HoldsArp frame broadcast a.mac (ownArp a.boot 1 (Vector.replicate 6 0) ip)

/-- A packet for the station that has the address. -/
def Addressed (binding : Word → Mac → Prop) (a : Station) (ip : Word) (frame : List Byte) : Prop :=
  ∃ mac, binding ip mac ∧ Heads frame mac a.mac etherTypeIp

section

variable {binding : Word → Mac → Prop} {a : Station}

theorem Knows.own (knows : Knows binding a s) (opcode : Half) (mac : Mac) (ip : Word) :
    ownArp s opcode mac ip = ownArp a.boot opcode mac ip := by
  rw [ownArp,ownArp,knows.ip,knows.mac]
  rfl

theorem Knows.hop (knows : Knows binding a s) (ip : Word) : nextHop s ip = nextHop a.boot ip := by
  rw [nextHop,nextHop,knows.ip]
  rfl

theorem Knows.lookup (knows : Knows binding a s) {entry : ArpEntry}
    (found : arpLookup s ip = some entry) : binding ip entry.mac := by
  obtain ⟨i,slot,rfl⟩ := Option.map_eq_some_iff.mp found
  obtain ⟨valid,same⟩ := arpSlot_some slot
  rw [← same]
  exact knows.cached i valid

theorem boot_knows (binding : Word → Mac → Prop) (a : Station) : Knows binding a a.boot :=
  ⟨rfl,rfl,rfl,fun _ valid => absurd rfl valid⟩

theorem knows_stable : Stable (Knows binding a) :=
  fun _ _ _ knows => ⟨knows.ip,knows.mac,knows.nic,knows.cached⟩

theorem Knows.asks (knows : Knows binding a s) :
    (arpSendRequest env s ip).All (Event.Sends (Asks a ip)) := by
  have sends := @arpSendRequest_arp env s ip
  rwa [knows.own,knows.mac] at sends

theorem waitLoop_found {start : Word} {polls : List Poll} :
    (waitLoop start ip polls).Returns fun r => ∀ mac, r.2 = .found mac →
      ∃ entry, arpLookup r.1 ip = some entry ∧ entry.mac = mac := by
  induction polls with
  | nil => simp [waitLoop]
  | cons poll polls ih =>
    rw [waitLoop]
    split_ifs
    · simp
    · cases known : arpLookup poll.state ip with
      | none => exact ih
      | some entry => simpa using ⟨entry,known,rfl⟩
    · simp

theorem resolveLoop_asks {attempts : List (Fin 3)} (finds : env.Finds (Knows binding a))
    (knows : Knows binding a s) :
    (resolveLoop env ip attempts s).All (Event.Sends (Asks a ip)) := by
  induction attempts generalizing s with
  | nil => simp [resolveLoop]
  | cons attempt attempts ih =>
    rw [resolveLoop]
    apply knows.asks.bind
    intro _ _
    apply All.bind
    · simp [All,waitLoop_log]
    · rintro ⟨t,waited⟩ ran
      have found := waitLoop_keeps (finds attempt) _ ran
      cases waited with
      | cancelled => simp
      | found mac => simp
      | timedOut => exact ih found

/-- An address that was resolved is in the cache. -/
theorem resolveLoop_found {attempts : List (Fin 3)} :
    (resolveLoop env ip attempts s).Returns fun r => ∀ mac, r.2 = some mac →
      ∃ entry, arpLookup r.1 ip = some entry ∧ entry.mac = mac := by
  induction attempts generalizing s with
  | nil => simp [resolveLoop]
  | cons attempt attempts ih =>
    rw [resolveLoop]
    apply Returns.after
    intro _
    refine waitLoop_found.bind ?_
    rintro ⟨t,waited⟩ found
    cases waited with
    | cancelled => simp
    | found mac => simpa using found mac rfl
    | timedOut => exact ih

theorem arpResolve_asks {dst : Word} (finds : env.Finds (Knows binding a))
    (knows : Knows binding a s) :
    (arpResolve env s dst).All (Event.Sends (Asks a (nextHop a.boot dst))) := by
  rw [arpResolve,knows.hop]
  cases arpLookup s (nextHop a.boot dst) with
  | none => exact resolveLoop_asks finds knows
  | some entry => simp

theorem arpResolve_found {dst : Word} :
    (arpResolve env s dst).Returns fun r => ∀ mac, r.2 = some mac →
      ∃ entry, arpLookup r.1 (nextHop s dst) = some entry ∧ entry.mac = mac := by
  rw [arpResolve]
  cases known : arpLookup s (nextHop s dst) with
  | none => exact resolveLoop_found
  | some entry => simpa using ⟨entry,known,rfl⟩

/-- Requests for the next hop, and then the packet for the station that has it. -/
theorem Knows.ipSend (knows : Knows binding a s) {dst : Word} {protocol : Byte}
    (finds : env.Finds (Knows binding a)) :
    (ipSend env s dst protocol payload len).All (Event.Sends fun frame =>
      Asks a (nextHop a.boot dst) frame ∨ Addressed binding a (nextHop a.boot dst) frame) := by
  have counted : Knows binding a {s with ipIdCounter := s.ipIdCounter + 1} :=
    knows_stable s _ s.pktBuf knows
  rw [Net.ipSend]
  apply All.bind
  · exact putBytes_sends
  intro _ _
  apply All.bind
  · exact put_sends
  intro ipPkt _
  apply All.bind
  · rw [all_sends]
    exact fun frame sent => .inl (all_sends.mp (arpResolve_asks finds counted) frame sent)
  rintro ⟨t,resolved⟩ ran
  have after : Knows binding a t := arpResolve_keeps counted finds _ ran
  cases resolved with
  | none => simp
  | some mac =>
    obtain ⟨entry,cached,rfl⟩ := arpResolve_found _ ran mac rfl
    rw [counted.hop] at cached
    rw [all_sends]
    intro frame sent
    have heads := all_sends.mp ethSend_heads frame sent
    rw [after.mac] at heads
    exact .inr ⟨entry.mac,after.lookup cached,heads⟩

/-! What a machine makes of a frame. -/

/-- An ARP packet of Ethernet and IP names its sender as it is. -/
def Truthful (binding : Word → Mac → Prop) (p : ArpPacket) : Prop :=
  ntohs p.hwType = 1 → ntohs p.protoType = etherTypeIp → binding (ntohl p.senderIp) p.senderMac

/-- A frame of a length that Ethernet carries, truthful if it is an ARP packet. -/
structure TruthfulFrame (binding : Word → Mac → Prop) (frame : List Byte) : Prop where
  least : 60 ≤ frame.length
  most : frame.length ≤ 1536
  truthful : ∀ data, At data 0 frame → etherType data = etherTypeArp →
    Truthful binding (arpPacket data)

theorem HoldsArp.truthful {dst src : Mac} {opcode : Half} (own : binding a.ip a.mac)
    (holds : HoldsArp frame dst src (ownArp a.boot opcode mac ip)) : TruthfulFrame binding frame := by
  refine ⟨holds.least,holds.most,fun data received _ _ _ => ?_⟩
  rw [holds.packet data received]
  change binding (ntohl (htonl a.ip)) a.mac
  rwa [ntohl_htonl]

theorem Heads.truthful {dst src : Mac} (heads : Heads frame dst src etherTypeIp) :
    TruthfulFrame binding frame := by
  refine ⟨heads.least,heads.most,fun data received arp => ?_⟩
  rw [heads.etherType received] at arp
  exact absurd arp (by decide)

theorem Knows.update (knows : Knows binding a s) (bound : binding ip mac) :
    Knows binding a (arpUpdate s ip mac) := by
  have entered (i : Fin 16) (entry : ArpEntry) (here : binding entry.ip entry.mac) :
      Knows binding a (s.setArp i entry) := by
    refine ⟨knows.ip,knows.mac,knows.nic,fun j valid => ?_⟩
    by_cases same : j = i
    · simpa [State.setArp,same] using here
    · simp only [State.setArp,same,if_false] at valid ⊢
      exact knows.cached j valid
  rcases arpUpdate_cases s ip mac with ⟨i,-,same,made⟩ | ⟨i,-,-,made⟩ | ⟨-,made⟩
  · rw [made]
    exact entered i _ (by simpa [same] using bound)
  · rw [made]
    exact entered i _ bound
  · rw [made]
    exact entered 0 _ bound

theorem Knows.handleArp (knows : Knows binding a s) (own : binding a.ip a.mac)
    (truthful : Truthful binding (arpPacket data)) :
    (handleArp env s data 14).Returns (Knows binding a) ∧
      (handleArp env s data 14).All (Event.Sends (TruthfulFrame binding)) := by
  rw [Net.handleArp]
  dsimp only
  rw [← arpPacket]
  split_ifs with ether ipv4 request
  · simpa using knows
  · simpa using knows
  · have heard := knows.update (truthful (not_not.mp ether) (not_not.mp ipv4))
    refine ⟨arpSendReply_keeps knows_stable heard,?_⟩
    rw [all_sends]
    intro frame sent
    have holds := all_sends.mp arpSendReply_arp frame sent
    rw [heard.own] at holds
    exact holds.truthful own
  · have heard := knows.update (truthful (not_not.mp ether) (not_not.mp ipv4))
    simpa using heard

theorem echoReply_sends {q : List Byte → Prop} {start : Nat} :
    (echoReply data start len).All (Event.Sends q) :=
  echoReply_all trivial (fun _ => trivial) trivial

theorem Knows.handleIcmp (knows : Knows binding a s) (own : binding a.ip a.mac)
    (finds : env.Finds (Knows binding a)) (header : IpHeader) (start : Nat) :
    (handleIcmp env s data header start len).Returns (Knows binding a) ∧
      (handleIcmp env s data header start len).All (Event.Sends (TruthfulFrame binding)) := by
  rw [Net.handleIcmp]
  split_ifs with short
  · simpa using knows
  dsimp only
  split_ifs with request answered
  · constructor
    · apply Returns.after
      intro reply
      exact (ipSend_keeps knows_stable knows finds).bind fun _ after => (returns_pure _).mpr after
    · apply echoReply_sends.bind
      intro reply _
      apply All.bind
      · rw [all_sends]
        intro frame sent
        rcases all_sends.mp (knows.ipSend finds) frame sent with asks | ⟨mac,-,heads⟩
        · exact HoldsArp.truthful own asks
        · exact heads.truthful
      · simp
  · have kept : Knows binding a {s with pingState := {s.pingState with
        gotReply := 1,rttTicks := env.ticks - s.pingState.sendTick}} :=
      ⟨knows.ip,knows.mac,knows.nic,knows.cached⟩
    simpa using kept
  · simpa using knows

theorem Knows.handleUdp (knows : Knows binding a s) (start : Nat) :
    (handleUdp s data start len).Returns (Knows binding a) ∧
      (handleUdp s data start len).All (Event.Sends (TruthfulFrame binding)) := by
  rw [Net.handleUdp]
  split_ifs with short
  · simpa using knows
  dsimp only
  split_ifs with query
  · constructor
    · apply Returns.after
      intro _
      rw [returns_pure,dnsReply]
      dsimp only
      split_ifs
      · split
        · exact ⟨knows.ip,knows.mac,knows.nic,knows.cached⟩
        · exact knows
      · exact knows
    · simp [Event.Sends]
  · simpa using knows

/-- A machine that hears a truthful frame stays right about all addresses, and what it sends
then is truthful. -/
theorem Knows.hears (knows : Knows binding a s) (own : binding a.ip a.mac)
    (finds : env.Finds (Knows binding a)) (truthful : TruthfulFrame binding frame)
    (received : At data 0 frame) (len : Half) :
    (netHandlePacket env s data len).Returns (Knows binding a) ∧
      (netHandlePacket env s data len).All (Event.Sends (TruthfulFrame binding)) := by
  have viewed (v : View) {x : Logs State} (rest : x.Returns (Knows binding a) ∧
      x.All (Event.Sends (TruthfulFrame binding))) :
      (note (.view v) >>= fun _ => x).Returns (Knows binding a) ∧
        (note (.view v) >>= fun _ => x).All (Event.Sends (TruthfulFrame binding)) :=
    ⟨Returns.after fun _ => rest.1,(all_note_bind _ _).mpr ⟨trivial,rest.2⟩⟩
  rcases packet_cases env s data len with
    ⟨arp,handled⟩ | ⟨-,handled⟩ | ⟨-,handled⟩ | ⟨-,-,-,handled⟩
  · rw [handled]
    exact viewed _ (knows.handleArp own (truthful.truthful data received arp.2))
  · rw [handled]
    exact viewed _ (knows.handleIcmp own finds _ _)
  · rw [handled]
    exact viewed _ (knows.handleUdp _)
  · rw [handled]
    simpa using knows

end

/-! The segment. -/

/-- The same machine, and nothing new was heard. -/
structure SameHost (s t : State) : Prop where
  cache : t.arpCache = s.arpCache
  ip : t.ourIp = s.ourIp
  mac : t.ourMac = s.ourMac
  nic : t.activeNic = s.activeNic

/-- What a call hands back and what it has sent. One that does not return has sent its
frames all the same. -/
def Emits (s : State) (x : Logs State) (t : State) (out : List (List Byte)) : Prop :=
  out = sentFrames x ∧ (x.result = .ok t ∨ t = s ∧ ∃ halt, x.result = .error halt)

/-- The card hands a frame to the stack. Interrupts are off meanwhile, so a wait finds
nothing new. -/
def Reacts (s : State) (frame : List Byte) (t : State) (out : List (List Byte)) : Prop :=
  ∃ env data, At data 0 frame ∧ env.Finds (SameHost s) ∧
    Emits s (netHandlePacket env s data (BitVec.ofNat 16 frame.length)) t out

inductive Act where
  /-- A request of `arp_resolve`. -/
  | ask (ip : Word)
  /-- The end of `ip_send`, when the next hop is in the cache. -/
  | transmit (dst : Word) (packet : Nat → Byte) (len : Half)
  /-- What leaves the cache and the own addresses alone. -/
  | rest

def Acts (s : State) : Act → State → List (List Byte) → Prop
  | .ask ip, t, out => ∃ env, Emits s (arpSendRequest env s ip) t out
  | .transmit dst packet len, t, out => ∃ env entry,
    arpLookup s (nextHop s dst) = some entry ∧
      Emits s (Prod.fst <$> ethSend env s entry.mac etherTypeIp packet len) t out
  | .rest, t, out => SameHost s t ∧ out = []

/-- The machines, and others that send what they like as long as their ARP packets are true. -/
def segment (ι : Type) (binding : Word → Mac → Prop) : Protocol ι State (List Byte) Act where
  react _ := Reacts
  act _ := Acts
  foreign := TruthfulFrame binding

def powerOn {ι : Type} (stations : ι → Station) : Medium.System ι State (List Byte) :=
  ⟨fun i => (stations i).boot,∅⟩

section

variable {binding : Word → Mac → Prop} {a : Station} {out : List (List Byte)} {x : Logs State}

theorem SameHost.knows (same : SameHost s t) (knows : Knows binding a s) : Knows binding a t := by
  refine ⟨same.ip.trans knows.ip,same.mac.trans knows.mac,same.nic.trans knows.nic,?_⟩
  rw [same.cache]
  exact knows.cached

theorem Emits.safe (emits : Emits s x t out) (knows : Knows binding a s)
    (returns : x.Returns (Knows binding a)) (sends : x.All (Event.Sends (TruthfulFrame binding))) :
    Knows binding a t ∧ ∀ frame ∈ out, TruthfulFrame binding frame := by
  obtain ⟨rfl,ran | ⟨rfl,-⟩⟩ := emits
  · exact ⟨returns t ran,all_sends.mp sends⟩
  · exact ⟨knows,all_sends.mp sends⟩

variable {ι : Type} {stations : ι → Station}

theorem segment_local (own : ∀ i, binding (stations i).ip (stations i).mac) :
    Local (segment ι binding) (fun i => Knows binding (stations i)) (TruthfulFrame binding) := by
  constructor
  · rintro i s frame t out knows truthful ⟨env,data,received,alone,emits⟩
    have finds : env.Finds (Knows binding (stations i)) :=
      fun attempt poll found => (alone attempt poll found).knows knows
    obtain ⟨returns,sends⟩ := knows.hears (own i) finds truthful received _
    exact emits.safe knows returns sends
  · rintro i s act t out knows acts
    cases act with
    | ask ip =>
      obtain ⟨env,emits⟩ := acts
      refine emits.safe knows (arpSendRequest_keeps knows_stable knows) ?_
      rw [all_sends]
      exact fun frame sent => HoldsArp.truthful (own i) (all_sends.mp knows.asks frame sent)
    | transmit dst packet len =>
      obtain ⟨env,entry,-,emits⟩ := acts
      refine emits.safe knows ?_ ?_
      · exact (ethSend_keeps knows_stable knows).bind fun _ after => (returns_pure _).mpr after
      · apply All.bind
        · rw [all_sends]
          exact fun frame sent => (all_sends.mp ethSend_heads frame sent).truthful
        · exact fun _ _ => all_pure _
    | rest =>
      obtain ⟨same,rfl⟩ := acts
      exact ⟨same.knows knows,by simp⟩
  · exact fun frame truthful => truthful

variable [DecidableEq ι] {past : List (Medium.System ι State (List Byte) × Label ι (List Byte) Act)}
  {last : Medium.System ι State (List Byte)}

theorem segment_safe (own : ∀ i, binding (stations i).ip (stations i).mac)
    (run : Run (Step (segment ι binding)) (powerOn stations) past last) :
    Safe (fun i => Knows binding (stations i)) (TruthfulFrame binding) last :=
  (segment_local own).run ⟨fun i => boot_knows binding (stations i),fun _ member => absurd member (Set.notMem_empty _)⟩ run

/-- A state in which the machine may find itself after a wait. -/
def MayFind (binding : Word → Mac → Prop) (w : Medium.System ι State (List Byte)) (i : ι) (s : State) :
    Prop :=
  ∃ past w', Run (Step (segment ι binding)) w past w' ∧ w'.station i = s

/-- In every run all caches are right about all addresses, and a packet never goes to
another station than the one that has the address of its next hop. -/
theorem arp_coherent (binding : Word → Mac → Prop) (stations : ι → Station)
    (own : ∀ i, binding (stations i).ip (stations i).mac)
    (run : Run (Step (segment ι binding)) (powerOn stations) past last) (i : ι) :
    (∀ slot, ((last.station i).arpCache slot).valid ≠ 0 →
      binding ((last.station i).arpCache slot).ip ((last.station i).arpCache slot).mac) ∧
    (∀ ip entry, arpLookup (last.station i) ip = some entry → binding ip entry.mac) ∧
    ∀ env dst protocol payload len, env.Finds (MayFind binding last i) →
      ∀ frame ∈ sentFrames (ipSend env (last.station i) dst protocol payload len),
        Asks (stations i) (nextHop (last.station i) dst) frame ∨
        Addressed binding (stations i) (nextHop (last.station i) dst) frame := by
  have knows := (segment_safe own run).station i
  refine ⟨knows.cached,fun ip entry found => knows.lookup found,fun env dst protocol payload len waits => ?_⟩
  have finds : env.Finds (Knows binding (stations i)) := by
    intro attempt poll found
    obtain ⟨past',w,more,here⟩ := waits attempt poll found
    rw [← here]
    exact (segment_safe own (run.trans more)).station i
  rw [← all_sends,knows.hop]
  exact knows.ipSend finds

/-! Requests and replies. -/

/-- The machine knows the station's card. -/
def Learned (s : State) (a : Station) : Prop :=
  ∃ entry, arpLookup s a.ip = some entry ∧ entry.mac = a.mac

theorem arpSlot_least {i j : Fin 16} (found : arpSlot s ip = some i)
    (valid : (s.arpCache j).valid ≠ 0) (own : (s.arpCache j).ip = ip) : i ≤ j := by
  by_contra before
  unfold arpSlot at found
  have earlier := (Fin.find?_eq_some_iff.mp found).2 j (not_le.mp before)
  exact of_decide_eq_false earlier ⟨valid,own⟩

/-- What was announced last is found. -/
theorem arpLookup_update (s : State) (ip : Word) (mac : Mac) :
    ∃ entry, arpLookup (arpUpdate s ip mac) ip = some entry ∧ entry.mac = mac := by
  have one : (1 : Byte) ≠ 0 := by decide
  /- The first entry of the address is the one that was written. -/
  have found {i : Fin 16} {e : ArpEntry} (valid : e.valid ≠ 0) (own : e.ip = ip) (same : e.mac = mac)
      (first : ∀ j, (s.arpCache j).valid ≠ 0 → (s.arpCache j).ip = ip → i ≤ j) :
      ∃ entry, arpLookup (s.setArp i e) ip = some entry ∧ entry.mac = mac := by
    rw [arpLookup]
    cases slot : arpSlot (s.setArp i e) ip with
    | none =>
      refine absurd (⟨?_,?_⟩ : ((s.setArp i e).arpCache i).valid ≠ 0 ∧ _) (arpSlot_none slot i)
      · simpa [State.setArp] using valid
      · simpa [State.setArp] using own
    | some k =>
      obtain ⟨validK,ownK⟩ := arpSlot_some slot
      have least : k ≤ i := arpSlot_least slot (by simpa [State.setArp] using valid)
        (by simpa [State.setArp] using own)
      have here : k = i := by
        by_contra other
        simp only [State.setArp,other,if_false] at validK ownK
        exact other (le_antisymm least (first k validK ownK))
      exact ⟨_,rfl,by simpa [State.setArp,here] using same⟩
  rw [arpUpdate]
  cases known : arpSlot s ip with
  | some i =>
    obtain ⟨valid,own⟩ := arpSlot_some known
    exact found valid own rfl fun j => arpSlot_least known
  | none =>
    have unknown (j : Fin 16) (valid : (s.arpCache j).valid ≠ 0) : (s.arpCache j).ip ≠ ip :=
      fun own => arpSlot_none known j ⟨valid,own⟩
    cases arpFreeSlot s with
    | some i => exact found one rfl rfl fun j valid own => absurd own (unknown j valid)
    | none => exact found one rfl rfl fun j valid own => absurd own (unknown j valid)

/-- A packet that `arp_send_request` or `arp_send_reply` has put together. -/
structure Introduces (p : ArpPacket) (a : Station) (opcode : Half) (ip : Word) : Prop where
  ether : ntohs p.hwType = 1
  ipv4 : ntohs p.protoType = etherTypeIp
  opcode : ntohs p.opcode = opcode
  senderIp : ntohl p.senderIp = a.ip
  senderMac : p.senderMac = a.mac
  targetIp : ntohl p.targetIp = ip

theorem HoldsArp.introduces {dst src : Mac} {opcode : Half} (received : At data 0 frame)
    (holds : HoldsArp frame dst src (ownArp a.boot opcode mac ip)) :
    Introduces (arpPacket data) a opcode ip := by
  rw [holds.packet data received]
  exact ⟨ntohs_htons 1,ntohs_htons etherTypeIp,ntohs_htons opcode,ntohl_htonl a.ip,rfl,ntohl_htonl ip⟩

/-- Whoever hears an ARP packet of a station knows its card. -/
theorem Introduces.learned {opcode : Half} {len : Half} (told : Introduces (arpPacket data) a opcode ip)
    (arp : IsArp data len) : (netHandlePacket env s data len).Returns fun t => Learned t a := by
  intro t returned
  have cache := arp_announces arp told.ether told.ipv4 t returned
  rw [told.senderIp,told.senderMac] at cache
  rw [Learned,arpLookup_congr cache]
  exact arpLookup_update s a.ip a.mac

theorem arp_returns {len : Half} (arp : IsArp data len) :
    ∃ t, (netHandlePacket env s data len).result = .ok t := by
  rw [packet_of_arp arp,note_bind_result,handleArp]
  dsimp only
  split_ifs
  · exact ⟨_,rfl⟩
  · exact ⟨_,rfl⟩
  · exact arpSendReply_ok
  · exact ⟨_,rfl⟩

theorem ethSend_one {dst : Mac} {p : ArpPacket} (card : s.activeNic ≠ .none) : ∃ frame,
    sentFrames (ethSend env s dst etherTypeArp (fun i => p.bytes.getD i 0) 28) = [frame] := by
  have fits : 14 + (28 : Half).toNat ≤ 1536 := by decide
  obtain ⟨pkt,sent,-⟩ := @ethSend_frames env s (fun i => p.bytes.getD i 0) 28 dst etherTypeArp fits
  rw [if_neg card] at sent
  exact ⟨_,sent⟩

theorem arpSendRequest_one (card : s.activeNic ≠ .none) :
    ∃ frame, sentFrames (arpSendRequest env s ip) = [frame] := by
  obtain ⟨frame,sent⟩ := ethSend_one card
  exact ⟨frame,(sentFrames_pure Prod.fst).trans sent⟩

theorem arpSendReply_one (card : s.activeNic ≠ .none) :
    ∃ frame, sentFrames (arpSendReply env s ip mac) = [frame] := by
  obtain ⟨frame,sent⟩ := ethSend_one card
  exact ⟨frame,(sentFrames_pure Prod.fst).trans sent⟩

/-- A machine that is asked for its address answers the one who asks. -/
theorem Introduces.answered (env : Env) {b : Station} {len : Half} (told : Introduces (arpPacket data) a 1 b.ip)
    (arp : IsArp data len) (knows : Knows binding b s) (bound : binding a.ip a.mac)
    (card : b.nic ≠ .none) :
    ∃ reply, sentFrames (netHandlePacket env s data len) = [reply] ∧
      HoldsArp reply a.mac b.mac (ownArp b.boot 2 a.mac a.ip) := by
  have heard : Knows binding b (arpUpdate s a.ip a.mac) := knows.update bound
  have asked : ntohs (arpPacket data).opcode = 1 ∧ ntohl (arpPacket data).targetIp =
      (arpUpdate s a.ip a.mac).ourIp := ⟨told.opcode,told.targetIp.trans heard.ip.symm⟩
  have handled : sentFrames (netHandlePacket env s data len) =
      sentFrames (arpSendReply env (arpUpdate s a.ip a.mac) a.ip a.mac) := by
    rw [packet_of_arp arp,handleArp]
    dsimp only
    rw [← arpPacket,if_neg (not_not.mpr told.ether),if_neg (not_not.mpr told.ipv4),told.senderIp,
      told.senderMac,if_pos asked]
    rfl
  obtain ⟨reply,sent⟩ := @arpSendReply_one env _ a.ip a.mac (heard.nic.symm ▸ card)
  have holds := all_sends.mp arpSendReply_arp reply (by rw [sent]; exact List.mem_singleton_self _)
  rw [heard.own,heard.mac] at holds
  exact ⟨reply,handled.trans sent,holds⟩

theorem Emits.returned (emits : Emits s x t out) (ok : ∃ u, x.result = .ok u) : x.result = .ok t := by
  obtain ⟨u,ok⟩ := ok
  rcases emits.2 with ran | ⟨-,halt,stopped⟩
  · exact ran
  · cases ok.symm.trans stopped

theorem Heads.isArp {dst src : Mac} (heads : Heads frame dst src etherTypeArp)
    (received : At data 0 frame) : IsArp data (BitVec.ofNat 16 frame.length) := by
  have least := heads.least
  have most := heads.most
  have length : (BitVec.ofNat 16 frame.length).toNat = frame.length := Nat.mod_eq_of_lt (by omega)
  exact ⟨by omega,heads.etherType received⟩

/-- A machine that hears an ARP packet of a station knows its card from then on. -/
theorem reacts_learned {dst src : Mac} {opcode : Half}
    (holds : HoldsArp frame dst src (ownArp a.boot opcode mac ip)) (reacts : Reacts s frame t out) :
    Learned t a := by
  obtain ⟨env,data,received,-,emits⟩ := reacts
  have arp := holds.isArp received
  exact (holds.introduces received).learned arp t (emits.returned (arp_returns arp))

/-- Any received frame is handled somehow. -/
theorem exists_reacts (s : State) (frame : List Byte) : ∃ t out, Reacts s frame t out := by
  have received : At (fun i => frame.getD i 0) 0 frame := at_getD
  cases ran : (netHandlePacket default s (fun i => frame.getD i 0)
      (BitVec.ofNat 16 frame.length)).result with
  | ok t => exact ⟨t,_,default,_,received,default_finds _,rfl,.inl ran⟩
  | error halt => exact ⟨s,_,default,_,received,default_finds _,rfl,.inr ⟨rfl,halt,ran⟩⟩

variable {w₁ w₂ w₃ asked heard : Medium.System ι State (List Byte)} {out₁ out₂ : List (List Byte)}
  {past₁ past₂ past₃ : List (Medium.System ι State (List Byte) × Label ι (List Byte) Act)}
  {request : List Byte}

/-- A machine asks for another's address. Whenever that one hears the request it knows who
asked and answers, and whenever the first one hears the answer it knows the address, with
anything else in between and before. -/
theorem arp_resolves (binding : Word → Mac → Prop) (stations : ι → Station)
    (own : ∀ i, binding (stations i).ip (stations i).mac) (i j : ι)
    (before : Run (Step (segment ι binding)) (powerOn stations) past₁ w₁)
    (asks : Step (segment ι binding) w₁ (.act i (.ask (stations j).ip) out₁) asked)
    (later : Run (Step (segment ι binding)) asked past₂ w₂)
    (hears : Step (segment ι binding) w₂ (.receive j request out₂) heard) (emitted : request ∈ out₁)
    (after : Run (Step (segment ι binding)) heard past₃ w₃) :
    Learned (heard.station j) (stations i) ∧ ((stations j).nic ≠ .none →
      ∃ reply, out₂ = [reply] ∧ Heads reply (stations i).mac (stations j).mac etherTypeArp ∧
        (∃ out₃ told, Step (segment ι binding) w₃ (.receive i reply out₃) told) ∧
        ∀ out₃ told, Step (segment ι binding) w₃ (.receive i reply out₃) told →
          Learned (told.station i) (stations j)) := by
  have there := (segment_safe own (before.trans (.cons asks later))).station j
  have requested : Asks (stations i) (stations j).ip request := by
    have knows := (segment_safe own before).station i
    cases asks with
    | act acted =>
      obtain ⟨env,rfl,-⟩ := acted
      exact all_sends.mp knows.asks request emitted
  have kept : ∀ m ∈ out₂, m ∈ w₃.sent :=
    fun m member => out_sent (.cons hears after) (List.mem_cons_self ..) member
  cases hears with
  | receive sent reacted =>
    rw [move_same]
    refine ⟨reacts_learned requested reacted,fun card => ?_⟩
    obtain ⟨env,data,received,-,rfl,-⟩ := reacted
    obtain ⟨reply,sent,holds⟩ := (requested.introduces received).answered env
      (requested.isArp received) there (own i) card
    refine ⟨reply,sent,holds.toHeads,?_,fun out₃ told moved => ?_⟩
    · obtain ⟨t,out,reacts⟩ := exists_reacts (w₃.station i) reply
      exact ⟨out,_,.receive (kept reply (by rw [sent]; exact List.mem_singleton_self _)) reacts⟩
    · cases moved with
      | receive _ reacts =>
        rw [move_same]
        exact reacts_learned holds reacts

end

/-! Two machines. -/

def pair : Bool → Station
  | false => ⟨.e1000,Vector.replicate 6 1,0x0A00020F⟩
  | true => ⟨.rtl8139,Vector.replicate 6 2,0x0A000210⟩

def pairBinding (ip : Word) (mac : Mac) : Prop := ∃ i, (pair i).ip = ip ∧ (pair i).mac = mac

theorem pair_own (i : Bool) : pairBinding (pair i).ip (pair i).mac := ⟨i,rfl,rfl⟩

/-- One asks, and the other hears it. -/
theorem pair_asks : ∃ out₁ asked request out₂ heard, request ∈ out₁ ∧
    Step (segment Bool pairBinding) (powerOn pair) (.act false (.ask (pair true).ip) out₁) asked ∧
    Step (segment Bool pairBinding) asked (.receive true request out₂) heard := by
  obtain ⟨t,ran⟩ := arpSendRequest_ok default (pair false).boot (pair true).ip
  obtain ⟨request,sent⟩ := @arpSendRequest_one default (pair false).boot (pair true).ip (by decide)
  have acts : (segment Bool pairBinding).act false ((powerOn pair).station false)
      (.ask (pair true).ip) t [request] := ⟨default,sent.symm,.inl ran⟩
  have member := List.mem_singleton_self request
  obtain ⟨u,out₂,reacts⟩ := exists_reacts (pair true).boot request
  exact ⟨_,_,request,out₂,_,member,.act acts,.receive (.inr member) reacts⟩

theorem arp_coherent_pair : ∃ past last,
    Run (Step (segment Bool pairBinding)) (powerOn pair) past last ∧ past.length = 2 ∧
      ∀ ip entry, arpLookup (last.station true) ip = some entry → pairBinding ip entry.mac := by
  obtain ⟨out₁,asked,request,out₂,heard,-,asks,hears⟩ := pair_asks
  have run := Run.cons asks (Run.single hears)
  exact ⟨_,heard,run,rfl,(arp_coherent pairBinding pair pair_own run true).2.1⟩

theorem arp_resolves_pair : ∃ past last,
    Run (Step (segment Bool pairBinding)) (powerOn pair) past last ∧
      Learned (last.station false) (pair true) := by
  obtain ⟨out₁,asked,request,out₂,heard,emitted,asks,hears⟩ := pair_asks
  obtain ⟨-,answers⟩ := arp_resolves pairBinding pair pair_own false true .nil asks .nil hears
    emitted .nil
  obtain ⟨reply,-,-,⟨out₃,told,moved⟩,learned⟩ := answers (by decide)
  exact ⟨_,told,Run.cons asks (Run.cons hears (Run.single moved)),learned out₃ told moved⟩

end NimrodOS.Net
