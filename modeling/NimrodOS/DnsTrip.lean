import NimrodOS.DnsEncode
import NimrodOS.DnsReplies
import NimrodOS.NetResolves
import NimrodOS.NetRound

/-! A name from one machine to a server, and its address back. -/
namespace NimrodOS.Net.Dns

open Wire Logged Transition

variable {env : Env} {s t c : State} {data bytes : Nat → Byte} {len n id srcPort dstPort : Half}
  {dst ip : Word} {q : Query} {labels : List Label} {r : Response} {entry : ArpEntry}

/-- A datagram as one frame, with what every receiver of it finds in memory. -/
theorem datagram_carried (card : s.activeNic ≠ .none)
    (cached : arpLookup s (nextHop s dst) = some entry) (short : len.toNat ≤ 1464) :
    ∃ frame : List Byte, sentFrames (netSendUdp env s dst srcPort dstPort data len) = [frame] ∧
      frame.length = max 60 (42 + len.toNat) ∧
      ∀ bytes, At bytes 0 frame → Carried bytes s entry.mac dst srcPort dstPort data len := by
  obtain ⟨pkt,sent,eth,ip,udp,body,-⟩ := datagram_frames cached short
  rw [if_neg card] at sent
  refine ⟨_,sent,bytesFrom_length,fun bytes received => ?_⟩
  constructor
  · exact received.copied_front eth (by rw [eth_length]; omega)
  · exact received.copied_front ip (by rw [ip_length]; omega)
  · exact received.copied_front udp (by rw [udp_length]; omega)
  · exact received.copied_front body (by rw [bytesFrom_length]; omega)

/-- The data of a datagram, when it was a list of bytes. -/
theorem carried_list {mac : Mac} {sent : List Byte} (fits : sent.length < 2^16)
    (carried : Carried bytes s mac dst srcPort dstPort (fun i => sent.getD i 0) (BitVec.ofNat 16 sent.length)) :
    At bytes 42 sent := by
  have length : (BitVec.ofNat 16 sent.length).toNat = sent.length := Nat.mod_eq_of_lt fits
  have body := carried.data
  rwa [length,at_getD.bytesFrom] at body

/-! The question. -/

/-- What a server finds in a frame that asks for a name. -/
structure Asks (data : Nat → Byte) (id : Half) (labels : List Label) : Prop where
  port : ntohs (UdpHeader.read data 34).dstPort = dnsPort
  id : ntohs (DnsHeader.read data 42).id = id
  recursive : ntohs (DnsHeader.read data 42).flags = 0x0100
  one : ntohs (DnsHeader.read data 42).qdcount = 1
  name : ∃ size, decodeName (bytesFrom data 54 size) = some (labels.map Subtype.val,[0,1,0,1])

theorem query_asks (some' : labels ≠ []) (dotless : ∀ l ∈ labels, 46 ∉ l.val) {trailing : Bool}
    (query : At data 42 (dnsQuery id (hostname labels trailing)))
    (port : ntohs (UdpHeader.read data 34).dstPort = dnsPort) : Asks data id labels := by
  rw [dnsQuery_hostname id labels trailing some' dotless,at_append] at query
  obtain ⟨header,name⟩ := query
  simp only [queryHeader,at_append] at header
  obtain ⟨⟨⟨ids,flags⟩,count⟩,-⟩ := header
  refine ⟨port,?_,?_,?_,(Name.wire ⟨labels,.zero⟩ ++ [0,1,0,1]).length,?_⟩
  · exact (congrArg ntohs (load16_at ids)).trans (ntohs_htons id)
  · exact (congrArg ntohs (load16_at flags)).trans (ntohs_htons _)
  · exact (congrArg ntohs (load16_at count)).trans (ntohs_htons _)
  · have place : 42 + (queryHeader id).length = 54 := rfl
    have zero : Name.wire ⟨labels,.zero⟩ ++ [0,1,0,1] = labelsWire labels ++ 0 :: [0,1,0,1] := by
      simp [Name.wire,Ending.wire]
    have count := labels_count labels
    rw [place] at name
    rw [name.bytesFrom,zero,decodeName]
    apply decodeLabels_wire
    rw [List.length_append]
    exact Nat.lt_of_le_of_lt count (Nat.lt_add_of_pos_right (Nat.zero_lt_succ _))

/-- A query goes out as one frame, and everyone who receives it is asked for the name. -/
theorem query_frames (card : s.activeNic ≠ .none)
    (cached : arpLookup s (nextHop s netDns) = some entry) (some' : labels ≠ [])
    (dotless : ∀ l ∈ labels, 46 ∉ l.val) {trailing : Bool}
    (name : q.hostname = hostname labels trailing) (short : q.hostname.length ≤ 238) (attempt : Fin 3) :
    ∃ frame : List Byte, sentFrames (sendQuery env s q attempt) = [frame] ∧
      ∀ data, At data 0 frame → Asks data q.id labels := by
  have fits := (dnsQuery_fits_iff q.id q.hostname).mpr (.inl short)
  have length : (BitVec.ofNat 16 (dnsQuery q.id q.hostname).length).toNat =
      (dnsQuery q.id q.hostname).length := Nat.mod_eq_of_lt (by omega)
  obtain ⟨frame,sent,-,carried⟩ := @datagram_carried env s
    (fun i => (dnsQuery q.id q.hostname).getD i 0) (BitVec.ofNat 16 (dnsQuery q.id q.hostname).length)
    (1053 + BitVec.ofNat 16 attempt) dnsPort netDns entry card cached (by omega)
  refine ⟨frame,sent,fun data received => ?_⟩
  have datagram := carried data received
  have query := carried_list (by omega) datagram
  rw [name] at query
  refine query_asks some' dotless query ?_
  rw [UdpHeader.read_at datagram.udp]
  exact ntohs_htons _

/-! The answer. -/

/-- A response that comes in a datagram from the server's port. -/
theorem carried_arrives {mac : Mac} (small : r.wire.length ≤ 1464)
    (carried : Carried bytes s mac dst dnsPort dstPort (fun i => r.wire.getD i 0)
      (BitVec.ofNat 16 r.wire.length)) :
    Arrives bytes 34 (8 + BitVec.ofNat 16 r.wire.length) r := by
  have length : (8 + BitVec.ofNat 16 r.wire.length).toNat = 8 + r.wire.length := by
    rw [BitVec.toNat_add,BitVec.toNat_ofNat]
    have eight : (8 : Half).toNat = 8 := rfl
    omega
  have udp := UdpHeader.read_at carried.udp
  constructor
  · have port := congrArg (fun udp => ntohs udp.srcPort) udp
    simp only [UdpHeader.read,ntohs_load16] at port
    rw [port]
    exact ntohs_htons _
  · have field := congrArg (fun udp => ntohs udp.length) udp
    simp only [UdpHeader.read,ntohs_load16] at field
    rw [field,sentUdp,ntohs_htons,length]
  · exact length
  · exact carried_list (by omega) carried

/-- A response to the question for a name, with an address that the parser comes to. -/
structure Answers (labels : List Label) (id : Half) (ip : Word) (r : Response) : Prop where
  id : r.id = id
  question : r.question = ⟨labels,.zero⟩
  plain : PlainAnswers r.answers
  address : firstAddress r.answers = some ip
  small : r.wire.length ≤ 1464

/-- An answer goes out as one frame, and whoever still waits for it takes its address. -/
theorem answer_frames (card : t.activeNic ≠ .none) (cached : arpLookup t (nextHop t dst) = some entry)
    (answers : Answers labels id ip r) :
    ∃ frame : List Byte, sentFrames (netSendUdp env t dst dnsPort dstPort (fun i => r.wire.getD i 0)
        (BitVec.ofNat 16 r.wire.length)) = [frame] ∧
      ∀ bytes, At bytes 0 frame → ∀ env (c : State), c.dnsQueryId = id →
        (netHandlePacket env c bytes (BitVec.ofNat 16 frame.length)).result = .ok (answered c (some ip)) := by
  have small := answers.small
  have length : (BitVec.ofNat 16 r.wire.length).toNat = r.wire.length := Nat.mod_eq_of_lt (by omega)
  obtain ⟨frame,sent,size,carried⟩ := @datagram_carried env t (fun i => r.wire.getD i 0)
    (BitVec.ofNat 16 r.wire.length) dnsPort dstPort dst entry card cached (by omega)
  refine ⟨frame,sent,fun bytes received env c mine => ?_⟩
  have datagram := carried bytes received
  have width : (BitVec.ofNat 16 frame.length).toNat = frame.length := Nat.mod_eq_of_lt (by omega)
  have understood : Understood r := understood_of_plain fun _ =>
    ⟨by rw [Name.ZeroEnded,answers.question],answers.plain⟩
  rw [datagram.dispatched (by omega) (by omega) c,note_bind_result,
    understood c bytes 34 _ (mine.trans answers.id.symm) (carried_arrives small datagram),answers.address]

/-! Waiting. -/

/-- Nothing but packets that are no answers, and what else the stack does. -/
def Quiet (s : Client) : Client.Op → Prop
  | .packet _ data len _ => ∀ ip, ¬Resolves s.stack data len ip
  | .rest => True
  | _ => False

theorem quiet_keeps {s u : Client} {past : List (Client × Client.Op)} (run : Run Client.Step s past u)
    (quiet : ∀ entry ∈ past, Quiet entry.1 entry.2) :
    u.stack.resolver = s.stack.resolver ∧ u.call = s.call := by
  have kept : ∀ (a : Client) op b, a.stack.resolver = s.stack.resolver ∧ a.call = s.call → Quiet a op →
      Client.Step a op b → b.stack.resolver = s.stack.resolver ∧ b.call = s.call := by
    intro a op b before calm moved
    cases moved with
    | packet still genuine handled taken left =>
      exact ⟨((packet_resolver still _ handled).2 calm).trans before.1,before.2⟩
    | rest kept => exact ⟨kept.trans before.1,before.2⟩
    | begin | reset | send | poll | finish => exact calm.elim
  exact run.invariant_under ⟨rfl,rfl⟩ kept quiet

/-- A name from end to end: the query is one frame, and who hears it is asked for the name; an
answer to it is one frame, and the caller that hears it while it waits has its address, and
keeps it until it looks. -/
theorem dns_round_trip (s t : State) (q : Query) (labels : List Label) (trailing : Bool) (attempt : Fin 3)
    (here there : ArpEntry) (some' : labels ≠ []) (dotless : ∀ l ∈ labels, 46 ∉ l.val)
    (name : q.hostname = hostname labels trailing) (short : q.hostname.length ≤ 238)
    (cardHere : s.activeNic ≠ .none) (cardThere : t.activeNic ≠ .none)
    (cachedHere : arpLookup s (nextHop s netDns) = some here)
    (cachedThere : arpLookup t (nextHop t s.ourIp) = some there) (env₁ env₂ env₃ : Env) :
    ∃ query : List Byte, sentFrames (sendQuery env₁ s q attempt) = [query] ∧
      ∀ data, At data 0 query → Asks data q.id labels ∧
        ∀ r ip, Answers labels (ntohs (DnsHeader.read data 42).id) ip r → ∃ answer : List Byte,
          sentFrames (netSendUdp env₂ t s.ourIp dnsPort (1053 + BitVec.ofNat 16 attempt)
            (fun i => r.wire.getD i 0) (BitVec.ofNat 16 r.wire.length)) = [answer] ∧
          ∀ bytes, At bytes 0 answer → ∀ c : Client, ∀ start, c.call = .waiting attempt start →
            c.stack.dnsQueryId = q.id →
            (netHandlePacket env₃ c.stack bytes (BitVec.ofNat 16 answer.length)).result =
              .ok (answered c.stack (some ip)) ∧
            ∀ past u, Run Client.Step {c with stack := answered c.stack (some ip)} past u →
              (∀ entry ∈ past, Quiet entry.1 entry.2) → u.stack.dnsResultIp = ip ∧
                ∀ ticks : Word, ticks - start < 200 →
                  Client.Step u (.poll ticks false) {u with call := .found} := by
  obtain ⟨query,sent,asks⟩ := @query_frames env₁ s q labels here cardHere cachedHere some' dotless trailing
    name short attempt
  refine ⟨query,sent,fun data received => ⟨asks data received,fun r ip answers => ?_⟩⟩
  rw [(asks data received).id] at answers
  obtain ⟨answer,sent',taken⟩ := @answer_frames env₂ t q.id (1053 + BitVec.ofNat 16 attempt) s.ourIp ip labels
    r there cardThere cachedThere answers
  refine ⟨answer,sent',fun bytes heard c start waiting mine => ⟨taken bytes heard env₃ c.stack mine,?_⟩⟩
  intro past u run quiet
  obtain ⟨resolver,call⟩ := quiet_keeps run quiet
  have address : u.stack.dnsResultIp = ip := congrArg Resolver.resultIp resolver
  have got : u.stack.dnsGotReply = 1 := congrArg Resolver.gotReply resolver
  refine ⟨address,fun ticks inTime => ?_⟩
  have found : pollReply u.stack.dnsGotReply attempt start ticks false = .found := by
    rw [pollReply,if_pos inTime,got]
    rfl
  have polled := Client.Step.poll (s := u) ticks false (call.trans waiting)
  rwa [found] at polled

/-- A machine that knows the server's card, and the server, which knows the machine's. -/
def knownServer : State := arpUpdate (netInit .e1000 broadcast) netDns broadcast

def server : State := {arpUpdate (netInit .e1000 broadcast) knownServer.ourIp broadcast with ourIp := netDns}

/-- The label "n", and one address for it. -/
def oneLabel : Label := ⟨[110],Nat.le_refl 1,Nat.le_add_left 1 62⟩

def oneAnswer : Response :=
  plainResponse ⟨[oneLabel],.zero⟩ 1 1 [⟨⟨[oneLabel],.zero⟩,1,1,0,[10,0,2,9],by decide⟩] (by decide)

theorem dns_round_trip_once : ∃ query answer : List Byte,
    sentFrames (sendQuery default knownServer ⟨[110],0⟩ 0) = [query] ∧
      sentFrames (netSendUdp default server knownServer.ourIp dnsPort 1053
        (fun i => oneAnswer.wire.getD i 0) (BitVec.ofNat 16 oneAnswer.wire.length)) = [answer] := by
  have known : (arpLookup knownServer (nextHop knownServer netDns)).isSome := by decide +kernel
  have known' : (arpLookup server (nextHop server knownServer.ourIp)).isSome := by
    decide +kernel
  obtain ⟨here,cachedHere⟩ := Option.isSome_iff_exists.mp known
  obtain ⟨there,cachedThere⟩ := Option.isSome_iff_exists.mp known'
  obtain ⟨query,sent,heard⟩ := dns_round_trip knownServer server ⟨[110],0⟩ [oneLabel] false 0 here there
    (by decide) (by decide) (by decide) (by decide) (by decide +kernel) (by decide +kernel) cachedHere
    cachedThere default default default
  obtain ⟨asks,answered⟩ := heard (fun i => query.getD i 0) at_getD
  have answers : Answers [oneLabel] oneAnswer.id 0x0A000209 oneAnswer :=
    ⟨rfl,rfl,⟨.inl rfl,.inr trivial⟩,by decide,by decide⟩
  have id : ntohs (DnsHeader.read (fun i => query.getD i 0) 42).id = oneAnswer.id :=
    asks.id.trans (by decide)
  obtain ⟨answer,sent',-⟩ := answered oneAnswer 0x0A000209 (id ▸ answers)
  exact ⟨query,answer,sent,sent'⟩

end NimrodOS.Net.Dns
